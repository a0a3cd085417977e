import Vnu.Px.Files
import Vnu.Px.Safety

/-!
The decoder makes of the file of a picture the picture itself, if and only if its compressed stream
has at most `2 ^ 31` bytes.
-/
namespace Vnu.Px

open Rfc1951 List Nat

variable {data stream : List UInt8} {turns : ℕ}

theorem channels_code (c : Color) : channels c.code = some c.channels := by
  cases c <;> rfl

theorem code_eq_toNat (c : Color) : (UInt8.ofNat c.code).toNat = c.code := by
  cases c <;> rfl

theorem code_ne_three (c : Color) : c.code ≠ 3 := by
  cases c <;> decide

theorem ihdr_length (p : Picture) : (ihdr p).length = 13 := rfl

theorem readIhdr_eq (p : Picture) {d rest : List UInt8}
    (hd : d = sigPng ++ (chunk typeIhdr (ihdr p) ++ rest)) :
    readIhdr d = .ok (⟨p.width, p.height, 8, p.color.code⟩, p.color.channels) := by
  have hw := p.width_range
  have hh := p.height_range
  have hsig : d.take 8 = sigPng := by rw [hd]; rfl
  have hlength : 33 ≤ d.length := by
    rw [hd, length_append, length_append]
    change 33 ≤ 8 + (12 + 13 + rest.length)
    omega
  obtain ⟨hlen, htype, -⟩ := chunk_fields hd (by rw [ihdr_length]; norm_num) (by decide)
  let tail := be32 (crc32 (be32 typeIhdr ++ ihdr p)) ++ rest
  have hwidth : rd32be d 16 = .ok p.width := by
    have hsplit : d = (sigPng ++ be32 13 ++ be32 typeIhdr) ++ (be32 p.width ++ (be32 p.height ++
        ([8, UInt8.ofNat p.color.code, 0, 0, 0] ++ tail))) := by
      rw [hd]; rfl
    exact rd32be_eq hsplit rfl (by omega)
  have hheight : rd32be d 20 = .ok p.height := by
    have hsplit : d = (sigPng ++ be32 13 ++ be32 typeIhdr ++ be32 p.width) ++ (be32 p.height ++
        ([8, UInt8.ofNat p.color.code, 0, 0, 0] ++ tail)) := by
      rw [hd]; rfl
    exact rd32be_eq hsplit rfl (by omega)
  have hbyte : ∀ k, byteAt d (24 + k) = byteAt
    ([8, UInt8.ofNat p.color.code, 0, 0, 0] ++ tail) k := by
    intro k
    have hsplit : d = (sigPng ++ be32 13 ++ be32 typeIhdr ++ be32 p.width ++ be32 p.height) ++
        ([8, UInt8.ofNat p.color.code, 0, 0, 0] ++ tail) := by
      rw [hd]; rfl
    rw [hsplit]
    exact byteAt_append _ _ k
  have hct : byteAt d 25 = .ok p.color.code :=
    (hbyte 1).trans (congrArg Except.ok (code_eq_toNat p.color))
  unfold readIhdr
  rw [if_neg (by rw [hsig]; simp only [ne_eq, not_true_eq_false, or_false]; omega)]
  simp only [bind, Except.bind]
  rw [show rd32be d 8 = .ok 13 from hlen, show rd32be d 12 = .ok typeIhdr from htype]
  simp only [ne_eq]
  rw [hwidth, hheight, hct, show byteAt d 24 = .ok 8 from hbyte 0,
    show byteAt d 26 = .ok 0 from hbyte 2, show byteAt d 27 = .ok 0 from hbyte 3,
    show byteAt d 28 = .ok 0 from hbyte 4]
  simp only [not_true_eq_false, or_self, if_false]
  rw [if_neg (by omega), channels_code]
  simp only
  rw [if_neg (code_ne_three p.color)]

theorem Zlib.length_ge (h : Zlib data stream) : 4 ≤ stream.length := by
  cases h with
  | mk cmf flg body bits pad =>
    simp only [length_cons, length_append, be32_length]
    omega

theorem inflateIdat_eq (h : Zlib data stream)
    (hsmall : stream.length < 2 ^ 32) (hturns : 8 * stream.length ≤ turns) :
    inflateIdat (fun _ => true) turns stream data.length = .ok data := by
  have hlength := h.length_ge
  cases h with
  | mk cmf flg body bits pad hmethod hwindow hcheck hdict hbody hpad hstream =>
    have hvalid : Valid (body ++ be32 (adler32 data)) data := by
      refine ⟨bits, pad ++ octets (be32 (adler32 data)), ?_, hstream⟩
      rw [octets_append, hbody, append_assoc]
    simp only [length_cons] at hsmall hturns
    have hinflate := defInflate_valid (by omega) hvalid (le_succ data.length)
      (show 8 * (body ++ be32 (adler32 data)).length ≤ turns by omega)
    unfold inflateIdat
    rw [if_neg (by simp), if_neg (by omega), if_neg (by simpa using ⟨hcheck, hdict⟩)]
    rw [show (cmf :: flg :: (body ++ be32 (adler32 data))).drop 2 =
      body ++ be32 (adler32 data) from rfl, hinflate]
    exact if_pos rfl

theorem mapM_ok {α β : Type} {f : α → Except Stop β} {g : α → β} {xs : List α}
    (h : ∀ x ∈ xs, f x = .ok (g x)) : xs.mapM f = .ok (xs.map g) := by
  induction xs with
  | nil => rfl
  | cons x xs ih =>
    rw [mapM_cons, h x mem_cons_self, ih fun y hy => h y (mem_cons_of_mem x hy)]
    rfl

theorem byte_sample (p : Picture) (y x : ℕ) {c : ℕ} (hc : c < p.color.channels) :
    p.byte y (x * p.color.channels + c) = p.sample y x c := by
  have hpos := channels_pos p.color
  rw [Picture.byte, add_comm, Nat.add_mul_div_right _ _ hpos, Nat.div_eq_of_lt hc,
    Nat.add_mul_mod_self_right, Nat.mod_eq_of_lt hc, zero_add]

theorem pixel_eq (p : Picture) (s : PngAux) {row : List UInt8} {y x : ℕ}
    (hrow : ∀ c < p.color.channels, row.getD (x * p.color.channels + c) 0 = p.sample y x c) :
    pixel p.color.code 8 s row x = .ok (p.flatPixel y x) := by
  unfold Picture.flatPixel
  cases hcolor : p.color with
  | gray =>
    rw [hcolor] at hrow
    have h0 : row.getD (x * 1) 0 = _ := hrow 0 (by decide)
    change Except.ok [row.getD (x * 1) 0, row.getD (x * 1) 0, row.getD (x * 1) 0] = _
    rw [h0]
  | rgb =>
    rw [hcolor] at hrow
    have h0 : row.getD (x * 3) 0 = _ := hrow 0 (by decide)
    have h1 : row.getD (x * 3 + 1) 0 = _ := hrow 1 (by decide)
    have h2 : row.getD (x * 3 + 2) 0 = _ := hrow 2 (by decide)
    change Except.ok [row.getD (x * 3) 0, row.getD (x * 3 + 1) 0, row.getD (x * 3 + 2) 0] = _
    rw [h0, h1, h2]
  | grayAlpha =>
    rw [hcolor] at hrow
    have h0 : row.getD (x * 2) 0 = _ := hrow 0 (by decide)
    have h1 : row.getD (x * 2 + 1) 0 = _ := hrow 1 (by decide)
    change Except.ok (replicate 3
      (Picture.overWhite (row.getD (x * 2) 0) (row.getD (x * 2 + 1) 0))) = _
    rw [h0, h1]
  | rgba =>
    rw [hcolor] at hrow
    have h0 : row.getD (x * 4) 0 = _ := hrow 0 (by decide)
    have h1 : row.getD (x * 4 + 1) 0 = _ := hrow 1 (by decide)
    have h2 : row.getD (x * 4 + 2) 0 = _ := hrow 2 (by decide)
    have h3 : row.getD (x * 4 + 3) 0 = _ := hrow 3 (by decide)
    change Except.ok [Picture.overWhite (row.getD (x * 4) 0) (row.getD (x * 4 + 3) 0),
      Picture.overWhite (row.getD (x * 4 + 1) 0) (row.getD (x * 4 + 3) 0),
      Picture.overWhite (row.getD (x * 4 + 2) 0) (row.getD (x * 4 + 3) 0)] = _
    rw [h0, h1, h2, h3]

theorem pixels_eq (p : Picture) (s : PngAux) {raw : List UInt8}
    (hraw : ∀ y < p.height, ∀ i < p.rowBytes, raw.getD (y * (1 + p.rowBytes) + 1 + i) 0 =
    p.byte y i) :
    pixels p.color.code 8 p.width p.height p.rowBytes s raw = .ok p.flattened := by
  have hpixel : ∀ y ∈ range p.height, (range p.width).mapM (fun x =>
      pixel p.color.code 8 s (raw.drop (y * (1 + p.rowBytes) + 1)) x) =
      .ok ((range p.width).map (p.flatPixel y)) := by
    intro y hy
    apply mapM_ok
    intro x hx
    apply pixel_eq
    intro c hc
    have hin : x * p.color.channels + c < p.rowBytes := by
      calc x * p.color.channels + c < x * p.color.channels + p.color.channels := by omega
        _ = (x + 1) * p.color.channels := by ring
        _ ≤ p.width * p.color.channels := Nat.mul_le_mul_right _ (mem_range.mp hx)
    rw [← byte_sample p y x hc, ← hraw y (mem_range.mp hy) _ hin,
      getD_eq_getElem?_getD, getElem?_drop, ← getD_eq_getElem?_getD]
  unfold pixels
  rw [mapM_ok hpixel]
  simp only [bind, Except.bind]
  rw [flatten_flatten, map_map]
  rfl

namespace PngFile

variable (f : PngFile)

theorem payload_length_le (c : Piece) : c.payload.length ≤ c.bytes.length := by
  rw [Piece.bytes, chunk_length]
  unfold Piece.payload
  split_ifs
  · omega
  · exact zero_le _

theorem stream_length_le : f.stream.length ≤ f.bytes.length := by
  have hpieces : (f.pieces.flatMap Piece.payload).length ≤
    (f.pieces.flatMap Piece.bytes).length := by
    rw [length_flatMap, length_flatMap]
    exact sum_le_sum fun c _ => payload_length_le c
  unfold stream bytes fileBytes
  simp only [length_append]
  omega

theorem chunkLoop_start (mem : ℕ → Bool) (turns ct t : ℕ) (s : PngAux) :
    chunkLoop mem turns f.bytes ct (t + 1) 8 s =
      chunkLoop mem turns f.bytes ct t (sigPng ++ chunk typeIhdr (ihdr f.picture)).length s := by
  have hd : f.bytes = sigPng ++ (chunk typeIhdr (ihdr f.picture) ++
      (f.pieces.flatMap Piece.bytes ++ chunk typeIend [])) := rfl
  exact chunkLoop_step hd f.fits (by decide) (by decide)
    (append_ne_nil_of_right_ne_nil _ chunk_ne_nil) t s

theorem bytes_eq : f.bytes = (sigPng ++ chunk typeIhdr (ihdr f.picture)) ++
    (f.pieces.flatMap Piece.bytes ++ chunk typeIend []) := by
  rw [bytes, fileBytes, append_assoc]

theorem readIhdr_bytes : readIhdr f.bytes = .ok
    (⟨f.picture.width, f.picture.height, 8, f.picture.color.code⟩, f.picture.color.channels) :=
  readIhdr_eq f.picture rfl

theorem collected_start (junk : ℕ → UInt8) : Collected ⟨[], junk, false, [], 0, false⟩ [] :=
  ⟨rfl, .inl rfl, le_rfl, fun h => absurd rfl h⟩

theorem sizes_eq (p : Picture) :
    (p.width * (8 * p.color.channels) + 7) / 8 = p.rowBytes ∧
      (8 * p.color.channels + 7) / 8 = p.color.channels := by
  have hrow : p.width * (8 * p.color.channels) = 8 * p.rowBytes := by
    unfold Picture.rowBytes
    ring
  omega

theorem decode_ends (hshort : f.stream.length ≤ 2 ^ 31) (junk : ℕ → UInt8)
    (hturns : 32 + f.pieces.length + 8 * f.stream.length ≤ turns) :
    pxPngDecode (fun _ => true) turns junk f.bytes =
      .ok (f.picture.width, f.picture.height, f.picture.flattened) := by
  obtain ⟨hrow, hbpp⟩ := sizes_eq f.picture
  obtain ⟨t, rfl⟩ := Nat.exists_eq_add_of_le' (show 1 ≤ turns by omega)
  have hloop : ∃ s, chunkLoop (fun _ => true) (t + 1) f.bytes f.picture.color.code (t + 1) 8
      ⟨[], junk, false, [], 0, false⟩ = .ok s ∧ Collected s f.stream := by
    rw [chunkLoop_start]
    exact chunkLoop_ends (by omega) f.bytes_eq f.fits (by omega) (collected_start junk) hshort
  obtain ⟨s, hloop, hs⟩ := hloop
  have hgot : s.gotIdat = true :=
    hs.got (ne_nil_of_length_pos (lt_of_lt_of_le (by norm_num) f.zlib.length_ge))
  have hlength := (undone_start f.picture f.filters).length
  have hinflate := inflateIdat_eq f.zlib (lt_of_le_of_lt f.stream_length_le f.fits)
    (show 8 * f.stream.length ≤ t + 1 by omega)
  rw [hlength] at hinflate
  obtain ⟨raw, hunfilter, hraw⟩ := unfilter_filtered f.picture f.filters
  unfold pxPngDecode
  rw [f.readIhdr_bytes]
  simp only [bind, Except.bind]
  rw [hloop, hrow, hbpp]
  simp only [hgot]
  rw [hs.idat, show f.stream = f.pieces.flatMap Piece.payload from rfl, hinflate]
  simp only
  rw [hunfilter]
  simp only
  rw [pixels_eq f.picture s hraw]
  rfl

theorem decode_runs (hlong : 2 ^ 31 < f.stream.length) (junk : ℕ → UInt8) (hturns : 32 ≤ turns) :
    pxPngDecode (fun _ => true) turns junk f.bytes = .error .running := by
  have hloop : chunkLoop (fun _ => true) turns f.bytes f.picture.color.code turns 8
      ⟨[], junk, false, [], 0, false⟩ = .error .running := by
    obtain ⟨t, rfl⟩ := Nat.exists_eq_add_of_le' (show 1 ≤ turns by omega)
    rw [chunkLoop_start]
    exact chunkLoop_runs hturns f.bytes_eq f.fits t (collected_start junk) (zero_le _) hlong
      (lt_of_le_of_lt f.stream_length_le f.fits)
  unfold pxPngDecode
  rw [f.readIhdr_bytes]
  simp only [bind, Except.bind]
  rw [hloop]

end PngFile

/-- A picture comes out of its file, whatever the writer chose, if and only if the compressed stream
has at most `2 ^ 31` bytes. -/
theorem pxPngDecode_picture_iff (f : PngFile) (junk : ℕ → UInt8) :
    (∃ enough, ∀ turns ≥ enough, pxPngDecode (fun _ => true) turns junk f.bytes =
      .ok (f.picture.width, f.picture.height, f.picture.flattened)) ↔ f.stream.length ≤ 2 ^ 31 := by
  constructor
  · rintro ⟨enough, hdecode⟩
    by_contra hlong
    have hruns := f.decode_runs (not_le.mp hlong) junk (le_max_right enough 32)
    exact nomatch (hdecode _ (le_max_left enough 32)).symm.trans hruns
  · intro hshort
    exact ⟨_, fun turns hturns => f.decode_ends hshort junk hturns⟩

/-- Empty blocks before a stream that starts at a byte. -/
theorem stream_blank {bits : List Bool}
    (hlast : ∀ pos, pos % 8 = 0 → Stream pos [] bits data) (n : ℕ) {pos : ℕ} (hpos : pos % 8 = 0) :
    Stream pos [] (octets (replicate n (storedBlock [])).flatten ++ bits) data := by
  induction n generalizing pos with
  | zero => exact hlast pos hpos
  | succ n ih =>
    rw [replicate_succ, flatten_cons, octets_append, octets_storedBlock, append_assoc]
    have hlength : (word 2 0 ++ (replicate 5 false ++ (word 16 ([] : List UInt8).length ++
        (word 16 (2 ^ 16 - 1 - ([] : List UInt8).length) ++ octets [])))).length = 39 := by decide
    refine Stream.more (Block.stored [] [] (replicate 5 false) (by norm_num) ?_
      (by norm_num)) ?_
    · rw [length_replicate]
      omega
    · rw [hlength]
      exact ih (by omega)

def blank : Picture where
  color := .gray
  width := 1
  height := 1
  width_range := ⟨le_rfl, Nat.le_of_ble_eq_true rfl⟩
  height_range := ⟨le_rfl, Nat.le_of_ble_eq_true rfl⟩
  sample _ _ _ := 0

def blankBody (n : ℕ) : List UInt8 :=
  (replicate n (storedBlock [])).flatten ++ [1, 2, 0, 0xFD, 0xFF, 0, 0]

def blankStream (n : ℕ) : List UInt8 :=
  0x78 :: 0x01 :: (blankBody n ++ be32 (adler32 (blank.filtered fun _ => .none)))

theorem blankStream_length (n : ℕ) : (blankStream n).length = 5 * n + 13 := by
  simp only [blankStream, blankBody, length_cons, length_append, flatten_empty_length,
    be32_length, length_nil]

theorem blankStream_zlib (n : ℕ) : Zlib (blank.filtered fun _ => .none) (blankStream n) := by
  have hblock : ∀ pos, pos % 8 = 0 →
      Stream pos [] (octets [1, 2, 0, 0xFD, 0xFF, 0, 0]) (blank.filtered fun _ => .none) := by
    intro pos hpos
    refine Stream.last (Block.stored [] [0, 0] (replicate 5 false) (by norm_num) ?_
      (by norm_num))
    rw [length_replicate]
    omega
  refine Zlib.mk 0x78 0x01 (blankBody n) _ [] (by decide) (by decide) (by decide) (by decide) ?_
    (by norm_num) (stream_blank hblock n rfl)
  rw [blankBody, octets_append, append_nil]

def idatPiece (data : List UInt8) (hdata : data.length < 2 ^ 31) : Piece :=
  ⟨typeIdat, data, Nat.le_of_ble_eq_true rfl, .inl rfl, hdata⟩

section Blank

variable {n : ℕ} (hn : n ≤ 800000000)

theorem blank_first_lt (n : ℕ) : ((blankStream n).take 2000000000).length < 2 ^ 31 := by
  rw [length_take]
  omega

include hn in
theorem blank_second_lt : ((blankStream n).drop 2000000000).length < 2 ^ 31 := by
  rw [length_drop, blankStream_length]
  omega

def blankPieces : List Piece :=
  [idatPiece ((blankStream n).take 2000000000) (blank_first_lt n),
    idatPiece ((blankStream n).drop 2000000000) (blank_second_lt hn)]

theorem blankPieces_payload : (blankPieces hn).flatMap Piece.payload = blankStream n := by
  simp only [blankPieces, idatPiece, Piece.payload, if_true, flatMap_cons, flatMap_nil,
    append_nil, take_append_drop]

theorem blankPieces_fit : (fileBytes blank (blankPieces hn)).length < 2 ^ 32 := by
  have hlength := blankStream_length n
  simp only [fileBytes, blankPieces, idatPiece, Piece.bytes, flatMap_cons, flatMap_nil,
    length_append, chunk_length, length_take, length_drop, length_nil, sigPng,
    length_cons, ihdr_length]
  omega

def blankFile : PngFile where
  picture := blank
  filters _ := .none
  pieces := blankPieces hn
  zlib := (blankPieces_payload hn).symm ▸ blankStream_zlib n
  fits := blankPieces_fit hn

theorem blankFile_stream_length : (blankFile hn).stream.length = 5 * n + 13 :=
  (congrArg length (blankPieces_payload hn)).trans (blankStream_length n)

end Blank

/-- The decoder does not return from one pixel behind 500000000 empty blocks. -/
theorem blankFile_never_decoded :
    ∃ hn : 500000000 ≤ 800000000, ∀ junk turns, 32 ≤ turns →
      pxPngDecode (fun _ => true) turns junk (blankFile hn).bytes = .error .running := by
  refine ⟨by norm_num, fun junk turns hturns => ?_⟩
  apply PngFile.decode_runs _ _ junk hturns
  rw [blankFile_stream_length]
  norm_num

end Vnu.Px
