import Vnu.Px.Decoding
import Vnu.Px.Picture

/-!
The PNG files of pictures, and how the decoder collects their stream. Above `2 ^ 31` bytes no power
of two below `2 ^ 32` is large enough for the buffer, and the loop that looks for one does not end.
-/
namespace Vnu.Px

open Rfc1951 List Nat

variable {v i need len : ℕ}

def be32 (v : ℕ) : List UInt8 :=
  [UInt8.ofNat (v / 2 ^ 24), UInt8.ofNat (v / 2 ^ 16), UInt8.ofNat (v / 2 ^ 8), UInt8.ofNat v]

def crcBit (c : ℕ) : ℕ := if c % 2 = 1 then 0xEDB88320 ^^^ (c / 2) else c / 2

def crc32 (data : List UInt8) : ℕ :=
  data.foldl (fun c b => crcBit^[8] (c ^^^ b.toNat)) 0xFFFFFFFF ^^^ 0xFFFFFFFF

def adler32 (data : List UInt8) : ℕ :=
  let sums := data.foldl (fun s b => ((s.1 + b.toNat) % 65521, (s.2 + s.1 + b.toNat) % 65521))
    (1, 0)
  sums.2 * 2 ^ 16 + sums.1

example : crc32 [73, 69, 78, 68] = 0xAE426082 := by decide +kernel

example : adler32 [97, 98, 99] = 0x024D0127 := by decide +kernel

def chunk (type : ℕ) (data : List UInt8) : List UInt8 :=
  be32 data.length ++ (be32 type ++ (data ++ be32 (crc32 (be32 type ++ data))))

inductive Zlib (data : List UInt8) : List UInt8 → Prop where
  | mk (cmf flg : UInt8) (body : List UInt8) (bits pad : List Bool) (hmethod : cmf.toNat % 16 = 8)
      (hwindow : cmf.toNat / 16 ≤ 7) (hcheck : (cmf.toNat * 2 ^ 8 + flg.toNat) % 31 = 0)
      (hdict : flg &&& 0x20 = 0) (hbody : octets body = bits ++ pad) (hpad : pad.length < 8)
      (hstream : Stream 0 [] bits data) :
      Zlib data (cmf :: flg :: (body ++ be32 (adler32 data)))

/-- A chunk between the first and the last: a part of the stream, or an ancillary chunk other than
tRNS. -/
structure Piece where
  type : ℕ
  data : List UInt8
  type_lt : type < 2 ^ 32
  kind : type = typeIdat ∨ type.testBit 29 = true ∧ type ≠ typeTrns
  data_lt : data.length < 2 ^ 31

variable {c : Piece}

namespace Piece

def bytes (c : Piece) : List UInt8 := chunk c.type c.data

def payload (c : Piece) : List UInt8 := if c.type = typeIdat then c.data else []

end Piece

def ihdr (p : Picture) : List UInt8 :=
  be32 p.width ++ (be32 p.height ++ [8, UInt8.ofNat p.color.code, 0, 0, 0])

def fileBytes (p : Picture) (pieces : List Piece) : List UInt8 :=
  sigPng ++ (chunk typeIhdr (ihdr p) ++ (pieces.flatMap Piece.bytes ++ chunk typeIend []))

structure PngFile where
  picture : Picture
  filters : ℕ → Filter
  pieces : List Piece
  zlib : Zlib (picture.filtered filters) (pieces.flatMap Piece.payload)
  fits : (fileBytes picture pieces).length < 2 ^ 32

namespace PngFile

variable (f : PngFile)

def bytes : List UInt8 := fileBytes f.picture f.pieces

def stream : List UInt8 := f.pieces.flatMap Piece.payload

end PngFile

theorem be32_length (v : ℕ) : (be32 v).length = 4 := rfl

theorem chunk_length (type : ℕ) (data : List UInt8) : (chunk type data).length =
    12 + data.length := by
  simp only [chunk, length_append, be32_length]
  omega

theorem byteAt_append (pre post : List UInt8) (k : ℕ) :
    byteAt (pre ++ post) (pre.length + k) = byteAt post k := by
  unfold byteAt
  rw [getElem?_append_right (by omega), Nat.add_sub_cancel_left]

theorem join_be32 (hv : v < 2 ^ 32) :
    (UInt8.ofNat (v / 2 ^ 24)).toNat * 2 ^ 24 + (UInt8.ofNat (v / 2 ^ 16)).toNat * 2 ^ 16 +
      (UInt8.ofNat (v / 2 ^ 8)).toNat * 2 ^ 8 + (UInt8.ofNat v).toNat = v := by
  simp only [UInt8.toNat_ofNat']
  omega

theorem rd32be_eq {d pre post : List UInt8} (hd : d = pre ++ (be32 v ++ post))
    (hi : i = pre.length) (hv : v < 2 ^ 32) : rd32be d i = .ok v := by
  subst hd hi
  have hfirst := byteAt_append pre (be32 v ++ post) 0
  rw [add_zero] at hfirst
  simp only [rd32be, hfirst, byteAt_append]
  exact congrArg Except.ok (join_be32 hv)

theorem readBytes_eq {d pre data post : List UInt8} (hd : d = pre ++ (data ++ post))
    (hi : i = pre.length) : readBytes d i data.length = .ok data := by
  subst hd hi
  rw [readBytes, if_pos (by simp only [length_append]; omega), drop_left, take_left]

section Loop

variable {mem : ℕ → Bool} {turns ct : ℕ} {d pre post data : List UInt8} {type : ℕ}

theorem chunk_fields (hd : d = pre ++ (chunk type data ++ post)) (hdata : data.length < 2 ^ 32)
    (htype : type < 2 ^ 32) :
    rd32be d pre.length = .ok data.length ∧ rd32be d (pre.length + 4) = .ok type ∧
      readBytes d (pre.length + 8) data.length = .ok data := by
  have hlen : d = pre ++ (be32 data.length ++ (be32 type ++ (data ++
      (be32 (crc32 (be32 type ++ data)) ++ post)))) := by
    simpa [chunk] using hd
  have htail : d = (pre ++ be32 data.length) ++ (be32 type ++ (data ++
      (be32 (crc32 (be32 type ++ data)) ++ post))) := by
    simpa using hlen
  have hbody : d = (pre ++ be32 data.length ++ be32 type) ++ (data ++
      (be32 (crc32 (be32 type ++ data)) ++ post)) := by
    simpa using hlen
  refine ⟨rd32be_eq hlen rfl hdata, rd32be_eq htail ?_ htype, readBytes_eq hbody ?_⟩
  · rw [length_append, be32_length]
  · rw [length_append, length_append, be32_length, be32_length]

theorem chunkLoop_step (hd : d = pre ++ (chunk type data ++ post)) (hsmall : d.length < 2 ^ 32)
    (htype : type < 2 ^ 32) (hend : type ≠ typeIend) (hpost : post ≠ []) (t : ℕ) (s : PngAux) :
    chunkLoop mem turns d ct (t + 1) pre.length s = (do
      let s ← takeChunk mem turns (readBytes d (pre.length + 8)) data.length ct type s
      chunkLoop mem turns d ct t (pre ++ chunk type data).length s) := by
  have hlength : d.length = pre.length + 12 + data.length + post.length := by
    rw [hd, length_append, length_append, chunk_length]
    omega
  have hrest : 0 < post.length := length_pos_of_ne_nil hpost
  obtain ⟨hlen, htypeAt, -⟩ := chunk_fields hd (by omega) htype
  have hnext : pre.length + 12 + data.length = (pre ++ chunk type data).length := by
    rw [length_append, chunk_length, add_assoc]
  simp only [chunkLoop]
  rw [wrap32_eq (by omega), if_neg (by omega), hlen]
  simp only [bind, Except.bind]
  rw [wrap32_eq (by omega), if_neg (by omega), htypeAt]
  simp only
  rw [if_neg hend]
  cases takeChunk mem turns (readBytes d (pre.length + 8)) data.length ct type s with
  | error e => rfl
  | ok s' =>
    simp only
    rw [if_neg (by omega), hnext]

theorem chunkLoop_end (hd : d = pre ++ chunk typeIend []) (hsmall : d.length < 2 ^ 32) (t : ℕ)
    (s : PngAux) : chunkLoop mem turns d ct (t + 1) pre.length s = .ok s := by
  have hlength : d.length = pre.length + 12 := by
    rw [hd, length_append]
    rfl
  have hd' : d = pre ++ (chunk typeIend [] ++ []) := by rw [hd, append_nil]
  obtain ⟨hlen, htypeAt, -⟩ := chunk_fields hd' (by norm_num) (by decide)
  simp only [chunkLoop]
  rw [wrap32_eq (by omega), if_neg (by omega), hlen]
  simp only [bind, Except.bind, length_nil]
  rw [wrap32_eq (by omega), if_neg (by omega), htypeAt]
  exact if_pos rfl

end Loop

theorem wrap32_double {k : ℕ} (hk : k < 31) : wrap32 (2 ^ k * 2) = 2 ^ (k + 1) := by
  rw [← pow_succ]
  exact wrap32_eq (Nat.pow_lt_pow_right (by norm_num) (by omega))

theorem growCap_ends (hneed : need ≤ 2 ^ 31) (t k : ℕ) (hk : k ≤ 31) (ht : 32 ≤ k + t) :
    ∃ j, j ≤ 31 ∧ need ≤ 2 ^ j ∧ growCap need t (2 ^ k) = .ok (2 ^ j) := by
  induction t generalizing k with
  | zero => omega
  | succ t ih =>
    simp only [growCap]
    by_cases hsmall : 2 ^ k < need
    · have hlt : k < 31 := by
        by_contra hge
        have hlast : k = 31 := by omega
        subst hlast
        omega
      rw [if_pos hsmall, wrap32_double hlt]
      exact ih (k + 1) (by omega) (by omega)
    · rw [if_neg hsmall]
      exact ⟨k, hk, not_lt.mp hsmall, rfl⟩

theorem growCap_zero (hneed : 0 < need) (t : ℕ) : growCap need t 0 = .error .running := by
  induction t with
  | zero => rfl
  | succ t ih =>
    simp only [growCap]
    rw [if_pos hneed]
    exact ih

theorem growCap_runs (hneed : 2 ^ 31 < need) (t k : ℕ) (hk : k ≤ 31) :
    growCap need t (2 ^ k) = .error .running := by
  induction t generalizing k with
  | zero => rfl
  | succ t ih =>
    have hle : 2 ^ k ≤ 2 ^ 31 := Nat.pow_le_pow_right (by norm_num) hk
    simp only [growCap]
    rw [if_pos (by omega)]
    by_cases hlast : k = 31
    · subst hlast
      exact growCap_zero (by omega) t
    · rw [wrap32_double (by omega)]
      exact ih (k + 1) (by omega)

structure Collected (s : PngAux) (stream : List UInt8) : Prop where
  idat : s.idat = stream
  cap : s.idatCap = 0 ∨ ∃ k, k ≤ 31 ∧ s.idatCap = 2 ^ k
  room : stream.length ≤ s.idatCap
  got : stream ≠ [] → s.gotIdat = true

section Collect

variable {turns ct : ℕ} {s : PngAux} {stream data : List UInt8}
  {read : ℕ → Except Stop (List UInt8)}

theorem reserve_ends (hturns : 32 ≤ turns) (h : Collected s stream)
    (hneed : stream.length + len ≤ 2 ^ 31) :
    ∃ cap, (cap = 0 ∨ ∃ k, k ≤ 31 ∧ cap = 2 ^ k) ∧ stream.length + len ≤ cap ∧
      reserve (fun _ => true) turns len s = .ok { s with idatCap := cap } := by
  have hlength : s.idat.length = stream.length := congrArg length h.idat
  unfold reserve
  rw [hlength, wrap32_eq (by omega)]
  by_cases hfull : s.idatCap < stream.length + len
  · rw [if_pos hfull]
    obtain ⟨k, hk, hstart⟩ : ∃ k, k ≤ 31 ∧
        (if s.idatCap = 0 then 1024 else wrap32 (s.idatCap * 2)) = 2 ^ k := by
      rcases h.cap with hzero | ⟨k, hk, hcap⟩
      · exact ⟨10, by norm_num, if_pos hzero⟩
      · have hlt : k < 31 := (Nat.pow_lt_pow_iff_right (by norm_num : 1 < 2)).mp (by omega)
        refine ⟨k + 1, hlt, ?_⟩
        rw [hcap, if_neg (by positivity), wrap32_double hlt]
    obtain ⟨j, hj, hlarge, hgrow⟩ := growCap_ends hneed turns k hk (by omega)
    refine ⟨2 ^ j, .inr ⟨j, hj, rfl⟩, hlarge, ?_⟩
    rw [hstart, hgrow]
    rfl
  · rw [if_neg hfull]
    exact ⟨s.idatCap, h.cap, not_lt.mp hfull, rfl⟩

theorem reserve_runs (turns : ℕ) (h : Collected s stream)
    (hover : 2 ^ 31 < stream.length + len) (hlt : stream.length + len < 2 ^ 32) :
    reserve (fun _ => true) turns len s = .error .running := by
  have hcap : s.idatCap ≤ 2 ^ 31 := by
    rcases h.cap with hzero | ⟨k, hk, hcap⟩
    · omega
    · rw [hcap]
      exact Nat.pow_le_pow_right (by norm_num) hk
  have hgrow : growCap (stream.length + len) turns
      (if s.idatCap = 0 then 1024 else wrap32 (s.idatCap * 2)) = .error .running := by
    rcases h.cap with hzero | ⟨k, hk, hcap⟩
    · rw [if_pos hzero]
      exact growCap_runs hover turns 10 (by norm_num)
    rw [hcap, if_neg (by positivity)]
    by_cases hlast : k = 31
    · subst hlast
      exact growCap_zero (by omega) turns
    · rw [wrap32_double (by omega)]
      exact growCap_runs hover turns (k + 1) (by omega)
  unfold reserve
  rw [h.idat, wrap32_eq hlt, if_pos (by omega), hgrow]
  rfl

theorem takeIdat_ends (hturns : 32 ≤ turns) (h : Collected s stream)
    (hneed : (stream ++ data).length ≤ 2 ^ 31) (hread : read data.length = .ok data) :
    ∃ s', takeIdat (fun _ => true) turns read data.length s = .ok s' ∧
      Collected s' (stream ++ data) := by
  rw [length_append] at hneed
  obtain ⟨cap, hcap, hroom, hreserve⟩ := reserve_ends hturns h hneed
  refine ⟨{ s with idatCap := cap, idat := s.idat ++ data, gotIdat := true }, ?_, ?_⟩
  · unfold takeIdat
    rw [hreserve]
    simp only [bind, Except.bind, hread]
    exact if_pos (by rw [h.idat]; exact hroom)
  · exact ⟨by rw [h.idat], hcap, by rwa [length_append], fun _ => rfl⟩

theorem takeIdat_runs (turns : ℕ) (h : Collected s stream)
    (hover : 2 ^ 31 < (stream ++ data).length) (hlt : (stream ++ data).length < 2 ^ 32) :
    takeIdat (fun _ => true) turns read data.length s = .error .running := by
  rw [length_append] at hover hlt
  unfold takeIdat
  rw [reserve_runs turns h hover hlt]
  rfl

theorem Piece.payload_idat (htype : c.type = typeIdat) : c.payload = c.data := if_pos htype

theorem Piece.take_other (turns ct : ℕ) (s : PngAux) (htype : c.type ≠ typeIdat) :
    takeChunk (fun _ => true) turns read c.data.length ct c.type s = .ok s ∧ c.payload = [] := by
  have hkind := c.kind.resolve_left htype
  have hplte : c.type ≠ typePlte := by
    intro heq
    have hbit := hkind.1
    rw [heq] at hbit
    exact absurd hbit (by decide)
  refine ⟨?_, if_neg htype⟩
  unfold takeChunk
  rw [if_neg htype, if_neg hplte, if_neg hkind.2]

theorem Piece.type_ne_iend (c : Piece) : c.type ≠ typeIend := by
  intro heq
  rcases c.kind with hidat | ⟨hbit, -⟩
  · exact absurd (heq.symm.trans hidat) (by decide)
  · rw [heq] at hbit
    exact absurd hbit (by decide)

theorem Piece.take_ends (c : Piece) (ct : ℕ) (hturns : 32 ≤ turns) (h : Collected s stream)
    (hneed : (stream ++ c.payload).length ≤ 2 ^ 31) (hread : read c.data.length = .ok c.data) :
    ∃ s', takeChunk (fun _ => true) turns read c.data.length ct c.type s = .ok s' ∧
      Collected s' (stream ++ c.payload) := by
  by_cases htype : c.type = typeIdat
  · rw [payload_idat htype] at hneed ⊢
    obtain ⟨s', htake, hcollected⟩ := takeIdat_ends hturns h hneed hread
    refine ⟨s', ?_, hcollected⟩
    unfold takeChunk
    rw [if_pos htype, htake]
  · obtain ⟨htake, hnone⟩ := take_other turns ct s htype
    rw [hnone, append_nil]
    exact ⟨s, htake, h⟩

theorem Piece.take_runs (c : Piece) (turns : ℕ) (h : Collected s stream)
    (hsofar : stream.length ≤ 2 ^ 31) (hover : 2 ^ 31 < (stream ++ c.payload).length)
    (hlt : (stream ++ c.payload).length < 2 ^ 32) :
    takeChunk (fun _ => true) turns read c.data.length ct c.type s = .error .running := by
  by_cases htype : c.type = typeIdat
  · rw [payload_idat htype] at hover hlt
    unfold takeChunk
    rw [if_pos htype, takeIdat_runs turns h hover hlt]
  · have hnone : c.payload = [] := if_neg htype
    rw [hnone, append_nil] at hover
    omega

variable {d pre : List UInt8} {pieces : List Piece}

theorem chunk_ne_nil {type : ℕ} {data : List UInt8} : chunk type data ≠ [] :=
  ne_nil_of_length_pos (by rw [chunk_length]; omega)

/-- The next chunk, with its data and what is in front of the rest then. -/
theorem chunkLoop_cons (mem : ℕ → Bool) (turns ct : ℕ) (c : Piece)
    (hd : d = pre ++ ((c :: pieces).flatMap Piece.bytes ++ chunk typeIend []))
    (hsmall : d.length < 2 ^ 32) (t : ℕ) (s : PngAux) :
    d = (pre ++ c.bytes) ++ (pieces.flatMap Piece.bytes ++ chunk typeIend []) ∧
      readBytes d (pre.length + 8) c.data.length = .ok c.data ∧
      chunkLoop mem turns d ct (t + 1) pre.length s = (do
        let s ← takeChunk mem turns (readBytes d (pre.length + 8)) c.data.length ct c.type s
        chunkLoop mem turns d ct t (pre ++ c.bytes).length s) := by
  rw [flatMap_cons, append_assoc] at hd
  have hdata : c.data.length < 2 ^ 32 := by
    have hlength := congrArg length hd
    rw [length_append, length_append, Piece.bytes, chunk_length] at hlength
    omega
  refine ⟨by rw [hd, append_assoc], (chunk_fields hd hdata c.type_lt).2.2, ?_⟩
  exact chunkLoop_step hd hsmall c.type_lt c.type_ne_iend
    (append_ne_nil_of_right_ne_nil _ chunk_ne_nil) t s

theorem chunkLoop_ends (hturns : 32 ≤ turns)
    (hd : d = pre ++ (pieces.flatMap Piece.bytes ++ chunk typeIend [])) (hsmall : d.length < 2 ^ 32)
    {t : ℕ} (ht : pieces.length < t) (h : Collected s stream)
    (hneed : (stream ++ pieces.flatMap Piece.payload).length ≤ 2 ^ 31) :
    ∃ s', chunkLoop (fun _ => true) turns d ct t pre.length s = .ok s' ∧
      Collected s' (stream ++ pieces.flatMap Piece.payload) := by
  induction pieces generalizing pre s stream t with
  | nil =>
    obtain ⟨t, rfl⟩ := Nat.exists_eq_add_of_lt ht
    rw [flatMap_nil, append_nil]
    exact ⟨s, chunkLoop_end hd hsmall _ s, h⟩
  | cons c pieces ih =>
    obtain ⟨t, rfl⟩ := Nat.exists_eq_succ_of_ne_zero (show t ≠ 0 by omega)
    obtain ⟨hd', hread, hstep⟩ := chunkLoop_cons (fun _ => true) turns ct c hd hsmall t s
    rw [flatMap_cons, ← append_assoc] at hneed ⊢
    obtain ⟨s', htake, hcollected⟩ := c.take_ends ct hturns h
      (by rw [length_append] at hneed; omega) hread
    rw [hstep, htake]
    exact ih hd' (Nat.lt_of_succ_lt_succ ht) hcollected hneed

/-- One of the chunks of a stream that is too long does not come to an end. -/
theorem chunkLoop_runs (hturns : 32 ≤ turns)
    (hd : d = pre ++ (pieces.flatMap Piece.bytes ++ chunk typeIend [])) (hsmall : d.length < 2 ^ 32)
    (t : ℕ) (h : Collected s stream) (hsofar : stream.length ≤ 2 ^ 31)
    (hover : 2 ^ 31 < (stream ++ pieces.flatMap Piece.payload).length)
    (hlt : (stream ++ pieces.flatMap Piece.payload).length < 2 ^ 32) :
    chunkLoop (fun _ => true) turns d ct t pre.length s = .error .running := by
  induction pieces generalizing pre s stream t with
  | nil =>
    rw [flatMap_nil, append_nil] at hover
    omega
  | cons c pieces ih =>
    cases t with
    | zero => rfl
    | succ t =>
      obtain ⟨hd', hread, hstep⟩ := chunkLoop_cons (fun _ => true) turns ct c hd hsmall t s
      rw [flatMap_cons, ← append_assoc] at hover hlt
      rw [hstep]
      by_cases hhere : 2 ^ 31 < (stream ++ c.payload).length
      · rw [c.take_runs turns h hsofar hhere (by rw [length_append] at hlt; omega)]
        rfl
      · obtain ⟨s', htake, hcollected⟩ := c.take_ends ct hturns h (not_lt.mp hhere) hread
        rw [htake]
        exact ih hd' t hcollected (not_lt.mp hhere) hover hlt

end Collect

end Vnu.Px
