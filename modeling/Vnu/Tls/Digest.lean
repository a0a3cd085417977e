import Vnu.Tls.Constants

/-!
The context of the source against FIPS 180-4: the words are the hash of the complete blocks, and the
buffer starts with the bytes behind them.
-/
namespace Vnu.Tls

open Fips Lib.Chunks Lib.Overlay List Nat

theorem shifted_bytes (a b c d : UInt8) :
    (a.toUInt32 <<< 24 ||| b.toUInt32 <<< 16 ||| c.toUInt32 <<< 8 ||| d.toUInt32).toBitVec =
      a.toBitVec ++ b.toBitVec ++ c.toBitVec ++ d.toBitVec := by
  have e24 : (UInt32.toBitVec 24 % 32).toNat = 24 := rfl
  have e16 : (UInt32.toBitVec 16 % 32).toNat = 16 := rfl
  have e8 : (UInt32.toBitVec 8 % 32).toNat = 8 := rfl
  apply BitVec.eq_of_getLsbD_eq
  intro j hj
  simp only [UInt32.toBitVec_or, UInt32.toBitVec_shiftLeft, UInt8.toBitVec_toUInt32,
    BitVec.getLsbD_append]
  rcases (by omega : j < 8 ∨ (8 ≤ j ∧ j < 16) ∨ (16 ≤ j ∧ j < 24) ∨ 24 ≤ j) with h | h | h | h
  · simp [h, hj, show j < 16 by omega, show j < 24 by omega]
  · grind
  · grind
  · grind

theorem be32Load_eq (p : List UInt8) (i : ℕ) :
    (be32Load (p.drop (4 * i))).toBitVec = wordAt p i := by
  have hget : ∀ j, (p.drop (4 * i)).getD j 0 = p.getD (4 * i + j) 0 := by
    intro j
    rw [getD_eq_getElem?_getD, getElem?_drop, getD_eq_getElem?_getD]
  rw [be32Load, shifted_bytes, hget, hget, hget, hget]
  rfl

theorem be32Store_eq (v : UInt32) : be32Store v = (range 4).map (byteAt 4 v.toBitVec) := by
  rfl

theorem lengthBytes_eq (n : ℕ) :
    lengthBytes (UInt64.ofNat n) = (range 8).map (byteAt 8 (BitVec.ofNat 64 n)) := by
  apply map_congr_left
  intro i hi
  apply UInt8.toBitVec_inj.mp
  apply BitVec.eq_of_toNat_eq
  simp [byteAt, Nat.mod_eq_of_lt (show 8 * (7 - i) < 64 by omega)]

section

variable {M : ℕ → Word}

theorem W_of_lt {t : ℕ} (h : t < 16) : W M t = M t := by
  rw [W, if_pos h]

theorem W_of_ge {t : ℕ} (h : 16 ≤ t) : W M t =
    smallSigma1 (W M (t - 2)) + W M (t - 7) + smallSigma0 (W M (t - 15)) + W M (t - 16) := by
  rw [W, if_neg (by omega)]

theorem scheduleLoop_eq (n : ℕ) (w : List UInt32) (h16 : 16 ≤ w.length)
    (hw : ∀ i < w.length, (w.getD i 0).toBitVec = W M i) :
    ∀ i < w.length + n, ((scheduleLoop n w).getD i 0).toBitVec = W M i := by
  induction n generalizing w with
  | zero => exact hw
  | succ n ih =>
    intro i hi
    refine ih _ (by simp; omega) ?_ i (by simp; omega)
    intro j hj
    rw [length_append, length_singleton] at hj
    by_cases hlt : j < w.length
    · rw [getD_append _ _ _ _ hlt]
      exact hw j hlt
    have heq : j = w.length := by omega
    subst heq
    rw [getD_append_right _ _ _ _ (le_refl _), Nat.sub_self, W_of_ge h16, ← hw _ (by omega),
      ← hw (w.length - 7) (by omega), ← hw (w.length - 15) (by omega),
      ← hw (w.length - 16) (by omega)]
    simp only [smallSigma0, smallSigma1]
    ac_rfl

end

theorem sha256Schedule_eq (p : List UInt8) {i : ℕ} (hi : i < 64) :
    ((sha256Schedule p).getD i 0).toBitVec = W (wordAt p) i := by
  have hlen : ((range 16).map fun i => be32Load (p.drop (4 * i))).length = 16 := by
    rw [length_map, length_range]
  refine scheduleLoop_eq 48 _ (Nat.le_of_eq hlen.symm) ?_ i (by omega)
  intro j hj
  rw [getD_eq_getElem _ _ hj, getElem_map, getElem_range, be32Load_eq]
  exact (W_of_lt (by omega)).symm

theorem sha256Round_eq (p : List UInt8) (s : Words) {i : ℕ} (hi : i < 64) :
    (sha256Round (sha256Schedule p) s i).state = Fips.round (wordAt p) s.state i := by
  simp only [sha256Round, Words.state, UInt32.toBitVec_add, sha256Schedule_eq p hi, shaK_eq hi]
  rfl

theorem rounds_eq (p : List UInt8) (l : List ℕ) (hl : ∀ i ∈ l, i < 64) (s : Words) :
    (l.foldl (sha256Round (sha256Schedule p)) s).state =
      l.foldl (Fips.round (wordAt p)) s.state := by
  induction l generalizing s with
  | nil => rfl
  | cons i l ih =>
    rw [foldl_cons, foldl_cons, ih (fun j hj => hl j (mem_cons_of_mem _ hj)),
      sha256Round_eq p s (hl i mem_cons_self)]

theorem sha256Block_eq (h : Words) (p : List UInt8) :
    (sha256Block h p).state = compress h.state p := by
  rw [compress, ← rounds_eq p _ (fun i hi => mem_range.mp hi)]
  simp only [sha256Block, Words.add, Words.state, State.add, UInt32.toBitVec_add, BitVec.add_comm]

structure Absorbed (ctx : Sha256Ctx) (data : List UInt8) : Prop where
  words : ctx.h.state = (blocks 64 data).foldl compress initial
  buffer : ctx.buf.take ctx.buflen = rest 64 data

section

variable {ctx : Sha256Ctx} {data m : List UInt8}

theorem Absorbed.buflen_eq (h : Absorbed ctx data) : ctx.buflen = data.length % 64 := by
  have hlen := congrArg length h.buffer
  rw [length_take, ctx.size, rest_length] at hlen
  omega

theorem absorbed_init (ctx : Sha256Ctx) : Absorbed (tlsSha256Init ctx) [] := ⟨init_state ctx, rfl⟩

/-- A round fills the buffer or takes all that is left. -/
theorem Absorbed.round (h : Absorbed ctx data) :
    Absorbed (updateRound ctx m) (data ++ m.take (ctx.take m)) := by
  have hroom := ctx.room
  have htake : (m.take (ctx.take m)).length = ctx.take m := by
    rw [length_take, Sha256Ctx.take]
    omega
  have hle : ctx.buflen + ctx.take m ≤ 64 := by
    rw [Sha256Ctx.take]
    omega
  have hbuf : (overlay ctx.buf ctx.buflen (m.take (ctx.take m))).take (ctx.buflen + ctx.take m) =
      rest 64 data ++ m.take (ctx.take m) := by
    rw [overlay, ← append_assoc, h.buffer]
    apply take_left'
    rw [length_append, htake, rest_length, h.buflen_eq]
  have hlen : (rest 64 data ++ m.take (ctx.take m)).length = ctx.buflen + ctx.take m := by
    rw [length_append, htake, rest_length, h.buflen_eq]
  obtain ⟨hblocks, hrest⟩ := blocks_append (show 0 < 64 by decide) data (m.take (ctx.take m))
  unfold updateRound
  by_cases hfull : ctx.buflen + ctx.take m = 64
  · -- the buffer is full: it is the next block
    have hblock : overlay ctx.buf ctx.buflen (m.take (ctx.take m)) =
        rest 64 data ++ m.take (ctx.take m) := by
      rw [take_of_length_le (by rw [ctx.take_le m, hfull])] at hbuf
      exact hbuf
    have hone := @blocks_cons _ _ _ [] (hlen.trans hfull) (by decide)
    have hnone := @rest_cons _ _ _ [] (hlen.trans hfull) (by decide)
    rw [append_nil] at hone hnone
    simp only [hfull, dif_pos]
    refine ⟨?_, ?_⟩
    · rw [sha256Block_eq, h.words, hblock, hblocks, hone, foldl_append]
      rfl
    · rw [hrest, hnone]
      rfl
  · have hlt : (rest 64 data ++ m.take (ctx.take m)).length < 64 := by omega
    simp only [hfull]
    refine ⟨?_, ?_⟩
    · rw [hblocks, blocks_of_lt hlt, append_nil]
      exact h.words
    · rw [hrest, rest_of_lt hlt]
      exact hbuf

theorem Absorbed.loop (fuel : ℕ) (h : Absorbed ctx data) (hfuel : m.length ≤ fuel) :
    Absorbed (updateLoop fuel ctx m) (data ++ m) := by
  induction fuel generalizing ctx data m with
  | zero =>
    rw [length_eq_zero_iff.mp (Nat.le_zero.mp hfuel), append_nil]
    exact h
  | succ fuel ih =>
    rw [updateLoop]
    by_cases hnil : m.length = 0
    · rw [length_eq_zero_iff.mp hnil, append_nil]
      exact h
    have hpos : 0 < ctx.take m := by
      have := ctx.room
      rw [Sha256Ctx.take]
      omega
    have hnext := ih (m := m.drop (ctx.take m)) (h.round (m := m)) (by
      rw [length_drop]
      omega)
    rw [append_assoc, take_append_drop] at hnext
    rw [if_neg hnil]
    exact hnext

theorem updateLoop_bits (fuel : ℕ) (ctx : Sha256Ctx) (m : List UInt8) :
    (updateLoop fuel ctx m).bits = ctx.bits := by
  induction fuel generalizing ctx m with
  | zero => rfl
  | succ fuel ih =>
    rw [updateLoop]
    split
    · rfl
    · rw [ih, updateRound]
      split <;> rfl

theorem Absorbed.update (h : Absorbed ctx data) (m : List UInt8) :
    Absorbed (tlsSha256Update ctx m) (data ++ m) := by
  have hcount : Absorbed { ctx with bits := ctx.bits + UInt64.ofNat m.length * 8 } data :=
    ⟨h.words, h.buffer⟩
  exact hcount.loop m.length (le_refl _)

theorem update_bits (hbits : ctx.bits = UInt64.ofNat (8 * data.length)) (m : List UInt8) :
    (tlsSha256Update ctx m).bits = UInt64.ofNat (8 * (data ++ m).length) := by
  rw [tlsSha256Update, updateLoop_bits, hbits, length_append, mul_add, UInt64.ofNat_add,
    UInt64.ofNat_mul, UInt64.ofNat_mul, UInt64.mul_comm (UInt64.ofNat m.length)]
  rfl

theorem zeroCount_eq {n : ℕ} (hn : n < 64) : zeroCount n = (119 - n) % 64 := by
  have hall : ∀ n < 64, zeroCount n = (119 - n) % 64 := by decide
  exact hall n hn

theorem Absorbed.final (h : Absorbed ctx data)
    (hbits : ctx.bits = UInt64.ofNat (8 * data.length)) : tlsSha256Final ctx = sha256 data := by
  have hlen := h.buflen_eq
  have hpad : data ++ (0x80 :: replicate 63 0).take (zeroCount ctx.buflen + 1) ++
      lengthBytes ctx.bits = pad data := by
    rw [zeroCount_eq ctx.room, hlen, hbits, lengthBytes_eq, pad, take_succ_cons,
      take_replicate, min_eq_left (by omega)]
    simp
  have hwords := ((h.update ((0x80 :: replicate 63 0).take (zeroCount ctx.buflen + 1))).update
    (lengthBytes ctx.bits)).words
  rw [hpad] at hwords
  rw [sha256, ← hwords, tlsSha256Final, State.bytes]
  simp only [Words.state, flatMap_cons, flatMap_nil, be32Store_eq]

theorem Absorbed.digest (chunks : List (List UInt8)) (h : Absorbed ctx data)
    (hbits : ctx.bits = UInt64.ofNat (8 * data.length)) :
    tlsSha256Final (chunks.foldl tlsSha256Update ctx) = sha256 (data ++ chunks.flatten) := by
  induction chunks generalizing ctx data with
  | nil =>
    rw [flatten_nil, append_nil]
    exact h.final hbits
  | cons m chunks ih =>
    rw [flatten_cons, ← append_assoc]
    exact ih (h.update m) (update_bits hbits m)

end

/-- However the message is split over calls, the digest is its SHA-256. -/
theorem tlsSha256_chunks (ctx : Sha256Ctx) (chunks : List (List UInt8)) :
    tlsSha256Final (chunks.foldl tlsSha256Update (tlsSha256Init ctx)) = sha256 chunks.flatten :=
  (absorbed_init ctx).digest chunks rfl

end Vnu.Tls
