import Vnu.Tls.Digest

/-!
The keyed hash against RFC 2104, and the pseudo-random function against the stream of RFC 5246, of
which it writes as much as it is asked for.
-/
namespace Vnu.Tls

open Fips Lib.Overlay List

namespace Rfc

noncomputable def hmac (key text : List UInt8) : List UInt8 :=
  let short := if key.length > 64 then sha256 key else key
  let k := short ++ replicate (64 - short.length) 0
  sha256 (k.map (· ^^^ 0x5c) ++ sha256 (k.map (· ^^^ 0x36) ++ text))

noncomputable def A (secret seed : List UInt8) : ℕ → List UInt8
  | 0 => seed
  | i + 1 => hmac secret (A secret seed i)

/-- Byte `i` of the stream `P_SHA256(secret, seed)`, where block `j` is made from `A(j + 1)`. -/
noncomputable def pSha256 (secret seed : List UInt8) (i : ℕ) : UInt8 :=
  (hmac secret (A secret seed (i / 32 + 1) ++ seed)).getD (i % 32) 0

end Rfc

open Rfc

theorem sha256Of_eq (chunks : List (List UInt8)) : sha256Of chunks = sha256 chunks.flatten :=
  (absorbed_init blankCtx).digest chunks rfl

theorem tlsHmacSha256_eq (key msg : List UInt8) : tlsHmacSha256 key msg = hmac key msg := by
  simp only [tlsHmacSha256, hmacKey, hmac, sha256Of_eq, flatten_cons, flatten_nil, append_nil]

theorem hmac_length (key text : List UInt8) : (hmac key text).length = 32 := by
  rw [← tlsHmacSha256_eq, tlsHmacSha256]
  exact sha256Of_length _

variable {secret seed : List UInt8}

theorem block_eq (k : ℕ) {n : ℕ} (hn : n ≤ 32) :
    (hmac secret (A secret seed (k + 1) ++ seed)).take n =
      (range n).map fun i => pSha256 secret seed (32 * k + i) := by
  have hbyte : ∀ i < n, pSha256 secret seed (32 * k + i) =
      (hmac secret (A secret seed (k + 1) ++ seed)).getD i 0 := by
    intro i hi
    rw [pSha256, Nat.mul_add_div (by decide), Nat.div_eq_of_lt (by omega), Nat.add_zero,
      Nat.mul_add_mod, Nat.mod_eq_of_lt (by omega)]
  have hlen := hmac_length secret (A secret seed (k + 1) ++ seed)
  generalize hmac secret (A secret seed (k + 1) ++ seed) = block at hbyte hlen
  refine ext_getElem (by rw [length_take, length_map, length_range]; omega) fun i hi _ => ?_
  rw [length_take] at hi
  rw [getElem_take, getElem_map, getElem_range, hbyte i (by omega), getD_eq_getElem]

theorem prfLoop_eq (fuel k left : ℕ) (hfuel : left ≤ fuel) :
    prfLoop secret seed fuel (A secret seed (k + 1)) left =
      (range left).map fun i => pSha256 secret seed (32 * k + i) := by
  induction fuel generalizing k left with
  | zero => rw [Nat.le_zero.mp hfuel]; rfl
  | succ fuel ih =>
    rw [prfLoop]
    split_ifs with hzero
    · rw [hzero]; rfl
    have hrest := ih (k + 1) (left - min left 32) (by omega)
    rw [A, ← tlsHmacSha256_eq] at hrest
    dsimp only
    rw [hrest, tlsHmacSha256_eq, block_eq k (min_le_right _ _)]
    rcases le_total left 32 with hle | hle
    · rw [min_eq_left hle, Nat.sub_self]
      exact append_nil _
    · -- a whole block, and the stream goes on behind it
      rw [min_eq_right hle, ← Nat.add_sub_cancel' hle, range_add, map_append, map_map,
        Nat.add_sub_cancel_left]
      simp only [Function.comp_def, Nat.mul_add, Nat.mul_one, Nat.add_assoc]

/-- The bytes in front of `outLen` are those of the stream, and those behind it stay. -/
theorem tlsPrf_stream (secret : List UInt8) (hseed : seed.length ≤ 128) (outLen : ℕ)
    (out : List UInt8) : (∀ key msg, tlsHmacSha256 key msg = hmac key msg) ∧
      overlay out 0 (tlsPrf secret seed outLen) =
        (range outLen).map (pSha256 secret seed) ++ out.drop outLen := by
  have hprf : tlsPrf secret seed outLen = (range outLen).map (pSha256 secret seed) := by
    have hloop := @prfLoop_eq secret seed outLen 0 outLen le_rfl
    rw [tlsPrf, if_neg (by omega), tlsHmacSha256_eq]
    simpa only [A, Nat.mul_zero, Nat.zero_add] using hloop
  refine ⟨tlsHmacSha256_eq, ?_⟩
  rw [overlay, hprf, take_zero, nil_append, length_map, length_range, Nat.zero_add]

/-- The twelve bytes of a Finished message, in a buffer of sixteen. -/
theorem tlsPrf_stream_sample : overlay (replicate 16 7) 0 (tlsPrf [1] [2] 12) =
    (range 12).map (pSha256 [1] [2]) ++ [7, 7, 7, 7] :=
  (tlsPrf_stream [1] (by decide) 12 (replicate 16 7)).2

end Vnu.Tls
