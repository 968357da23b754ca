import Mathlib

namespace Jos.Shared

variable {w : Nat}

theorem getLsbD_of_small {v : BitVec w} {k i : Nat} (small : v.toNat < 2 ^ k) (high : k ≤ i) :
    v.getLsbD i = false := by
  rw [BitVec.getLsbD]
  exact Nat.testBit_lt_two_pow (lt_of_lt_of_le small (Nat.pow_le_pow_right (by omega) high))

theorem ushiftRight_of_small {v : BitVec w} {k : Nat} (small : v.toNat < 2 ^ k) : v >>> k = 0#w := by
  apply BitVec.eq_of_toNat_eq
  simp [BitVec.toNat_ushiftRight, Nat.shiftRight_eq_div_pow, Nat.div_eq_of_lt small]

-- A field moved up by `k` bits and a mask of `k` bits have nothing in common.
theorem shiftLeft_and_of_small (v : BitVec w) {mask : BitVec w} {k : Nat} (small : mask.toNat < 2 ^ k) :
    v <<< k &&& mask = 0#w := by
  ext i inside
  by_cases low : i < k
  · simp [low]
  · have clear : mask.getLsbD i = false := getLsbD_of_small small (by omega)
    simp only [BitVec.getLsbD_eq_getElem inside] at clear
    simp [clear]

theorem shiftLeft_ushiftRight_of_small {v : BitVec w} {k : Nat} (small : v.toNat < 2 ^ (w - k))
    (le : k ≤ w) : v <<< k >>> k = v := by
  apply BitVec.eq_of_toNat_eq
  have bound : v.toNat * 2 ^ k < 2 ^ w := by
    calc v.toNat * 2 ^ k < 2 ^ (w - k) * 2 ^ k := Nat.mul_lt_mul_of_pos_right small (Nat.two_pow_pos k)
      _ = 2 ^ w := by rw [← Nat.pow_add, Nat.sub_add_cancel le]
  rw [BitVec.toNat_ushiftRight, BitVec.toNat_shiftLeft, Nat.shiftLeft_eq, Nat.mod_eq_of_lt bound,
    Nat.shiftRight_eq_div_pow, Nat.mul_div_cancel _ (Nat.two_pow_pos k)]

theorem set_clear_and (v set clear mask : BitVec w) :
    (v ||| set) &&& ~~~clear &&& mask = (v &&& (~~~clear &&& mask)) |||
    (set &&& (~~~clear &&& mask)) := by
  rw [BitVec.and_assoc, BitVec.and_or_distrib_right]

theorem toNat_le_of_and_not_eq_zero {v mask : BitVec w} (inside : v &&& ~~~mask = 0#w) :
    v.toNat ≤ mask.toNat := by
  have same : v &&& mask = v := by
    have split : v &&& mask ||| v &&& ~~~mask = v := by
      rw [← BitVec.and_or_distrib_left]
      simp
    simpa [inside] using split
  calc v.toNat = (v &&& mask).toNat := by rw [same]
    _ ≤ mask.toNat := by simpa using Nat.and_le_right

theorem toNat_and_not (v mask : BitVec w) : (v &&& ~~~mask).toNat = v.toNat - (v &&& mask).toNat := by
  have apart : (v &&& mask) &&& (v &&& ~~~mask) = 0#w := by
    rw [BitVec.and_comm v, BitVec.and_assoc, ← BitVec.and_assoc v, BitVec.and_self,
      BitVec.and_comm v, ← BitVec.and_assoc]
    simp
  have whole : (v &&& mask) + (v &&& ~~~mask) = v := by
    rw [BitVec.add_eq_or_of_and_eq_zero _ _ apart, ← BitVec.and_or_distrib_left]
    simp
  have parts := BitVec.toNat_add_of_and_eq_zero apart
  rw [whole] at parts
  omega

theorem getLsbD_one_shiftLeft (r : Nat) {j : Nat} (inside : j < w) :
    (1#w <<< r).getLsbD j = decide (j = r) := by
  have positive : 0 < w := by omega
  rw [BitVec.getLsbD_shiftLeft, BitVec.getLsbD_one]
  by_cases same : j = r
  · simp [same, positive, same ▸ inside]
  · have away : ¬(r ≤ j ∧ j - r = 0) := by omega
    by_cases low : j < r
    · simp [low, same]
    · simp [low, same, show j - r ≠ 0 by omega]

theorem getLsbD_setBit (v : BitVec w) (r : Nat) {j : Nat} (inside : j < w) :
    (v ||| 1#w <<< r).getLsbD j = (v.getLsbD j || decide (j = r)) := by
  rw [BitVec.getLsbD_or, getLsbD_one_shiftLeft r inside]

theorem getLsbD_clearBit (v : BitVec w) (r : Nat) {j : Nat} (inside : j < w) :
    (v &&& ~~~(1#w <<< r)).getLsbD j = (v.getLsbD j && decide (j ≠ r)) := by
  rw [BitVec.getLsbD_and, BitVec.getLsbD_not, getLsbD_one_shiftLeft r inside]
  simp [inside]

end Jos.Shared
