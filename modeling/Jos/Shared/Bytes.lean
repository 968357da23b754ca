import Mathlib

namespace Jos.Shared

section Words

def byteAt (words : Nat → BitVec 32) (i : Nat) : BitVec 8 := (words (i / 4)).extractLsb' (8 * (i % 4)) 8

def wordsOf (bytes : Nat → BitVec 8) (k : Nat) : BitVec 32 :=
  bytes (4 * k + 3) ++ bytes (4 * k + 2) ++ bytes (4 * k + 1) ++ bytes (4 * k)

theorem getLsbD_wordsOf (bytes : Nat → BitVec 8) (k : Nat) {j : Nat} (inside : j < 32) :
    (wordsOf bytes k).getLsbD j = (bytes (4 * k + j / 8)).getLsbD (j % 8) := by
  have pieces : j / 8 = 0 ∨ j / 8 = 1 ∨ j / 8 = 2 ∨ j / 8 = 3 := by omega
  change (bytes (4 * k + 3) ++ bytes (4 * k + 2) ++ bytes (4 * k + 1) ++ bytes (4 * k)).getLsbD j = _
  rw [BitVec.getLsbD_append, BitVec.getLsbD_append, BitVec.getLsbD_append]
  rcases pieces with piece | piece | piece | piece <;> rw [piece]
  · rw [if_pos (by omega), show j % 8 = j by omega, Nat.add_zero]
  · rw [if_neg (by omega), if_pos (by omega), show j - 8 = j % 8 by omega]
  · rw [if_neg (by omega), if_neg (by omega), if_pos (by omega), show j - 8 - 8 = j % 8 by omega]
  · rw [if_neg (by omega), if_neg (by omega), if_neg (by omega), show j - 8 - 8 - 8 = j % 8 by omega]

theorem byteAt_wordsOf (bytes : Nat → BitVec 8) (i : Nat) : byteAt (wordsOf bytes) i = bytes i := by
  apply BitVec.eq_of_getLsbD_eq
  intro j inside
  have small : i % 4 < 4 := Nat.mod_lt i (by decide)
  rw [byteAt, BitVec.getLsbD_extractLsb', getLsbD_wordsOf bytes _ (by omega),
    show 4 * (i / 4) + (8 * (i % 4) + j) / 8 = i by omega, show (8 * (i % 4) + j) % 8 = j by omega]
  simp [inside]

theorem wordsOf_byteAt (words : Nat → BitVec 32) : wordsOf (byteAt words) = words := by
  funext k
  apply BitVec.eq_of_getLsbD_eq
  intro j inside
  rw [getLsbD_wordsOf _ k inside, byteAt, BitVec.getLsbD_extractLsb',
    show (4 * k + j / 8) / 4 = k by omega, show 8 * ((4 * k + j / 8) % 4) + j % 8 = j by omega]
  simp [show j % 8 < 8 by omega]

theorem wordsOf_congr {bytes bytes' : Nat → BitVec 8} {k : Nat}
    (same : ∀ i, 4 * k ≤ i → i < 4 * k + 4 → bytes' i = bytes i) :
    wordsOf bytes' k = wordsOf bytes k := by
  unfold wordsOf
  rw [same _ (by omega) (by omega), same _ (by omega) (by omega), same _ (by omega) (by omega),
    same _ (by omega) (by omega)]

end Words

section Overwrite

variable {α : Type} [Inhabited α] {f : Nat → α} {o i : Nat} {xs ys : List α}

def overwrite (f : Nat → α) (o : Nat) (xs : List α) (i : Nat) : α :=
  if o ≤ i ∧ i < o + xs.length then xs.getD (i - o) default else f i

theorem overwrite_outside (outside : i < o ∨ o + xs.length ≤ i) : overwrite f o xs i = f i :=
  if_neg (by omega)

theorem overwrite_nil : overwrite f o [] = f := by
  funext i
  exact overwrite_outside (by simp; omega)

theorem overwrite_append :
    overwrite f o (xs ++ ys) = overwrite (overwrite f o xs) (o + xs.length) ys := by
  funext i
  unfold overwrite
  rw [List.length_append]
  by_cases first : i < o + xs.length
  · rw [if_neg (show ¬(o + xs.length ≤ i ∧ i < o + xs.length + ys.length) by omega)]
    by_cases start : o ≤ i
    · rw [if_pos (by omega), if_pos ⟨start, first⟩, List.getD_append _ _ _ _ (by omega)]
    · rw [if_neg (by omega), if_neg (by omega)]
  · by_cases last : i < o + (xs.length + ys.length)
    · rw [if_pos (by omega), if_pos (by omega), List.getD_append_right _ _ _ _ (by omega), Nat.sub_sub]
    · rw [if_neg (by omega), if_neg (by omega), if_neg (by omega)]

end Overwrite

end Jos.Shared
