import Mathlib

namespace Jos.Shared

open Function

variable {α : Type}

def RingHolds (buf : Nat → α) (cap r : Nat) (xs : List α) : Prop :=
  ∀ k (inside : k < xs.length), r ≤ k → buf (k % cap) = xs[k]

namespace RingHolds

variable {buf : Nat → α} {cap r r' : Nat} {xs : List α}

theorem drop (holds : RingHolds buf cap r xs) (later : r ≤ r') : RingHolds buf cap r' xs :=
  fun k inside start => holds k inside (Nat.le_trans later start)

theorem mod_ne {k n : Nat} (before : k < n) (near : n < k + cap) : k % cap ≠ n % cap := by
  intro same
  have gap : (n - k) % cap = 0 := Nat.sub_mod_eq_zero_of_mod_eq same.symm
  rw [Nat.mod_eq_of_lt (by omega)] at gap
  omega

theorem push (holds : RingHolds buf cap r xs) (room : xs.length < r + cap) (x : α) :
    RingHolds (update buf (xs.length % cap) x) cap r (xs ++ [x]) := by
  intro k inside start
  rw [List.length_append, List.length_singleton] at inside
  by_cases last : k = xs.length
  · subst last
    simp
  · have old : k < xs.length := by omega
    have other : k % cap ≠ xs.length % cap := mod_ne old (by omega)
    rw [update_of_ne other, List.getElem_append_left old]
    exact holds k old start

end RingHolds

section Segment

variable {cap : Nat} [NeZero cap] {lo hi i : Fin cap}

theorem val_succ {d : Fin cap} (more : d + 1 ≠ 0) : (d + 1).val = d.val + 1 := by
  obtain ⟨n, rfl⟩ := Nat.exists_eq_succ_of_ne_zero (NeZero.ne cap)
  apply Fin.val_add_one_of_lt
  apply Fin.lt_last_iff_ne_last.mpr
  rintro rfl
  exact more (Fin.last_add_one n)

theorem succ_ne_zero {d e : Fin cap} (below : d.val < e.val) : d + 1 ≠ 0 := by
  obtain ⟨n, rfl⟩ := Nat.exists_eq_succ_of_ne_zero (NeZero.ne cap)
  have inside : d < Fin.last n := Fin.lt_last_iff_ne_last.mpr fun last => by
    have bound := e.isLt
    rw [last, Fin.val_last] at below
    omega
  intro zero
  have value := Fin.val_add_one_of_lt inside
  rw [zero] at value
  exact absurd value (by simp)

theorem val_pred {d : Fin cap} (some : d ≠ 0) : (d - 1).val + 1 = d.val := by
  have back : d - 1 + 1 = d := sub_add_cancel d 1
  rw [← val_succ (by rwa [back]), back]

def Between (lo hi i : Fin cap) : Prop := (i - lo).val < (hi - lo).val

instance : Decidable (Between lo hi i) := inferInstanceAs (Decidable (_ < _))

theorem not_between_self : ¬Between lo lo i := by
  simp [Between]

theorem between_push (room : hi + 1 ≠ lo) : Between lo (hi + 1) i ↔ Between lo hi i ∨ i = hi := by
  have more : hi - lo + 1 ≠ 0 := by
    rw [← add_sub_right_comm]
    exact sub_ne_zero.mpr room
  have same : (i - lo).val = (hi - lo).val ↔ i = hi := by
    rw [Fin.val_inj, sub_left_inj]
  rw [Between, add_sub_right_comm, val_succ more, Between, ← same]
  omega

theorem between_pop (some : lo ≠ hi) : Between (lo + 1) hi i ↔ Between lo hi i ∧ i ≠ lo := by
  have far := val_pred (sub_ne_zero.mpr some.symm)
  rw [Between, Between, ← sub_sub, ← sub_sub]
  by_cases first : i = lo
  · -- Behind `lo + 1` its predecessor is the very last place.
    have last : ¬(i - lo - 1).val < (hi - lo - 1).val := fun below => by
      apply succ_ne_zero below
      rw [sub_add_cancel, first, sub_self]
    simp [first] at last ⊢
    exact last
  · have near := val_pred (sub_ne_zero.mpr first)
    simp only [first, ne_eq, not_false_eq_true, and_true]
    omega

theorem ofNat_succ (k : Nat) : Fin.ofNat cap (k + 1) = 1 + Fin.ofNat cap k := by
  apply Fin.ext
  simp [Fin.val_add, Nat.add_comm]

def segment (buf : Fin cap → α) (lo hi : Fin cap) : List α :=
  (List.range (hi - lo).val).map fun k => buf (lo + Fin.ofNat cap k)

@[simp] theorem segment_self (buf : Fin cap → α) (lo : Fin cap) : segment buf lo lo = [] := by
  simp [segment]

theorem segment_pop (buf : Fin cap → α) (some : lo ≠ hi) :
    segment buf lo hi = buf lo :: segment buf (lo + 1) hi := by
  have far := val_pred (sub_ne_zero.mpr some.symm)
  rw [segment, segment, ← sub_sub, ← far, List.range_succ_eq_map, List.map_cons, List.map_map]
  congr 1
  · simp
  · apply List.map_congr_left
    intro k _
    simp only [comp_apply]
    rw [add_assoc, ofNat_succ]

theorem segment_push (buf : Fin cap → α) (room : hi + 1 ≠ lo) (x : α) :
    segment (update buf hi x) lo (hi + 1) = segment buf lo hi ++ [x] := by
  have more : hi - lo + 1 ≠ 0 := by
    rw [← add_sub_right_comm]
    exact sub_ne_zero.mpr room
  rw [segment, segment, add_sub_right_comm, val_succ more, List.range_succ, List.map_append]
  congr 1
  · apply List.map_congr_left
    intro k inside
    have other : lo + Fin.ofNat cap k ≠ hi := by
      intro same
      have value : Fin.ofNat cap k = hi - lo := eq_sub_of_add_eq' same
      have below := List.mem_range.mp inside
      have small : k % cap = k := Nat.mod_eq_of_lt (below.trans (hi - lo).isLt)
      rw [← value, Fin.val_ofNat, small] at below
      exact absurd below (lt_irrefl k)
    rw [update_of_ne other]
  · simp

end Segment

end Jos.Shared
