import Mathlib

namespace Jos.Shared

variable {n : Nat} [NeZero n] {ready : Fin n → Bool} {start : Nat} {i e : Fin n}

def firstFrom (ready : Fin n → Bool) (start : Nat) : Option (Fin n) :=
  ((List.finRange n).map fun j : Fin n => Fin.ofNat n (start + j.val)).find? ready

def distance (start : Nat) (e : Fin n) : Nat := (e.val + (n - start % n)) % n

theorem distance_lt (start : Nat) (e : Fin n) : distance start e < n := Nat.mod_lt _ (Nat.pos_of_neZero n)

theorem ofNat_distance (start : Nat) (e : Fin n) : Fin.ofNat n (start + distance start e) = e := by
  apply Fin.ext
  have below : start % n < n := Nat.mod_lt _ (Nat.pos_of_neZero n)
  have inside := e.isLt
  rw [Fin.val_ofNat, distance, Nat.add_mod_mod, ← Nat.mod_add_mod,
    show start % n + (e.val + (n - start % n)) = e.val +
      n by omega, Nat.add_mod_right, Nat.mod_eq_of_lt inside]

theorem distance_ofNat (start : Nat) {j : Nat} (near : j < n) :
    distance start (Fin.ofNat n (start + j)) = j := by
  have below : start % n < n := Nat.mod_lt _ (Nat.pos_of_neZero n)
  rw [distance, Fin.val_ofNat, Nat.mod_add_mod]
  have whole : start + j + (n - start % n) = j + n * (start / n + 1) := by
    have parts := Nat.div_add_mod start n
    rw [Nat.mul_add, Nat.mul_one]
    omega
  rw [whole, Nat.add_mul_mod_self_left, Nat.mod_eq_of_lt near]

theorem firstFrom_spec : firstFrom ready start = some i ↔
    ready i = true ∧ ∀ e, distance start e < distance start i → ready e = false := by
  rw [firstFrom, List.find?_eq_some_iff_getElem]
  simp only [List.getElem_map, List.getElem_finRange, List.length_map, List.length_finRange, Fin.val_cast,
    Bool.not_eq_true']
  refine and_congr_right fun _ =>
    ⟨?_, fun none => ⟨distance start i, distance_lt start i, ofNat_distance start i, ?_⟩⟩
  · rintro ⟨j, near, rfl, before⟩ e earlier
    rw [distance_ofNat start near] at earlier
    rw [← ofNat_distance start e]
    exact before _ earlier
  · intro j earlier
    exact none _ (by rwa [distance_ofNat start (earlier.trans (distance_lt start i))])

structure Turn (n : Nat) where
  start : Nat
  ready : Fin n → Bool

namespace Turn

end Turn

end Jos.Shared
