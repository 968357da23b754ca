import Jos.Kern.VgaShapes

namespace Jos.Kern.Vga

def Passed (radius : BitVec 16) (k : Nat) : Prop :=
  ∀ j < k, (Octant.next^[j] (.start radius)).x2 ≤ (Octant.next^[j] (.start radius)).y2

def Octant.Near (radius : BitVec 16) (o : Octant) : Prop :=
  ((radius.toNat : Int) - 1) ^ 2 ≤ o.x2 ^ 2 + o.y2 ^ 2 ∧
    o.x2 ^ 2 + o.y2 ^ 2 ≤ ((radius.toNat : Int) + 1) ^ 2

def roundRadii : List Nat :=
  [1, 2, 3, 4, 5, 6, 7, 8, 9, 10, 12, 13, 14, 15, 17, 19, 20, 22, 24, 25, 27, 29, 30, 32, 34, 37,
    39, 42, 44, 49, 54]

section Large

variable {r : Int} {k : Nat}

theorem decision_succ (r : Int) (k : Nat) : decision r (k + 1 : Nat) (height r (k + 1)) =
    if 0 < decision r k (height r k) then decision r k (height r k) + 4 * (k - height r k) + 18
    else decision r k (height r k) + 4 * k + 10 := by
  rw [height]
  split <;> simp only [decision] <;> push_cast <;> ring

theorem near_iff_decision (x y : Int) : (r - 1) ^ 2 ≤ x ^ 2 + y ^ 2 ↔
    8 * x - 6 * y + 5 ≤ decision r x y := by
  have expand : decision r x y = 2 * (x ^ 2 + y ^ 2) - 2 * (r - 1) ^ 2 + 8 * x - 6 * y + 5 := by
    simp only [decision]
    ring
  omega

theorem decision_le (positive : 1 ≤ r) (above : ∀ j < k, (j : Int) + 4 ≤ height r j) :
    decision r k (height r k) ≤ 4 * k + 6 := by
  induction k with
  | zero => simp only [decision, height]; push_cast; ring_nf; omega
  | succ k ih =>
    have before := ih fun j lt => above j (by omega)
    have high := above k (by omega)
    rw [decision_succ]
    split <;> push_cast <;> omega

theorem height_ge (r : Int) (k : Nat) : r - k ≤ height r k := by
  induction k with
  | zero => simp [height]
  | succ k ih =>
    have step := height_succ_ge r k
    push_cast
    omega

theorem diagonal (j : Nat) (positive : ∀ i < j, 0 < decision r (k + i : Nat) (height r (k + i))) :
    height r (k + j) = height r k - j ∧ decision r (k + j : Nat) (height r (k + j)) =
      decision r k (height r k) + 4 * j * (k - height r k) + 4 * j * j + 14 * j := by
  induction j with
  | zero => simp
  | succ j ih =>
    obtain ⟨low, value⟩ := ih fun i lt => positive i (by omega)
    have here := positive j (by omega)
    rw [← Nat.add_assoc, decision_succ, if_pos here, value]
    rw [height, if_pos here, low]
    push_cast
    constructor <;> ring

-- The first point past three quarters of its height is followed by seven more on the diagonal, and
-- the last of them is too far inside.
theorem far_point (large : 116 ≤ r) :
    ∃ k : Nat, (∀ j < k, (j : Int) ≤ height r j) ∧ (k : Int) ^ 2 + height r k ^ 2 < (r - 1) ^ 2 := by
  by_contra none
  push Not at none
  have inside : ∀ k : Nat, (∀ j < k, (j : Int) ≤ height r j) →
    8 * (k : Int) - 6 * height r k + 5 ≤ decision r k (height r k) :=
    fun k passed => (near_iff_decision _ _).1 (none k passed)
  have some : ∃ k : Nat, 3 * height r k ≤ 4 * k := ⟨r.toNat, by have := height_le r r.toNat; omega⟩
  classical
  obtain ⟨k, past, first⟩ : ∃ k : Nat, 3 * height r k ≤ 4 * k ∧ ∀ j < k, 4 * (j : Int) < 3 * height r j :=
    ⟨Nat.find some, Nat.find_spec some, fun j lt => not_le.1 (Nat.find_min some lt)⟩
  have start : k ≠ 0 := by
    rintro rfl
    simp only [height] at past
    omega
  obtain ⟨before, rfl⟩ : ∃ n, k = n + 1 := ⟨k - 1, by omega⟩
  have last := first before (by omega)
  have step := height_succ_ge r before
  have low := height_ge r before
  have bound := @decision_le r (before + 1) (by omega) fun j lt => by
    have early := first j lt
    have far := height_ge r j
    omega
  have run : ∀ j ≤ 7, (∀ i < before + 1 + j, (i : Int) ≤ height r i) ∧
      ∀ i < j, 0 < decision r (before + 1 + i : Nat) (height r (before + 1 + i)) := by
    intro j
    induction j with
    | zero =>
      intro _
      refine ⟨fun i lt => ?_, by simp⟩
      have early := first i (by omega)
      omega
    | succ j ih =>
      intro le
      obtain ⟨reached, positive⟩ := ih (by omega)
      have low := (diagonal j positive).1
      have near := inside _ reached
      rw [low] at near
      refine ⟨fun i lt => ?_, fun i lt => ?_⟩
      · by_cases new : i = before + 1 + j
        · rw [new, low]
          push_cast
          omega
        · exact reached i (by omega)
      · by_cases new : i = j
        · rw [new, low]
          push_cast at near past ⊢
          omega
        · exact positive i (by omega)
  obtain ⟨reached, positive⟩ := run 7 le_rfl
  obtain ⟨low, value⟩ := diagonal 7 positive
  have near := inside _ reached
  rw [value, low] at near
  push_cast at near past bound
  omega

end Large

instance (radius : BitVec 16) (o : Octant) : Decidable (o.Near radius) :=
  inferInstanceAs (Decidable (_ ∧ _))

def allNear (radius : BitVec 16) : Nat → Octant → Option Bool
  | 0, _ => none
  | fuel + 1, o =>
    if o.Near radius then if o.x2 ≤ o.y2 then allNear radius fuel o.next else some true
      else some false

theorem allNear_spec {radius : BitVec 16} {fuel : Nat} {o : Octant} {b : Bool}
    (told : allNear radius fuel o = some b) :
    (∀ k, (∀ j < k, (Octant.next^[j] o).x2 ≤ (Octant.next^[j] o).y2) →
    (Octant.next^[k] o).Near radius) ↔ b = true := by
  induction fuel generalizing o with
  | zero => cases told
  | succ fuel ih =>
    unfold allNear at told
    split at told
    next near =>
      split at told
      next below =>
        rw [← ih told]
        constructor
        · intro all k passed
          refine all (k + 1) fun j lt => ?_
          cases j with
          | zero => exact below
          | succ j => exact passed j (by omega)
        · intro all k passed
          cases k with
          | zero => exact near
          | succ k => exact all k fun j lt => passed (j + 1) (by omega)
      next past =>
        cases told
        refine iff_of_true (fun k passed => ?_) rfl
        cases k with
        | zero => exact near
        | succ k => exact absurd (passed 0 (by omega)) past
    next far =>
      cases told
      exact iff_of_false (fun all => far (all 0 (by simp))) (by simp)

theorem allNear_small : ∀ r < 116, 1 ≤ r →
    allNear (BitVec.ofNat 16 r) 100 (.start (BitVec.ofNat 16 r)) = some (decide (r ∈ roundRadii)) := by
  decide +kernel

theorem last_round (radius : BitVec 16) : ∃ last, Passed radius last ∧
    (Octant.next^[last] (.start radius)).y2 < (Octant.next^[last] (.start radius)).x2 := by
  classical
  have some : ∃ k, (Octant.next^[k] (.start radius)).y2 < (Octant.next^[k] (.start radius)).x2 := by
    refine ⟨radius.toNat + 1, ?_⟩
    have top := height_le radius.toNat (radius.toNat + 1)
    rw [octant_eq]
    push_cast
    omega
  exact ⟨Nat.find some, fun j lt => not_lt.1 (Nat.find_min some lt), Nat.find_spec some⟩

theorem circle_near_iff (radius : BitVec 16) (positive : 1 ≤ radius.toNat) :
    ((∀ k, Passed radius k → (Octant.next^[k] (.start radius)).Near radius) ∧
      ∃ last, Passed radius last ∧
      (Octant.next^[last] (.start radius)).y2 < (Octant.next^[last] (.start radius)).x2 ∧
        ∀ k ≤ last, (Octant.next^[k] (.start radius)).x2 = k) ↔
      radius.toNat ∈ roundRadii := by
  obtain ⟨last, passed, past⟩ := last_round radius
  have columns : ∀ k, (Octant.next^[k] (.start radius)).x2 = k := fun k => by rw [octant_eq]
  rw [and_iff_left ⟨last, passed, past, fun k _ => columns k⟩]
  by_cases small : radius.toNat < 116
  · have told := allNear_small radius.toNat small positive
    rw [BitVec.ofNat_toNat, BitVec.setWidth_eq] at told
    exact (allNear_spec told).trans (by simp)
  · have most : ∀ r ∈ roundRadii, r < 116 := by decide
    refine iff_of_false (fun all => ?_) fun listed => small (most _ listed)
    obtain ⟨k, reached, far⟩ := @far_point radius.toNat (by omega)
    have near := all k fun j lt => by
      rw [octant_eq]
      exact reached j lt
    rw [octant_eq] at near
    exact absurd near.1 (not_le.2 far)

theorem circle_near_ten : 1 ≤ (10 : BitVec 16).toNat ∧
    ∀ k, Passed 10 k → (Octant.next^[k] (.start 10)).Near 10 :=
  ⟨by decide, ((circle_near_iff 10 (by decide)).2 (by decide)).1⟩

-- The circle of radius 11 has the point (7, 7), and 49 + 49 is less than 100.
theorem circle_far_eleven : ∃ k, Passed 11 k ∧ ¬ (Octant.next^[k] (.start 11)).Near 11 :=
  ⟨7, by unfold Passed; decide, by decide⟩


end Jos.Kern.Vga
