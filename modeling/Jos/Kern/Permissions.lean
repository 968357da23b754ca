import Jos.Kern.InsertContract

namespace Jos.Kern

open Jos.Shared

def Memory.ReadOnly (p : Nat) (m : Memory) : Prop :=
  ∀ e d t, pteTarget (m.pte e d t) = some p → m.pte e d t &&& pteW = 0

namespace Memory

variable {managed : Nat → Prop} {a b : Memory} {edit : Edit} {p : Nat}

theorem ReadOnly.does (readOnly : a.ReadOnly p) (does : edit.Does a b)
    (other : ∀ i d t pp perm, edit = .fresh i d t pp perm → pp ≠ p) : b.ReadOnly p := by
  intro j e u refers
  cases edit with
  | keep =>
    rw [does.2.1] at refers ⊢
    exact readOnly j e u refers
  | fresh i d t pp perm =>
    rw [does.2.pte] at refers ⊢
    split at refers
    next here =>
      rw [does.2.target] at refers
      exact absurd (Option.some.inj refers) (other i d t pp perm rfl)
    next elsewhere =>
      rw [if_neg elsewhere]
      exact readOnly j e u refers
  | copy i d t pp perm j' e' u' =>
    obtain ⟨source, writable, maps⟩ := does
    rw [maps.pte] at refers ⊢
    split at refers
    next here =>
      rw [maps.target] at refers
      obtain rfl := Option.some.inj refers
      rw [if_pos here, entry_and_pteW]
      by_contra wants
      exact writable wants (readOnly j' e' u' source)
    next elsewhere =>
      rw [if_neg elsewhere]
      exact readOnly j e u refers
  | unmap i d t =>
    obtain ⟨-, gone, others, -⟩ := does
    by_cases here : j = i ∧ e = d ∧ u = t
    · obtain ⟨rfl, rfl, rfl⟩ := here
      rw [gone] at refers
      cases refers
    · rw [others j e u here] at refers ⊢
      exact readOnly j e u refers
  | attach i g =>
    rw [does.2.2.1] at refers ⊢
    exact readOnly j e u refers
  | close i =>
    obtain ⟨-, gone, others, -⟩ := does
    by_cases here : j = i
    · subst here
      rw [gone] at refers
      cases refers
    · rw [others j here] at refers ⊢
      exact readOnly j e u refers

end Memory

namespace Kernel

variable {managed : Nat → Prop} {s s' : Kernel} {p : Nat}

structure Protected (managed : Nat → Prop) (p : Nat) (s : Kernel) : Prop extends s.Kept managed where
  used : s.memory.refs p ≠ 0
  readOnly : s.memory.ReadOnly p

end Kernel

end Jos.Kern
