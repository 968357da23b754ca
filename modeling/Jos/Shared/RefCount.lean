import Mathlib

namespace Jos.Shared

open Function

variable {S P : Type} [Fintype S] [DecidableEq P]

def refs (target : S → Option P) (p : P) : Nat :=
  (Finset.univ.filter fun site => target site = some p).card

theorem refs_eq_zero {target : S → Option P} {p : P} :
    refs target p = 0 ↔ ∀ site, target site ≠ some p := by
  simp [refs, Finset.filter_eq_empty_iff]

theorem refs_pos {target : S → Option P} {p : P} {site : S} (refers : target site = some p) :
    0 < refs target p :=
  Nat.pos_of_ne_zero fun none => refs_eq_zero.mp none site refers

theorem exists_of_refs_ne_zero {target : S → Option P} {p : P} (some_ref : refs target p ≠ 0) :
    ∃ site, target site = some p := by
  by_contra absent
  exact some_ref (refs_eq_zero.mpr fun site refers => absent ⟨site, refers⟩)

theorem refs_unique {target : S → Option P} {p : P} {site other : S} (single : refs target p = 1)
    (refers : target site = some p) (refers' : target other = some p) : other = site := by
  have atMost := Finset.card_le_one.mp single.le
  exact atMost other (by simp [refers']) site (by simp [refers])

variable [DecidableEq S]

theorem refs_update (target : S → Option P) (site : S) (value : Option P) (p : P) :
    refs (update target site value) p + (if target site = some p then 1 else 0) =
      refs target p + (if value = some p then 1 else 0) := by
  have outside (f : S → Option P) : refs f p =
      ((Finset.univ.erase site).filter fun other => f other = some p).card +
        (if f site = some p then 1 else 0) := by
    rw [refs, ← Finset.insert_erase (Finset.mem_univ site), Finset.filter_insert]
    split <;> simp
  have rest : ((Finset.univ.erase site).filter fun other =>
      update target site value other = some p) =
      (Finset.univ.erase site).filter fun other => target other = some p := by
    refine Finset.filter_congr fun other member => ?_
    rw [update_of_ne (Finset.ne_of_mem_erase member)]
  rw [outside (update target site value), outside target, rest, update_self]
  omega

theorem refs_attach {target : S → Option P} {site : S} (vacant : target site = none) (p q : P) :
    refs (update target site (some p)) q = refs target q + if q = p then 1 else 0 := by
  have change := refs_update target site (some p) q
  simpa [vacant, eq_comm] using change

theorem refs_detach {target : S → Option P} {site : S} {p : P} (refers : target site = some p) (q : P) :
    refs (update target site none) q + (if q = p then 1 else 0) = refs target q := by
  have change := refs_update target site none q
  simpa [refers, eq_comm] using change

end Jos.Shared
