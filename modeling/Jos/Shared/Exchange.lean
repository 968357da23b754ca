import Mathlib

namespace Jos.Shared

open Function

variable {A C B : Type} [DecidableEq A] [DecidableEq C]

/-- Two stores with a place in the one for each cell of the other: what is written to a cell and to
its place depends only on what is in them. -/
structure Exchange (A C B : Type) where
  place : C → A
  toPlace : C → B → B → B
  toCell : C → B → B → B

namespace Exchange

def once (x : Exchange A C B) (s : (A → B) × (C → B)) (c : C) : (A → B) × (C → B) :=
  (update s.1 (x.place c) (x.toPlace c (s.1 (x.place c)) (s.2 c)),
    update s.2 c (x.toCell c (s.1 (x.place c)) (s.2 c)))

def all (x : Exchange A C B) (cells : List C) (s : (A → B) × (C → B)) : (A → B) × (C → B) :=
  cells.foldl x.once s

variable {x : Exchange A C B} {cells : List C} {c : C} {a : A}

theorem all_cell_of_notMem (s : (A → B) × (C → B)) (outside : c ∉ cells) :
    (x.all cells s).2 c = s.2 c := by
  induction cells generalizing s with
  | nil => rfl
  | cons d rest ih =>
    rw [List.mem_cons, not_or] at outside
    exact (ih (x.once s d) outside.2).trans (update_of_ne outside.1 _ _)

theorem all_place_of_ne (s : (A → B) × (C → B)) (outside : ∀ c ∈ cells, x.place c ≠ a) :
    (x.all cells s).1 a = s.1 a := by
  induction cells generalizing s with
  | nil => rfl
  | cons d rest ih =>
    have here := outside d List.mem_cons_self
    exact (ih (x.once s d) fun c inside => outside c (List.mem_cons_of_mem d inside)).trans
      (update_of_ne here.symm _ _)

theorem all_of_mem (s : (A → B) × (C → B)) (nodup : cells.Nodup)
    (apart : ∀ c ∈ cells, ∀ d ∈ cells, x.place c = x.place d → c = d) (inside : c ∈ cells) :
    (x.all cells s).1 (x.place c) = x.toPlace c (s.1 (x.place c)) (s.2 c) ∧
      (x.all cells s).2 c = x.toCell c (s.1 (x.place c)) (s.2 c) := by
  induction cells generalizing s with
  | nil => cases inside
  | cons d rest ih =>
    obtain ⟨fresh, nodup⟩ := List.nodup_cons.mp nodup
    have other : ∀ e ∈ rest, x.place e ≠ x.place d := by
      intro e member same
      exact fresh (apart e (List.mem_cons_of_mem d member) d List.mem_cons_self same ▸ member)
    change (x.all rest (x.once s d)).1 _ = _ ∧ (x.all rest (x.once s d)).2 _ = _
    rcases List.mem_cons.mp inside with rfl | member
    · rw [all_place_of_ne _ other, all_cell_of_notMem _ fresh]
      exact ⟨update_self _ _ _, update_self _ _ _⟩
    · have kept : (x.once s d).1 (x.place c) = s.1 (x.place c) := update_of_ne (other c member) _ _
      have kept' : (x.once s d).2 c = s.2 c := by
        apply update_of_ne
        rintro rfl
        exact fresh member
      have later := ih (x.once s d) nodup
        (fun e he f hf => apart e (List.mem_cons_of_mem d he) f (List.mem_cons_of_mem d hf)) member
      rwa [kept, kept'] at later

end Exchange

end Jos.Shared
