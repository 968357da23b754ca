import Mathlib

namespace Jos.Shared

open Function

variable {A : Type}

-- Following `next` from `head` visits exactly these nodes and then finds the null pointer.
def Chain (next : A → Option A) : Option A → List A → Prop
  | head, [] => head = none
  | head, node :: rest => head = some node ∧ Chain next (next node) rest

namespace Chain

variable {next other : A → Option A} {head : Option A} {nodes : List A}

theorem unique {left right : List A} (first : Chain next head left) (second : Chain next head right) :
    left = right := by
  induction left generalizing head right with
  | nil =>
    cases right with
    | nil => rfl
    | cons node rest => simp_all [Chain]
  | cons node rest ih =>
    cases right with
    | nil => simp_all [Chain]
    | cons node' rest' =>
      obtain ⟨same, tail⟩ := first
      obtain ⟨same', tail'⟩ := second
      obtain rfl : node = node' := Option.some.inj (same.symm.trans same')
      rw [ih tail tail']

theorem suffix {before after : List A} {node : A} (chain : Chain next head (before ++ node :: after)) :
    Chain next (next node) after := by
  induction before generalizing head with
  | nil => exact chain.2
  | cons _ _ ih => exact ih chain.2

-- A node met twice would have to be followed by two chains of different lengths.
theorem nodup (chain : Chain next head nodes) : nodes.Nodup := by
  induction nodes generalizing head with
  | nil => exact List.nodup_nil
  | cons node rest ih =>
    refine List.nodup_cons.mpr ⟨fun again => ?_, ih chain.2⟩
    obtain ⟨before, after, split⟩ := List.append_of_mem again
    have tail : Chain next (next node) (before ++ node :: after) := split ▸ chain.2
    have lengths := congrArg List.length (tail.unique tail.suffix)
    simp only [List.length_append, List.length_cons] at lengths
    omega

theorem congr (same : ∀ node ∈ nodes, other node = next node) (chain : Chain next head nodes) :
    Chain other head nodes := by
  induction nodes generalizing head with
  | nil => exact chain
  | cons node rest ih =>
    refine ⟨chain.1, ?_⟩
    rw [same node List.mem_cons_self]
    exact ih (fun inner member => same inner (List.mem_cons_of_mem _ member)) chain.2

theorem of_some {node : A} (chain : Chain next (some node) nodes) :
    ∃ rest, nodes = node :: rest ∧ Chain next (next node) rest := by
  cases nodes with
  | nil => simp [Chain] at chain
  | cons first rest =>
    obtain ⟨same, tail⟩ := chain
    obtain rfl := Option.some.inj same
    exact ⟨rest, rfl, tail⟩

theorem of_list (linked : ∀ before node after, nodes = before ++ node :: after →
    next node = after.head?) : Chain next nodes.head? nodes := by
  induction nodes with
  | nil => rfl
  | cons node rest ih =>
    refine ⟨rfl, ?_⟩
    rw [linked [] node rest rfl]
    refine ih fun before inner after split => linked (node :: before) inner after ?_
    rw [split, List.cons_append]

theorem of_finRange {n : Nat} (positive : 0 < n) {next : Fin n → Option (Fin n)} (nodes : List (Fin n))
    (linked : ∀ i : Fin n, next i = if inside : i.val + 1 < n then some ⟨i.val + 1, inside⟩ else none)
    (all : nodes = List.finRange n) : Chain next (some ⟨0, positive⟩) nodes := by
  subst all
  have head : (List.finRange n).head? = some ⟨0, positive⟩ := by
    rw [List.head?_eq_getElem?, List.getElem?_eq_getElem (by simpa using positive)]
    simp
  rw [← head]
  refine of_list fun before node after split => ?_
  have place : before.length < n := by
    have total := congrArg List.length split
    simp only [List.length_finRange, List.length_append, List.length_cons] at total
    omega
  have here : node.val = before.length := by
    have at_ : (List.finRange n)[before.length]? = some node := by simp [split]
    rw [List.getElem?_eq_getElem (by simpa using place), List.getElem_finRange] at at_
    exact (congrArg Fin.val (Option.some.inj at_)).symm
  have following : after.head? = (List.finRange n)[before.length + 1]? := by
    rw [split, List.head?_eq_getElem?, List.getElem?_append_right (by omega)]
    simp
  rw [linked, following]
  split
  next inside =>
    rw [List.getElem?_eq_getElem (by simpa [← here] using inside), List.getElem_finRange]
    simp [here]
  next outside =>
    rw [List.getElem?_eq_none (by simpa [← here] using outside)]

theorem of_range' {next : Nat → Option Nat} {start count : Nat} {nodes : List Nat} (positive : 0 < count)
    (linked : ∀ p, start ≤ p → p < start + count → next p = if p + 1 < start + count
    then some (p + 1) else none) (all : nodes = List.range' start count) :
    Chain next (some start) nodes := by
  subst all
  suffices general : Chain next (if 0 < count then some start else none) (List.range' start count) by
    simpa [positive] using general
  clear positive
  induction count generalizing start with
  | zero => rfl
  | succ count ih =>
    refine ⟨by simp, ?_⟩
    have rest := @ih (start + 1) fun p low high => by
      rw [linked p (by omega) (by omega)]
      simp only [show start + (count + 1) = start + 1 + count by omega]
    rw [linked start (le_refl _) (by omega)]
    simpa using rest

variable [DecidableEq A]

theorem push {node : A} (fresh : node ∉ nodes) (chain : Chain next head nodes) :
    Chain (update next node head) (some node) (node :: nodes) := by
  refine ⟨rfl, ?_⟩
  rw [update_self]
  refine chain.congr fun inner member => update_of_ne ?_ ..
  exact fun same => fresh (same ▸ member)

theorem pop {node : A} {rest : List A} (link : Option A) (chain : Chain next head (node :: rest)) :
    Chain (update next node link) (next node) rest := by
  have fresh : node ∉ rest := (List.nodup_cons.mp chain.nodup).1
  refine chain.2.congr fun inner member => update_of_ne ?_ ..
  exact fun same => fresh (same ▸ member)

end Chain

end Jos.Shared
