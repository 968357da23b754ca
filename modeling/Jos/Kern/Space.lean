import Jos.Shared.Ledger
import Jos.Kern.Pmap

namespace Jos.Kern

open Jos.Shared
open Function

def pteTarget (pte : Word) : Option Nat :=
  if pte &&& pteP = 0 then none else some (pgnum pte)

@[simp] theorem pteTarget_zero : pteTarget 0#32 = none := by decide

theorem pteTarget_entry {pp : Nat} {perm : Word} (small : pp < 2 ^ 20) (low : perm.toNat < 2 ^ 12) :
    pteTarget (entry pp perm) = some pp := by
  rw [pteTarget, if_neg (entry_present pp perm), pgnum_entry small low]

theorem pteTarget_eq_some {pte : Word} {p : Nat} :
    pteTarget pte = some p ↔ pte &&& pteP ≠ 0 ∧ pgnum pte = p := by
  by_cases present : pte &&& pteP = 0 <;> simp [pteTarget, present]

theorem pteTarget_eq_none {pte : Word} : pteTarget pte = none ↔ pte &&& pteP = 0 := by
  by_cases present : pte &&& pteP = 0 <;> simp [pteTarget, present]

inductive Site (I : Type) where
  | dir (i : I)
  | table (i : I) (d : Index)
  | leaf (i : I) (d t : Index)
  deriving DecidableEq, Fintype

def Site.IsNode {I : Type} : Site I → Prop
  | .dir _ | .table _ _ => True
  | .leaf _ _ _ => False

namespace Site

variable {I : Type}

def Owned (target : Site I → Option Nat) : Prop :=
  ∀ x y p, x.IsNode → target x = some p → target y = some p → x = y

variable [DecidableEq I] {target : Site I → Option Nat}

theorem Owned.detach (owned : Owned target) (site : Site I) :
    Owned (update target site none) := by
  intro x y p node refers refers'
  by_cases left : x = site
  · simp [left] at refers
  by_cases right : y = site
  · simp [right] at refers'
  rw [update_of_ne left] at refers
  rw [update_of_ne right] at refers'
  exact owned x y p node refers refers'

theorem Owned.attach_fresh (owned : Owned target) (site : Site I) {p : Nat}
    (fresh : ∀ other, target other ≠ some p) : Owned (update target site (some p)) := by
  intro x y q node refers refers'
  by_cases left : x = site <;> by_cases right : y = site
  · rw [left, right]
  · subst left
    rw [update_self] at refers
    rw [update_of_ne right, ← refers] at refers'
    exact absurd refers' (fresh y)
  · subst right
    rw [update_self] at refers'
    rw [update_of_ne left, ← refers'] at refers
    exact absurd refers (fresh x)
  · rw [update_of_ne left] at refers
    rw [update_of_ne right] at refers'
    exact owned x y q node refers refers'

theorem Owned.attach_leaf (owned : Owned target) (i : I) (d t : Index) {p : Nat}
    (data : ∀ other, other.IsNode → target other ≠ some p) :
    Owned (update target (.leaf i d t) (some p)) := by
  intro x y q node refers refers'
  have left : x ≠ .leaf i d t := by
    rintro rfl
    exact node
  rw [update_of_ne left] at refers
  by_cases right : y = .leaf i d t
  · subst right
    rw [update_self] at refers'
    exact absurd (refers.trans refers'.symm) (data x node)
  · rw [update_of_ne right] at refers'
    exact owned x y q node refers refers'

end Site

namespace Pmap

variable {I : Type}

def ledger (vm : Pmap) : Ledger Nat 16 where
  link := fun p => (vm.pages p).ppLink
  head := vm.pageFreeList
  count := fun p => (vm.pages p).ppRef

def table (vm : Pmap) (dir : I → Option Nat) (i : I) (d : Index) : Option Nat :=
  if d.val < npdUser then (dir i).bind fun g => pteTarget (vm.mem g d) else none

def pte (vm : Pmap) (dir : I → Option Nat) (i : I) (d t : Index) : Word :=
  match vm.table dir i d with
  | none => 0
  | some pt => vm.mem pt t

def target (vm : Pmap) (dir : I → Option Nat) : Site I → Option Nat
  | .dir i => dir i
  | .table i d => vm.table dir i d
  | .leaf i d t => pteTarget (vm.pte dir i d t)

theorem pte_of_table {vm : Pmap} {dir : I → Option Nat} {i : I} {d : Index} {pt : Nat}
    (found : vm.table dir i d = some pt) (t : Index) : vm.pte dir i d t = vm.mem pt t := by
  simp [pte, found]

theorem pte_of_no_table {vm : Pmap} {dir : I → Option Nat} {i : I} {d : Index}
    (absent : vm.table dir i d = none) (t : Index) : vm.pte dir i d t = 0 := by
  simp [pte, absent]

theorem table_eq {vm : Pmap} {dir : I → Option Nat} {i : I} {d : Index} {g : Nat}
    (user : d.val < npdUser) (own : dir i = some g) : vm.table dir i d = pteTarget (vm.mem g d) := by
  simp [table, user, own]

theorem table_user {vm : Pmap} {dir : I → Option Nat} {i : I} {d : Index} {pt : Nat}
    (found : vm.table dir i d = some pt) :
    d.val < npdUser ∧ ∃ g, dir i = some g ∧ pteTarget (vm.mem g d) = some pt := by
  unfold table at found
  split at found
  next user => exact ⟨user, Option.bind_eq_some_iff.mp found⟩
  · cases found

theorem table_of_pte {vm : Pmap} {dir : I → Option Nat} {i : I} {d t : Index} {p : Nat}
    (mapped : pteTarget (vm.pte dir i d t) = some p) :
    ∃ pt, vm.table dir i d = some pt ∧ vm.pte dir i d t = vm.mem pt t := by
  cases found : vm.table dir i d with
  | none => simp [pte_of_no_table found] at mapped
  | some pt => exact ⟨pt, rfl, pte_of_table found t⟩

def Owned (vm : Pmap) (dir : I → Option Nat) : Prop := Site.Owned (vm.target dir)

section Frames

variable {vm vm' : Pmap} {dir : I → Option Nat}

theorem table_congr {i : I} {d : Index}
    (same : ∀ g, dir i = some g → vm'.mem g d = vm.mem g d) :
    vm'.table dir i d = vm.table dir i d := by
  cases own : dir i with
  | none => simp [table, own]
  | some g => simp [table, own, same g own]

theorem pte_congr {i : I} {d t : Index} (tables : vm'.table dir i d = vm.table dir i d)
    (same : ∀ pt, vm.table dir i d = some pt → vm'.mem pt t = vm.mem pt t) :
    vm'.pte dir i d t = vm.pte dir i d t := by
  cases found : vm.table dir i d with
  | none => rw [pte_of_no_table found, pte_of_no_table (tables.trans found)]
  | some pt => rw [pte_of_table found, pte_of_table (tables.trans found), same pt found]

theorem target_congr (tables : ∀ i d, vm'.table dir i d = vm.table dir i d)
    (ptes : ∀ i d t, vm'.pte dir i d t = vm.pte dir i d t) : vm'.target dir = vm.target dir := by
  funext site
  cases site <;> simp [target, tables, ptes]

theorem table_of_mem_eq (mem : vm'.mem = vm.mem) : vm'.table dir = vm.table dir := by
  funext i d
  exact table_congr fun g _ => by rw [mem]

theorem pte_of_mem_eq (mem : vm'.mem = vm.mem) : vm'.pte dir = vm.pte dir := by
  funext i d t
  exact pte_congr (by rw [table_of_mem_eq mem]) fun pt _ => by rw [mem]

theorem target_of_mem_eq (mem : vm'.mem = vm.mem) : vm'.target dir = vm.target dir :=
  target_congr (fun i d => by rw [table_of_mem_eq mem]) fun i d t => by rw [pte_of_mem_eq mem]

variable (owned : vm.Owned dir)

include owned

theorem Owned.table_ne_dir {i j : I} {d : Index} {pt g : Nat} (found : vm.table dir i d = some pt)
    (own : dir j = some g) : g ≠ pt := by
  rintro rfl
  have same := owned (.dir j) (.table i d) g trivial own found
  cases same

theorem Owned.table_inj {i j : I} {d e : Index} {pt : Nat} (found : vm.table dir i d = some pt)
    (found' : vm.table dir j e = some pt) : j = i ∧ e = d := by
  have same := owned (.table j e) (.table i d) pt trivial found' found
  exact ⟨congrArg (fun | .table a _ => a | _ => j) same, congrArg (fun | .table _ b => b | _ => e) same⟩

theorem Owned.dir_inj {i j : I} {g : Nat} (own : dir i = some g) (own' : dir j = some g) : j = i := by
  have same := owned (.dir j) (.dir i) g trivial own' own
  exact congrArg (fun | .dir a => a | _ => j) same

end Frames

section Stores

variable {vm : Pmap} {dir : I → Option Nat} [DecidableEq I]

theorem mem_store_of_ne {ptr : Ptr} {value : Word} {p : Nat} (other : p ≠ ptr.1) :
    (vm.store ptr value).mem p = vm.mem p := by
  simp [store, other]

theorem mem_store (ptr : Ptr) (value : Word) (t : Index) :
    (vm.store ptr value).mem ptr.1 t = if t = ptr.2 then value else vm.mem ptr.1 t := by
  by_cases same : t = ptr.2 <;> simp [store, same]

omit [DecidableEq I] in
-- Writing one entry of a page table changes that entry of its owner and nothing else.
theorem table_store_leaf (owned : vm.Owned dir) {i : I} {d : Index} {pt : Nat}
    (found : vm.table dir i d = some pt) (t : Index) (value : Word) :
    (vm.store (pt, t) value).table dir = vm.table dir := by
  funext j e
  refine table_congr fun g own => ?_
  rw [mem_store_of_ne (owned.table_ne_dir found own)]

theorem pte_store_leaf (owned : vm.Owned dir) {i : I} {d : Index} {pt : Nat}
    (found : vm.table dir i d = some pt) (t : Index) (value : Word) (j : I) (e u : Index) :
    (vm.store (pt, t) value).pte dir j e u =
      if j = i ∧ e = d ∧ u = t then value else vm.pte dir j e u := by
  have tables := congrFun (congrFun (table_store_leaf owned found t value) j) e
  cases other : vm.table dir j e with
  | none =>
    rw [pte_of_no_table (tables.trans other), pte_of_no_table other, if_neg]
    rintro ⟨rfl, rfl, -⟩
    simp [found] at other
  | some pt' =>
    rw [pte_of_table (tables.trans other), pte_of_table other]
    by_cases same : pt' = pt
    · subst same
      obtain ⟨rfl, rfl⟩ := owned.table_inj found other
      rw [mem_store (pt', t)]
      simp
    · rw [mem_store_of_ne same, if_neg]
      rintro ⟨rfl, rfl, -⟩
      exact same (Option.some.inj (other.symm.trans found))

theorem target_store_leaf (owned : vm.Owned dir) {i : I} {d : Index} {pt : Nat}
    (found : vm.table dir i d = some pt) (t : Index) (value : Word) :
    (vm.store (pt, t) value).target dir =
      update (vm.target dir) (.leaf i d t) (pteTarget value) := by
  funext site
  have tables := table_store_leaf owned found t value
  have ptes := pte_store_leaf owned found t value
  rcases site with j | ⟨j, e⟩ | ⟨j, e, u⟩
  · simp [target]
  · simp [target, tables]
  · by_cases same : j = i ∧ e = d ∧ u = t
    · obtain ⟨rfl, rfl, rfl⟩ := same
      simp [target, ptes]
    · rw [update_of_ne (by simpa using same)]
      simp [target, ptes, same]

-- Writing a directory entry replaces one page table.
theorem table_store_dir (owned : vm.Owned dir) {i : I} {d : Index} {g : Nat}
    (own : dir i = some g) (user : d.val < npdUser) (value : Word) (j : I) (e : Index) :
    (vm.store (g, d) value).table dir j e =
      if j = i ∧ e = d then pteTarget value else vm.table dir j e := by
  by_cases same : j = i
  · subst same
    by_cases index : e = d
    · subst index
      rw [table_eq user own, mem_store (g, e)]
      simp
    · rw [if_neg (by simp [index])]
      refine table_congr fun g' own' => ?_
      obtain rfl : g = g' := Option.some.inj (own.symm.trans own')
      rw [mem_store (g, d)]
      simp [index]
  · rw [if_neg (by simp [same])]
    refine table_congr fun g' own' => ?_
    have other : g' ≠ g := by
      rintro rfl
      exact same (owned.dir_inj own own')
    rw [mem_store_of_ne other]

theorem pte_store_dir (owned : vm.Owned dir) {i : I} {d : Index} {g : Nat}
    (own : dir i = some g) (user : d.val < npdUser) (value : Word) {j : I} {e : Index}
    (other : ¬(j = i ∧ e = d)) (t : Index) :
    (vm.store (g, d) value).pte dir j e t = vm.pte dir j e t := by
  refine pte_congr ?_ fun pt found => ?_
  · rw [table_store_dir owned own user, if_neg other]
  · rw [mem_store_of_ne (owned.table_ne_dir found own).symm]

end Stores

end Pmap

end Jos.Kern
