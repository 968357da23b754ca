import Jos.Kern.PageMap

namespace Jos.Kern.Pmap

open Jos.Shared
open Function

variable {I : Type} [Fintype I] [DecidableEq I] {vm : Pmap} {dir : I → Option Nat} {managed : Nat → Prop}
  {rest : List Nat} {i : I} {p : Nat}

def withDir (vm : Pmap) (p : Nat) : Pmap :=
  let vm := vm.taken p true
  let vm := vm.setPage p { vm.pages p with ppRef := (vm.pages p).ppRef + 1 }
  let vm := { vm with mem := update vm.mem p (vm.mem vm.kernPgdir) }
  vm.store (p, pdx uvpt) (page2pa p ||| pteP ||| pteU)

theorem withDir_mem_of_ne {q : Nat} (other : q ≠ p) : (vm.withDir p).mem q = vm.mem q := by
  rw [withDir, mem_store_of_ne other]
  simp [other, setPage, taken_mem_of_ne vm true other]

omit [DecidableEq I] in
theorem withDir_mem_user (inv : vm.Inv dir managed [] (p :: rest)) {d : Index} (user : d.val < npdUser) :
    (vm.withDir p).mem p d = 0 := by
  have other : vm.kernPgdir ≠ p := by
    rintro rfl
    exact inv.kernOutside (inv.balanced.freeManaged _ List.mem_cons_self)
  have below : d ≠ pdx uvpt := by
    rintro rfl
    exact absurd user (by decide)
  have kern : (vm.taken p true).kernPgdir = vm.kernPgdir := rfl
  rw [withDir, mem_store (p, pdx uvpt), if_neg below]
  simp [setPage, kern, taken_mem_of_ne vm true other, inv.kernEmpty d user]

theorem withDir_table (inv : vm.Inv dir managed [] (p :: rest)) (vacant : dir i = none) (j : I)
    (e : Index) : (vm.withDir p).table (update dir i (some p)) j e = vm.table dir j e := by
  by_cases user : e.val < npdUser
  · by_cases same : j = i
    · subst same
      simp [table, user, vacant, withDir_mem_user inv user]
    · cases own : dir j with
      | none => simp [table, same, own]
      | some g =>
        have other : g ≠ p := by
          rintro rfl
          exact inv.free_fresh List.mem_cons_self (.dir j) own
        simp [table, same, own, withDir_mem_of_ne other]
  · simp [table, user]

theorem withDir_pte (inv : vm.Inv dir managed [] (p :: rest)) (vacant : dir i = none) :
    (vm.withDir p).pte (update dir i (some p)) = vm.pte dir := by
  funext j e u
  have tables := withDir_table inv vacant j e
  cases found : vm.table dir j e with
  | none => rw [pte_of_no_table found, pte_of_no_table (tables.trans found)]
  | some pt =>
    have other : pt ≠ p := by
      rintro rfl
      exact inv.free_fresh List.mem_cons_self (.table j e) found
    rw [pte_of_table found, pte_of_table (tables.trans found), withDir_mem_of_ne other]

theorem withDir_target (inv : vm.Inv dir managed [] (p :: rest)) (vacant : dir i = none) :
    (vm.withDir p).target (update dir i (some p)) =
      update (vm.target dir) (.dir i) (some p) := by
  funext site
  rcases site with j | ⟨j, e⟩ | ⟨j, e, u⟩
  · by_cases same : j = i <;> simp [target, same]
  · simp [target, withDir_table inv vacant]
  · simp [target, withDir_pte inv vacant]

theorem withDir_inv (inv : vm.Inv dir managed [] (p :: rest)) (vacant : dir i = none) :
    (vm.withDir p).Inv (update dir i (some p)) managed [] rest := by
  have member := inv.balanced.freeManaged p List.mem_cons_self
  have fresh := inv.free_fresh List.mem_cons_self
  have ready := (taken_inv inv true).balanced
  have counters : (vm.withDir p).ledger = (vm.taken p true).ledger.attach p :=
    setPage_ref_ledger (vm.taken p true) p _
  have same : Same managed vm (vm.withDir p) :=
    ⟨rfl, rfl, rfl, fun q outside => withDir_mem_of_ne fun here => outside (here ▸ member)⟩
  refine inv.transfer same ?_ ?_
  · rw [counters, withDir_target inv vacant, ← taken_target inv true]
    exact ready.attach_site (by rw [taken_target inv]; exact vacant) member
      (List.nodup_cons.mp inv.balanced.chain.nodup).1 fun q other => by simp [other]
  · rw [Owned, withDir_target inv vacant]
    exact inv.owned.attach_fresh (.dir i) fresh

end Jos.Kern.Pmap
