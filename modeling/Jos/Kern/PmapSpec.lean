import Jos.Kern.Space

namespace Jos.Kern.Pmap

open Jos.Shared
open Function

structure Same (managed : Nat → Prop) (vm vm' : Pmap) : Prop where
  npages : vm'.npages = vm.npages
  pseSupport : vm'.pseSupport = vm.pseSupport
  kernPgdir : vm'.kernPgdir = vm.kernPgdir
  mem : ∀ p, ¬managed p → vm'.mem p = vm.mem p

namespace Same

variable {managed : Nat → Prop} {vm vm' vm'' : Pmap}

theorem refl (vm : Pmap) : Same managed vm vm := ⟨rfl, rfl, rfl, fun _ _ => rfl⟩

theorem trans (first : Same managed vm vm') (second : Same managed vm' vm'') : Same managed vm vm'' :=
  ⟨second.npages.trans first.npages, second.pseSupport.trans first.pseSupport,
    second.kernPgdir.trans first.kernPgdir,
    fun p outside => (second.mem p outside).trans (first.mem p outside)⟩

theorem setPage (vm : Pmap) (pp : Nat) (info : PageInfo) : Same managed vm (vm.setPage pp info) :=
  ⟨rfl, rfl, rfl, fun _ _ => rfl⟩

theorem store {ptr : Ptr} (vm : Pmap) (inside : managed ptr.1) (value : Word) :
    Same managed vm (vm.store ptr value) :=
  ⟨rfl, rfl, rfl, fun _ outside => mem_store_of_ne (by rintro rfl; exact outside inside)⟩

end Same

variable {I : Type} [Fintype I]

/-- Page accounting. `dir` gives the page directories in use, `managed` the pages that the allocator
owns, `held` the pages taken from the free list and not yet referred to, `free` the free list. -/
structure Inv (vm : Pmap) (dir : I → Option Nat) (managed : Nat → Prop) (held free : List Nat) :
    Prop where
  balanced : vm.ledger.Balanced (vm.target dir) managed held free
  owned : vm.Owned dir
  bound : ∀ p, managed p → p < vm.npages
  size : vm.npages ≤ 2 ^ 20
  pse : vm.pseSupport ≠ 1
  kernOutside : ¬managed vm.kernPgdir
  kernEmpty : ∀ d : Index, d.val < npdUser → vm.mem vm.kernPgdir d = 0

namespace Inv

variable {vm vm' : Pmap} {dir : I → Option Nat} {managed : Nat → Prop} {held free : List Nat}

theorem transfer {held' free' : List Nat} {dir' : I → Option Nat} (inv : vm.Inv dir managed held free)
    (same : Same managed vm vm') (balanced : vm'.ledger.Balanced (vm'.target dir') managed held' free')
    (owned : vm'.Owned dir') : vm'.Inv dir' managed held' free' where
  balanced := balanced
  owned := owned
  bound := same.npages ▸ inv.bound
  size := same.npages ▸ inv.size
  pse := same.pseSupport ▸ inv.pse
  kernOutside := same.kernPgdir ▸ inv.kernOutside
  kernEmpty := by
    intro d user
    rw [same.kernPgdir, same.mem _ inv.kernOutside]
    exact inv.kernEmpty d user

theorem target_managed (inv : vm.Inv dir managed held free) {site : Site I} {p : Nat}
    (refers : vm.target dir site = some p) : managed p :=
  inv.balanced.targets site p refers

theorem target_bound (inv : vm.Inv dir managed held free) {site : Site I} {p : Nat}
    (refers : vm.target dir site = some p) : p < vm.npages :=
  inv.bound p (inv.target_managed refers)

theorem small (inv : vm.Inv dir managed held free) {p : Nat} (member : managed p) : p < 2 ^ 20 :=
  lt_of_lt_of_le (inv.bound p member) inv.size

theorem free_fresh (inv : vm.Inv dir managed held free) {p : Nat} (member : p ∈ free) (site : Site I) :
    vm.target dir site ≠ some p :=
  refs_eq_zero.mp (inv.balanced.free_refs member) site

theorem leaf_data (inv : vm.Inv dir managed held free) {i : I} {d t : Index} {p : Nat}
    (mapped : pteTarget (vm.pte dir i d t) = some p) (site : Site I) (node : site.IsNode) :
    vm.target dir site ≠ some p := by
  intro same
  have leaf : site = .leaf i d t := inv.owned site (.leaf i d t) p node same mapped
  rw [leaf] at node
  exact node

theorem detach [DecidableEq I] {dir' : I → Option Nat} {site : Site I} {p : Nat}
    (inv : vm.Inv dir managed held free) (refers : vm.target dir site = some p)
    (bound : refs (vm.target dir) p < 2 ^ 16) (once : p ∉ held)
    (counters : vm'.ledger = vm.ledger.detach p) (same : Same managed vm vm')
    (targets : vm'.target dir' = update (vm.target dir) site none) :
    vm'.Inv dir' managed held (if refs (vm.target dir) p = 1 then p :: free else free) := by
  refine inv.transfer same ?_ ?_
  · rw [counters, targets]
    exact inv.balanced.detach_site refers bound once
  · rw [Owned, targets]
    exact inv.owned.detach site

end Inv

section Alloc

variable {vm : Pmap} {dir : I → Option Nat} {managed : Nat → Prop} {held rest : List Nat} {page : Nat}

theorem kaddr_ok {vm : Pmap} {pa : Word} (bound : pgnum pa < vm.npages) :
    vm.kaddr pa = .ok (pgnum pa) := by
  rw [kaddr, if_neg (by omega)]

theorem pa2page_ok {vm : Pmap} {pa : Word} (bound : pgnum pa < vm.npages) :
    vm.pa2page pa = .ok (pgnum pa) := by
  rw [pa2page, if_neg (by omega)]

theorem pageAlloc_nil (inv : vm.Inv dir managed held []) (allocZero : Bool) :
    vm.pageAlloc allocZero = .ok (vm, none) := by
  have empty : vm.pageFreeList = none := inv.balanced.chain
  simp [pageAlloc, empty]

def taken (vm : Pmap) (page : Nat) (allocZero : Bool) : Pmap :=
  let vm :=
    { vm with pageFreeList := (vm.pages page).ppLink }.setPage page
    { vm.pages page with ppLink := none }
  if allocZero then { vm with mem := update vm.mem page fun _ => 0 } else vm

theorem pageAlloc_some {vm : Pmap} (head : vm.pageFreeList = some page) (bound : page < vm.npages)
    (small : page < 2 ^ 20) (allocZero : Bool) :
    vm.pageAlloc allocZero = .ok (vm.taken page allocZero, some page) := by
  have number := pgnum_page2pa small
  have kva : ({ vm with pageFreeList := (vm.pages page).ppLink }.setPage page
      { vm.pages page with ppLink := none }).kaddr (page2pa page) = .ok page := by
    have inside : pgnum (page2pa page) < vm.npages := number.symm ▸ bound
    rw [kaddr_ok (by exact inside), number]
  cases allocZero <;> simp [pageAlloc, head, taken, kva, bind, Except.bind]

theorem pageAlloc_cons (inv : vm.Inv dir managed held (page :: rest)) (allocZero : Bool) :
    vm.pageAlloc allocZero = .ok (vm.taken page allocZero, some page) := by
  have member := inv.balanced.freeManaged page List.mem_cons_self
  exact pageAlloc_some inv.balanced.chain.1 (inv.bound page member) (inv.small member) allocZero

theorem taken_ledger (vm : Pmap) (page : Nat) (allocZero : Bool) :
    (vm.taken page allocZero).ledger = vm.ledger.take page := by
  have links : (fun p => (update vm.pages page { vm.pages page with ppLink := none } p).ppLink) =
      update (fun p => (vm.pages p).ppLink) page none := by
    funext p
    by_cases same : p = page <;> simp [update, same]
  have counts : (fun p => (update vm.pages page { vm.pages page with ppLink := none } p).ppRef) =
      fun p => (vm.pages p).ppRef := by
    funext p
    by_cases same : p = page <;> simp [update, same]
  cases allocZero <;> simp [taken, ledger, setPage, Ledger.take, links, counts]

theorem taken_mem_of_ne (vm : Pmap) {p : Nat} (allocZero : Bool) (other : p ≠ page) :
    (vm.taken page allocZero).mem p = vm.mem p := by
  cases allocZero <;> simp [taken, setPage, other]

theorem taken_mem_zero (vm : Pmap) (page : Nat) (t : Index) : (vm.taken page true).mem page t = 0 := by
  simp [taken]

theorem taken_same (vm : Pmap) (allocZero : Bool) (member : managed page) :
    Same managed vm (vm.taken page allocZero) := by
  refine ⟨?_, ?_, ?_,
    fun p outside => taken_mem_of_ne vm allocZero (by rintro rfl; exact outside member)⟩ <;>
    cases allocZero <;> rfl

-- Clearing an unreferenced page is invisible in every address space.
theorem taken_table (inv : vm.Inv dir managed held (page :: rest)) (allocZero : Bool) :
    (vm.taken page allocZero).table dir = vm.table dir := by
  funext i d
  refine table_congr fun g own => ?_
  rw [taken_mem_of_ne]
  rintro rfl
  exact inv.free_fresh List.mem_cons_self (.dir i) own

theorem taken_pte (inv : vm.Inv dir managed held (page :: rest)) (allocZero : Bool) :
    (vm.taken page allocZero).pte dir = vm.pte dir := by
  funext i d t
  refine pte_congr (by rw [taken_table inv]) fun pt found => ?_
  rw [taken_mem_of_ne]
  rintro rfl
  exact inv.free_fresh List.mem_cons_self (.table i d) found

theorem taken_target (inv : vm.Inv dir managed held (page :: rest)) (allocZero : Bool) :
    (vm.taken page allocZero).target dir = vm.target dir :=
  target_congr (fun i d => by rw [taken_table inv]) fun i d t => by rw [taken_pte inv]

theorem taken_inv (inv : vm.Inv dir managed held (page :: rest)) (allocZero : Bool) :
    (vm.taken page allocZero).Inv dir managed (page :: held) rest := by
  have member := inv.balanced.freeManaged page List.mem_cons_self
  refine inv.transfer (taken_same vm allocZero member) ?_ ?_
  · rw [taken_ledger, taken_target inv]
    exact inv.balanced.take_head
  · rw [Owned, taken_target inv]
    exact inv.owned

end Alloc

section Counters

structure SameMem (vm vm' : Pmap) : Prop where
  npages : vm'.npages = vm.npages
  pseSupport : vm'.pseSupport = vm.pseSupport
  kernPgdir : vm'.kernPgdir = vm.kernPgdir
  mem : vm'.mem = vm.mem

theorem SameMem.same {vm vm' : Pmap} (sameMem : SameMem vm vm') (managed : Nat → Prop) :
    Same managed vm vm' :=
  ⟨sameMem.npages, sameMem.pseSupport, sameMem.kernPgdir, fun _ _ => by rw [sameMem.mem]⟩

variable {vm : Pmap} {pp : Nat}

theorem setPage_ref_ledger (vm : Pmap) (pp : Nat) (count : BitVec 16) :
    (vm.setPage pp { vm.pages pp with ppRef := count }).ledger =
      { vm.ledger with count := update vm.ledger.count pp count } := by
  ext1
  · funext p
    by_cases same : p = pp <;> simp [ledger, setPage, update, same]
  · rfl
  · funext p
    by_cases same : p = pp <;> simp [ledger, setPage, update, same]

theorem pageFree_ok (unused : (vm.pages pp).ppRef = 0) (unlinked : (vm.pages pp).ppLink = none) :
    ∃ vm', vm.pageFree pp = .ok vm' ∧ vm'.ledger = vm.ledger.give pp ∧ SameMem vm vm' := by
  refine ⟨{ vm.setPage pp { vm.pages pp with ppLink := vm.pageFreeList } with pageFreeList := some pp },
    ?_, ?_, ⟨rfl, rfl, rfl, rfl⟩⟩
  · rw [pageFree, if_neg (by simp [unused, unlinked])]
  · ext1
    · funext p
      by_cases same : p = pp <;> simp [ledger, setPage, Ledger.give, same]
    · rfl
    · funext p
      by_cases same : p = pp <;> simp [ledger, setPage, Ledger.give, same]

theorem pageDecref_ok (unlinked : (vm.pages pp).ppLink = none) :
    ∃ vm', vm.pageDecref pp = .ok vm' ∧ vm'.ledger = vm.ledger.detach pp ∧ SameMem vm vm' := by
  let dropped := vm.setPage pp { vm.pages pp with ppRef := (vm.pages pp).ppRef - 1 }
  have counter : (dropped.pages pp).ppRef = (vm.pages pp).ppRef - 1 := by simp [dropped, setPage]
  have link : (dropped.pages pp).ppLink = none := by simp [dropped, setPage, unlinked]
  have relabelled : dropped.ledger = { vm.ledger with
      count := update vm.ledger.count pp (vm.ledger.count pp - 1) } :=
    setPage_ref_ledger vm pp _
  have unfolded : vm.pageDecref pp = if (dropped.pages pp).ppRef = 0 then dropped.pageFree pp
    else .ok dropped :=
    rfl
  have decided : vm.ledger.count pp = (vm.pages pp).ppRef := rfl
  by_cases last : (vm.pages pp).ppRef - 1 = 0
  · obtain ⟨vm', done, given, same⟩ := pageFree_ok (counter.trans last) link
    refine ⟨vm', ?_, ?_, ⟨same.npages, same.pseSupport, same.kernPgdir, same.mem⟩⟩
    · rw [unfolded, counter, if_pos last, done]
    · rw [given, relabelled, Ledger.detach, if_pos (decided ▸ last)]
  · refine ⟨dropped, ?_, ?_, ⟨rfl, rfl, rfl, rfl⟩⟩
    · rw [unfolded, counter, if_neg last]
    · rw [relabelled, Ledger.detach, if_neg (decided ▸ last)]

end Counters

end Jos.Kern.Pmap
