import Jos.Kern.PmapSpec

namespace Jos.Kern.Pmap

open Jos.Shared
open Function

variable {I : Type} [Fintype I] {vm : Pmap} {dir : I → Option Nat} {managed : Nat → Prop}
  {held free rest : List Nat} {i : I} {g n : Nat} {va : Word}

theorem pgdirWalk_found {pt : Nat} (pse : vm.pseSupport ≠ 1)
    (refers : pteTarget (vm.mem g (pdx va)) = some pt) (bound : pt < vm.npages) (create : Bool) :
    vm.pgdirWalk g va create = .ok (vm, some (pt, ptx va)) := by
  obtain ⟨present, number⟩ := pteTarget_eq_some.mp refers
  have inside : pgnum (pteAddr (vm.load (g, pdx va))) = pt := (pgnum_pteAddr _).trans number
  rw [pgdirWalk, if_neg (fun large => pse large.1), if_neg (by simpa [load] using present),
    kaddr_ok (by rw [inside]; exact bound), inside]
  rfl

theorem pgdirWalk_present {pt : Nat} (inv : vm.Inv dir managed held free) (own : dir i = some g)
    (found : vm.table dir i (pdx va) = some pt) (create : Bool) :
    vm.pgdirWalk g va create = .ok (vm, some (pt, ptx va)) := by
  obtain ⟨-, g', own', refers⟩ := table_user found
  obtain rfl : g = g' := Option.some.inj (own.symm.trans own')
  exact pgdirWalk_found inv.pse refers
    (inv.target_bound (show vm.target dir (.table i (pdx va)) = some pt from found)) create

theorem pgdirWalk_absent (inv : vm.Inv dir managed held free) (own : dir i = some g)
    (user : (pdx va).val < npdUser) (absent : vm.table dir i (pdx va) = none) :
    vm.pgdirWalk g va false = .ok (vm, none) := by
  rw [table_eq user own, pteTarget_eq_none] at absent
  rw [pgdirWalk, if_neg (fun large => inv.pse large.1), if_pos (by simpa [load] using absent), if_pos rfl]

theorem pgdirWalk_full (inv : vm.Inv dir managed held []) (own : dir i = some g)
    (user : (pdx va).val < npdUser) (absent : vm.table dir i (pdx va) = none) :
    vm.pgdirWalk g va true = .ok (vm, none) := by
  rw [table_eq user own, pteTarget_eq_none] at absent
  rw [pgdirWalk, if_neg (fun large => inv.pse large.1), if_pos (by simpa [load] using absent),
    if_neg (by decide), pageAlloc_nil inv]
  rfl

section NewTable

def withTable (vm : Pmap) (g : Nat) (d : Index) (n : Nat) : Pmap :=
  let vm := vm.taken n true
  (vm.setPage n { vm.pages n with ppRef := 1 }).store (g, d) (entry n (pteU ||| pteW))

theorem pgdirWalk_create (inv : vm.Inv dir managed held (n :: rest)) (own : dir i = some g)
    (user : (pdx va).val < npdUser) (absent : vm.table dir i (pdx va) = none) :
    vm.pgdirWalk g va true = .ok (vm.withTable g (pdx va) n, some (n, ptx va)) := by
  rw [table_eq user own, pteTarget_eq_none] at absent
  have member := inv.balanced.freeManaged n List.mem_cons_self
  have word : page2pa n ||| pteP ||| pteU ||| pteW = entry n (pteU ||| pteW) := by
    rw [entry, BitVec.or_assoc, BitVec.or_assoc, BitVec.or_assoc, BitVec.or_comm pteP]
  have stored : (vm.withTable g (pdx va) n).load (g, pdx va) = entry n (pteU ||| pteW) := by
    simp [withTable, store, load]
  have number : pgnum (pteAddr ((vm.withTable g (pdx va) n).load (g, pdx va))) = n := by
    rw [pgnum_pteAddr, stored, pgnum_entry (inv.small member) (by decide)]
  have bound : n < (vm.withTable g (pdx va) n).npages := inv.bound n member
  have table : (vm.withTable g (pdx va) n).kaddr
      (pteAddr ((vm.withTable g (pdx va) n).load (g, pdx va))) = .ok n := by
    rw [kaddr_ok (by rw [number]; exact bound), number]
  rw [pgdirWalk, if_neg (fun large => inv.pse large.1), if_pos (by simpa [load] using absent),
    if_neg (by decide), pageAlloc_cons inv]
  simp only [bind, Except.bind, word]
  exact congrArg (fun x => x.bind fun pt => Except.ok (vm.withTable g (pdx va) n,
    some (pt, ptx va))) table

variable [DecidableEq I]

theorem withTable_table (inv : vm.Inv dir managed held (n :: rest)) (own : dir i = some g) {d : Index}
    (user : d.val < npdUser) (j : I) (e : Index) :
    (vm.withTable g d n).table dir j e = if j = i ∧ e = d then some n else vm.table dir j e := by
  have member := inv.balanced.freeManaged n List.mem_cons_self
  have owned : ((vm.taken n true).setPage n { (vm.taken n true).pages n with ppRef := 1 }).Owned dir :=
    (taken_inv inv true).owned
  have stored := table_store_dir owned own user (entry n (pteU ||| pteW)) j e
  rw [pteTarget_entry (inv.small member) (by decide)] at stored
  rw [withTable, stored]
  exact congrArg (if j = i ∧ e = d then some n else ·)
    (congrFun (congrFun (taken_table inv true) j) e)

theorem withTable_pte (inv : vm.Inv dir managed held (n :: rest)) (own : dir i = some g) {d : Index}
    (user : d.val < npdUser) (absent : vm.table dir i d = none) :
    (vm.withTable g d n).pte dir = vm.pte dir := by
  funext j e t
  have owned : ((vm.taken n true).setPage n { (vm.taken n true).pages n with ppRef := 1 }).Owned dir :=
    (taken_inv inv true).owned
  by_cases same : j = i ∧ e = d
  · obtain ⟨rfl, rfl⟩ := same
    have found : (vm.withTable g e n).table dir j e = some n := by
      rw [withTable_table inv own user, if_pos ⟨rfl, rfl⟩]
    have other : n ≠ g := by
      rintro rfl
      exact inv.free_fresh List.mem_cons_self (.dir j) own
    rw [pte_of_table found, pte_of_no_table absent, withTable, mem_store_of_ne other]
    exact taken_mem_zero vm n t
  · have stored := pte_store_dir owned own user (entry n (pteU ||| pteW)) same t
    rw [withTable, stored]
    exact congrFun (congrFun (congrFun (taken_pte inv true) j) e) t

theorem withTable_target (inv : vm.Inv dir managed held (n :: rest)) (own : dir i = some g) {d : Index}
    (user : d.val < npdUser) (absent : vm.table dir i d = none) :
    (vm.withTable g d n).target dir = update (vm.target dir) (.table i d) (some n) := by
  have tables := withTable_table inv own user
  have ptes := withTable_pte inv own user absent
  funext site
  rcases site with j | ⟨j, e⟩ | ⟨j, e, t⟩
  · simp [target]
  · by_cases same : j = i ∧ e = d
    · obtain ⟨rfl, rfl⟩ := same
      simp [target, tables]
    · rw [update_of_ne (by simpa using same)]
      simp [target, tables, same]
  · simp [target, ptes]

omit [DecidableEq I] in
theorem withTable_same (inv : vm.Inv dir managed held (n :: rest)) (own : dir i = some g) (d : Index) :
    Same managed vm (vm.withTable g d n) := by
  have member := inv.balanced.freeManaged n List.mem_cons_self
  have dirMember := inv.target_managed (show vm.target dir (.dir i) = some g from own)
  exact ((taken_same vm true member).trans (Same.setPage _ _ _)).trans (Same.store _ dirMember _)

theorem withTable_inv (inv : vm.Inv dir managed held (n :: rest)) (own : dir i = some g) {d : Index}
    (user : d.val < npdUser) (absent : vm.table dir i d = none) :
    (vm.withTable g d n).Inv dir managed held rest := by
  have member := inv.balanced.freeManaged n List.mem_cons_self
  have fresh := inv.free_fresh List.mem_cons_self
  have ready := (taken_inv inv true).balanced
  have zero : (vm.taken n true).ledger.count n = 0 := by
    rw [ready.counted n member, taken_target inv, refs_eq_zero.mpr fresh]
    rfl
  have counters : (vm.withTable g d n).ledger = (vm.taken n true).ledger.attach n := by
    have relabelled := setPage_ref_ledger (vm.taken n true) n 1
    rw [Ledger.attach, zero]
    exact relabelled
  refine inv.transfer (withTable_same inv own d) ?_ ?_
  · rw [counters, withTable_target inv own user absent]
    rw [taken_target inv] at ready
    refine ready.attach_site absent member ?_ fun q other => by simp [other]
    exact fun again => (List.nodup_cons.mp inv.balanced.chain.nodup).1 again
  · rw [Owned, withTable_target inv own user absent]
    exact inv.owned.attach_fresh _ fresh

end NewTable

section Remove

theorem pageLookup_none (inv : vm.Inv dir managed held free) (own : dir i = some g)
    (user : (pdx va).val < npdUser) (unmapped : pteTarget (vm.pte dir i (pdx va) (ptx va)) = none) :
    vm.pageLookup g va = .ok none := by
  cases found : vm.table dir i (pdx va) with
  | none => rw [pageLookup, pgdirWalk_absent inv own user found]; rfl
  | some pt =>
    rw [pte_of_table found, pteTarget_eq_none] at unmapped
    rw [pageLookup, pgdirWalk_present inv own found]
    simp [bind, Except.bind, load, unmapped]

theorem pageLookup_some {pt p : Nat} (inv : vm.Inv dir managed held free) (own : dir i = some g)
    (found : vm.table dir i (pdx va) = some pt)
    (mapped : pteTarget (vm.pte dir i (pdx va) (ptx va)) = some p) :
    vm.pageLookup g va = .ok (some (p, (pt, ptx va))) := by
  have bound := inv.target_bound (show vm.target dir (.leaf i (pdx va) (ptx va)) = some p from mapped)
  rw [pte_of_table found, pteTarget_eq_some] at mapped
  obtain ⟨present, number⟩ := mapped
  have inside : pgnum (pteAddr (vm.load (pt, ptx va))) = p := (pgnum_pteAddr _).trans number
  have page : vm.pa2page (pteAddr (vm.load (pt, ptx va))) = .ok p := by
    rw [pa2page_ok (by rw [inside]; exact bound), inside]
  have small : ¬(vm.pseSupport = 1 ∧ vm.load (pt, ptx va) &&& ptePS ≠ 0) := fun large => inv.pse large.1
  rw [pageLookup, pgdirWalk_present inv own found]
  simp only [bind, Except.bind, page, if_neg small]
  rw [if_neg (by simpa [load] using present)]

theorem pageRemove_none (inv : vm.Inv dir managed held free) (own : dir i = some g)
    (user : (pdx va).val < npdUser) (unmapped : pteTarget (vm.pte dir i (pdx va) (ptx va)) = none) :
    vm.pageRemove g va = .ok vm := by
  rw [pageRemove, pageLookup_none inv own user unmapped]
  rfl

variable [DecidableEq I]

theorem pageRemove_some {p : Nat} (inv : vm.Inv dir managed held free) (own : dir i = some g)
    (mapped : pteTarget (vm.pte dir i (pdx va) (ptx va)) = some p) :
    ∃ vm', vm.pageRemove g va = .ok vm' ∧ vm'.ledger = vm.ledger.detach p ∧ Same managed vm vm' ∧
      vm'.table dir = vm.table dir ∧
      (∀ j e u, vm'.pte dir j e u =
        if j = i ∧ e = pdx va ∧ u = ptx va then 0 else vm.pte dir j e u) ∧
      vm'.target dir = update (vm.target dir) (.leaf i (pdx va) (ptx va)) none := by
  obtain ⟨pt, found, -⟩ := table_of_pte mapped
  have refers : vm.target dir (.leaf i (pdx va) (ptx va)) = some p := mapped
  have unlinked := inv.balanced.unlinked p (inv.target_managed refers) (inv.balanced.notMem_free refers)
  obtain ⟨dropped, done, counters, sameMem⟩ := pageDecref_ok unlinked
  have found' : dropped.table dir i (pdx va) = some pt := by rw [table_of_mem_eq sameMem.mem, found]
  have owned : dropped.Owned dir := by
    rw [Owned, target_of_mem_eq sameMem.mem]
    exact inv.owned
  have inside := inv.target_managed (show vm.target dir (.table i (pdx va)) = some pt from found)
  refine ⟨dropped.store (pt, ptx va) 0, ?_, counters, ?_, ?_, ?_, ?_⟩
  · rw [pageRemove, pageLookup_some inv own found mapped]
    simp only [bind, Except.bind, done]
  · exact (sameMem.same managed).trans (Same.store dropped inside 0)
  · rw [table_store_leaf owned found', table_of_mem_eq sameMem.mem]
  · intro j e u
    rw [pte_store_leaf owned found', pte_of_mem_eq sameMem.mem]
  · rw [target_store_leaf owned found', target_of_mem_eq sameMem.mem]
    simp

end Remove

section Insert

variable [DecidableEq I]

structure Wrote (managed : Nat → Prop) (dir : I → Option Nat) (i : I) (d t : Index) (value : Word)
    (vm vm' : Pmap) : Prop where
  same : Same managed vm vm'
  pte : ∀ j e u, vm'.pte dir j e u = if j = i ∧ e = d ∧ u = t then value else vm.pte dir j e u
  tables : ∀ j e, ¬(j = i ∧ e = d) → vm'.table dir j e = vm.table dir j e
  found : ∃ pt, vm'.table dir i d = some pt ∧ (vm.table dir i d = none ∨ vm.table dir i d = some pt)

omit [Fintype I] in
theorem Wrote.trans {vm' vm'' : Pmap} {d t : Index} {value value' : Word}
    (first : Wrote managed dir i d t value vm vm') (second : Wrote managed dir i d t value' vm' vm'') :
    Wrote managed dir i d t value' vm vm'' := by
  obtain ⟨pt, found, before⟩ := first.found
  obtain ⟨pt', found', before'⟩ := second.found
  refine ⟨first.same.trans second.same, ?_, ?_, pt', found', ?_⟩
  · intro j e u
    rw [second.pte, first.pte]
    split <;> rfl
  · intro j e other
    rw [second.tables j e other, first.tables j e other]
  · rcases before' with absent | found''
    · simp [found] at absent
    · rwa [← found'', found]

theorem pgdirWalk_true (inv : vm.Inv dir managed held free) (own : dir i = some g)
    (user : (pdx va).val < npdUser) :
    (vm.pgdirWalk g va true = .ok (vm, none) ∧ free = [] ∧ vm.table dir i (pdx va) = none) ∨
    ∃ vm' free' pt, vm.pgdirWalk g va true = .ok (vm', some (pt, ptx va)) ∧
      vm'.Inv dir managed held free' ∧ (∀ p, p ∈ free' → p ∈ free) ∧
      Wrote managed dir i (pdx va) (ptx va) (vm.pte dir i (pdx va) (ptx va)) vm vm' ∧
      vm'.table dir i (pdx va) = some pt ∧
      (vm'.target dir = vm.target dir ∨ ∃ n ∈ free, vm.target dir (.table i (pdx va)) = none ∧
        vm'.target dir = update (vm.target dir) (.table i (pdx va)) (some n)) := by
  have unchanged : ∀ vm' : Pmap, vm'.pte dir = vm.pte dir → ∀ j e u, vm'.pte dir j e u =
      if j = i ∧ e = pdx va ∧ u = ptx va then vm.pte dir i (pdx va) (ptx va) else vm.pte dir j e u := by
    intro vm' same j e u
    rw [same]
    split
    next here => rw [here.1, here.2.1, here.2.2]
    · rfl
  cases found : vm.table dir i (pdx va) with
  | some pt =>
    exact .inr ⟨vm, free, pt, pgdirWalk_present inv own found true, inv, fun _ => id,
      ⟨.refl vm, unchanged vm rfl, fun _ _ _ => rfl, pt, found, .inr found⟩, found, .inl rfl⟩
  | none =>
    cases free with
    | nil => exact .inl ⟨pgdirWalk_full inv own user found, rfl, rfl⟩
    | cons n rest =>
      have tables := withTable_table inv own user
      have here : (vm.withTable g (pdx va) n).table dir i (pdx va) = some n := by
        rw [tables, if_pos ⟨rfl, rfl⟩]
      refine .inr ⟨vm.withTable g (pdx va) n, rest, n, pgdirWalk_create inv own user found,
        withTable_inv inv own user found, fun p => List.mem_cons_of_mem n,
        ⟨withTable_same inv own _, unchanged _ (withTable_pte inv own user found), ?_,
          n, here, .inl found⟩, here,
        .inr ⟨n, List.mem_cons_self, found, withTable_target inv own user found⟩⟩
      intro j e other
      rw [tables, if_neg other]

variable {pp pt : Nat} {d t : Index} (perm : Word)

omit [Fintype I] in
theorem store_wrote (owned : vm.Owned dir) (found : vm.table dir i d = some pt)
    (inside : managed pt) (value : Word) :
    Wrote managed dir i d t value vm (vm.store (pt, t) value) := by
  have tables := table_store_leaf owned found t value
  exact ⟨Same.store vm inside value, pte_store_leaf owned found t value, fun j e _ => by rw [tables], pt,
    by rw [tables, found], .inr found⟩

theorem attachLeaf_wrote (inv : vm.Inv dir managed held free) (found : vm.table dir i d = some pt) :
    Wrote managed dir i d t (entry pp perm) vm
      ((vm.setPage pp { vm.pages pp with ppRef := (vm.pages pp).ppRef + 1 }).store (pt,
      t) (entry pp perm)) := by
  have owned : (vm.setPage pp { vm.pages pp with ppRef := (vm.pages pp).ppRef + 1 }).Owned dir :=
    inv.owned
  have inside := inv.target_managed (show vm.target dir (.table i d) = some pt from found)
  obtain ⟨same, pte, tables, present⟩ := store_wrote (t := t) owned found inside (entry pp perm)
  exact ⟨(Same.setPage vm pp _).trans same, pte, tables, present⟩

theorem attachLeaf_inv {held' : List Nat} (inv : vm.Inv dir managed held free)
    (found : vm.table dir i d = some pt) (vacant : vm.target dir (.leaf i d t) = none)
    (member : managed pp) (absent : pp ∉ free) (heldSame : ∀ q, q ≠ pp → (q ∈ held' ↔ q ∈ held))
    (data : ∀ site, site.IsNode → vm.target dir site ≠ some pp) (low : perm.toNat < 2 ^ 12) :
    let vm' := (vm.setPage pp { vm.pages pp with ppRef := (vm.pages pp).ppRef + 1 }).store (pt, t)
      (entry pp perm)
    vm'.Inv dir managed held' free ∧ Wrote managed dir i d t (entry pp perm) vm vm' ∧
      vm'.target dir = update (vm.target dir) (.leaf i d t) (some pp) := by
  intro vm'
  have owned : (vm.setPage pp { vm.pages pp with ppRef := (vm.pages pp).ppRef + 1 }).Owned dir :=
    inv.owned
  have counters : vm'.ledger = vm.ledger.attach pp := setPage_ref_ledger vm pp _
  have targets : vm'.target dir = update (vm.target dir) (.leaf i d t) (some pp) := by
    rw [target_store_leaf owned found, pteTarget_entry (inv.small member) low]
    rfl
  have wrote : Wrote managed dir i d t (entry pp perm) vm vm' := attachLeaf_wrote perm inv found
  refine ⟨inv.transfer wrote.same ?_ ?_, wrote, targets⟩
  · rw [counters, targets]
    exact inv.balanced.attach_site vacant member absent heldSame
  · rw [Owned, targets]
    exact inv.owned.attach_leaf i d t data

theorem replaceLeaf_inv (inv : vm.Inv dir managed held free)
    (found : vm.table dir i d = some pt) (mapped : vm.target dir (.leaf i d t) = some pp)
    (low : perm.toNat < 2 ^ 12) :
    (vm.store (pt, t) (entry pp perm)).Inv dir managed held free ∧
      Wrote managed dir i d t (entry pp perm) vm (vm.store (pt, t) (entry pp perm)) ∧
      (vm.store (pt, t) (entry pp perm)).target dir = vm.target dir := by
  have targets : (vm.store (pt, t) (entry pp perm)).target dir = vm.target dir := by
    rw [target_store_leaf inv.owned found,
      pteTarget_entry (inv.small (inv.target_managed mapped)) low, ← mapped, update_eq_self]
  have inside := inv.target_managed (show vm.target dir (.table i d) = some pt from found)
  have wrote : Wrote managed dir i d t (entry pp perm) vm (vm.store (pt, t) (entry pp perm)) :=
    store_wrote inv.owned found inside _
  refine ⟨inv.transfer wrote.same ?_ ?_, wrote, targets⟩
  · rw [targets]
    exact inv.balanced
  · rw [Owned, targets]
    exact inv.owned

def insertAt (vm : Pmap) (pgdir pp : Nat) (va perm : Word) (pte : Ptr) : Except Panic (Pmap × Bool) :=
  if vm.load pte &&& pteP ≠ 0 ∧ pteAddr (vm.load pte) = page2pa pp then
    .ok (vm.store pte (entry pp perm), true)
  else do
    let vm ← if vm.load pte &&& pteP ≠ 0 then vm.pageRemove pgdir va else .ok vm
    let vm := vm.setPage pp { vm.pages pp with ppRef := (vm.pages pp).ppRef + 1 }
    .ok (vm.store pte (entry pp perm), true)

theorem pageInsert_eq {vm₁ : Pmap} {pte : Ptr} (walk : vm.pgdirWalk g va true = .ok (vm₁, some pte)) :
    vm.pageInsert g pp va perm = vm₁.insertAt g pp va perm pte := by
  rw [pageInsert, walk]
  rfl

theorem insertAt_ok (inv : vm.Inv dir managed held free) (own : dir i = some g)
    (found : vm.table dir i (pdx va) = some pt) (member : managed pp) (absent : pp ∉ free)
    (mine : ∀ q ∈ held, q = pp ∧ refs (vm.target dir) q = 0)
    (data : ∀ site, site.IsNode → vm.target dir site ≠ some pp) (low : perm.toNat < 2 ^ 12)
    (fits : ∀ q, refs (vm.target dir) q < 2 ^ 16) :
    ∃ vm' free', vm.insertAt g pp va perm (pt, ptx va) = .ok (vm', true) ∧ vm'.Inv dir managed [] free' ∧
      Wrote managed dir i (pdx va) (ptx va) (entry pp perm) vm vm' ∧
      vm'.target dir = update (vm.target dir) (.leaf i (pdx va) (ptx va)) (some pp) := by
  have word : vm.pte dir i (pdx va) (ptx va) = vm.load (pt, ptx va) := pte_of_table found (ptx va)
  have others : ∀ q, q ≠ pp → (q ∈ [] ↔ q ∈ held) := fun q other => by
    simpa using fun inside => other (mine q inside).1
  cases mapped : vm.target dir (.leaf i (pdx va) (ptx va)) with
  | none =>
    have empty : vm.load (pt, ptx va) &&& pteP = 0 := by
      rwa [← word, ← pteTarget_eq_none]
    obtain ⟨inv', wrote, targets⟩ :=
      attachLeaf_inv perm inv found mapped member absent others data low
    refine ⟨_, free, ?_, inv', wrote, targets⟩
    rw [insertAt, if_neg (fun same => same.1 empty), if_neg (fun present => present empty)]
    rfl
  | some old =>
    have refers : pteTarget (vm.load (pt, ptx va)) = some old :=
      word ▸ show pteTarget _ = some old from mapped
    obtain ⟨present, number⟩ := pteTarget_eq_some.mp refers
    by_cases same : old = pp
    · subst same
      have unheld : held = [] := List.eq_nil_iff_forall_not_mem.mpr fun q inside =>
        (refs_pos mapped).ne' ((mine q inside).1 ▸ (mine q inside).2)
      subst unheld
      obtain ⟨inv', wrote, targets⟩ := replaceLeaf_inv perm inv found mapped low
      refine ⟨_, free, ?_, inv', wrote, ?_⟩
      · rw [insertAt, if_pos ⟨present, (pteAddr_eq_page2pa (inv.small member)).mpr number⟩]
      · rw [targets, ← mapped, update_eq_self]
    · have once : old ∉ held := fun inside => same (mine old inside).1
      obtain ⟨vm₂, removed, counters, kept, tables, ptes, targets₂⟩ := pageRemove_some inv own mapped
      have inv₂ := inv.detach mapped (fits old) once counters kept targets₂
      have found₂ : vm₂.table dir i (pdx va) = some pt := by rw [tables, found]
      have absent₂ : pp ∉ (if refs (vm.target dir) old = 1 then old :: free else free) := by
        split <;> simp [absent, Ne.symm same]
      have data₂ : ∀ site, site.IsNode → vm₂.target dir site ≠ some pp := by
        intro site node
        rw [targets₂, update_of_ne (by rintro rfl; exact node)]
        exact data site node
      have vacant₂ : vm₂.target dir (.leaf i (pdx va) (ptx va)) = none := by
        rw [targets₂, update_self]
      have cleared : Wrote managed dir i (pdx va) (ptx va) 0 vm vm₂ :=
        ⟨kept, ptes, fun j e _ => by rw [tables], pt, found₂, .inr found⟩
      obtain ⟨inv', wrote, targets⟩ :=
        attachLeaf_inv perm inv₂ found₂ vacant₂ member absent₂ others data₂ low
      refine ⟨_, _, ?_, inv', cleared.trans wrote, ?_⟩
      · have other : pteAddr (vm.load (pt, ptx va)) ≠ page2pa pp := fun eq =>
          same (number.symm.trans ((pteAddr_eq_page2pa (inv.small member)).mp eq))
        rw [insertAt, if_neg (fun shortcut => other shortcut.2), if_pos present, removed]
        rfl
      · rw [targets, targets₂, update_idem]

theorem pageInsert_vacant (inv : vm.Inv dir managed [] free) (own : dir i = some g)
    (user : (pdx va).val < npdUser) (vacant : vm.target dir (.leaf i (pdx va) (ptx va)) = none)
    (member : managed pp) (absent : pp ∉ free) (data : ∀ site, site.IsNode → vm.target dir site ≠ some pp)
    (low : perm.toNat < 2 ^ 12) (room : vm.table dir i (pdx va) = none → free ≠ []) :
    ∃ vm' free', vm.pageInsert g pp va perm = .ok (vm', true) ∧ vm'.Inv dir managed [] free' ∧
      (∀ j e u, vm'.pte dir j e u =
        if j = i ∧ e = pdx va ∧ u = ptx va then entry pp perm else vm.pte dir j e u) ∧
      refs (vm'.target dir) pp = refs (vm.target dir) pp + 1 ∧
      free.length ≤ free'.length + if vm.table dir i (pdx va) = none then 1 else 0 := by
  have written : ∀ {vm₁ : Pmap} {free₁ : List Nat} {pt : Nat},
    vm.pgdirWalk g va true = .ok (vm₁, some (pt, ptx va)) →
      vm₁.Inv dir managed [] free₁ → vm₁.table dir i (pdx va) = some pt → vm₁.pte dir = vm.pte dir →
        pp ∉ free₁ →
      (∀ site, site.IsNode → vm₁.target dir site ≠ some pp) →
        refs (vm₁.target dir) pp = refs (vm.target dir) pp →
      ∃ vm', vm.pageInsert g pp va perm = .ok (vm', true) ∧ vm'.Inv dir managed [] free₁ ∧
        (∀ j e u, vm'.pte dir j e u =
          if j = i ∧ e = pdx va ∧ u = ptx va then entry pp perm else vm.pte dir j e u) ∧
        refs (vm'.target dir) pp = refs (vm.target dir) pp + 1 := by
    intro vm₁ free₁ pt walk inv₁ found same absent₁ data₁ count
    have vacant₁ : vm₁.target dir (.leaf i (pdx va) (ptx va)) = none := by
      rw [target, same]
      exact vacant
    have empty : vm₁.load (pt, ptx va) &&& pteP = 0 := by
      rw [← pteTarget_eq_none, load, ← pte_of_table found]
      exact vacant₁
    obtain ⟨inv', wrote, targets⟩ :=
      attachLeaf_inv perm inv₁ found vacant₁ member absent₁ (fun _ _ => Iff.rfl) data₁ low
    refine ⟨_, ?_, inv', fun j e u => ?_, ?_⟩
    · rw [pageInsert_eq perm walk, insertAt, if_neg (fun shortcut => shortcut.1 empty),
        if_neg (fun present => present empty)]
      rfl
    · rw [wrote.pte, same]
    · rw [targets, refs_attach vacant₁, if_pos rfl, count]
  cases found : vm.table dir i (pdx va) with
  | some pt =>
    obtain ⟨vm', done⟩ := written (pgdirWalk_present inv own found true) inv found rfl absent data rfl
    exact ⟨vm', free, done.1, done.2.1, done.2.2.1, done.2.2.2, by simp⟩
  | none =>
    obtain ⟨n, rest, rfl⟩ := List.exists_cons_of_ne_nil (room found)
    have other : pp ≠ n := fun same => absent (same ▸ List.mem_cons_self)
    have targets := withTable_target inv own user found
    have data₁ : ∀ site, site.IsNode → (vm.withTable g (pdx va) n).target dir site ≠ some pp := by
      intro site node
      rw [targets]
      by_cases here : site = .table i (pdx va)
      · simpa [here] using other.symm
      · rw [update_of_ne here]
        exact data site node
    have count : refs ((vm.withTable g (pdx va) n).target dir) pp = refs (vm.target dir) pp := by
      rw [targets, refs_attach (show vm.target dir (.table i (pdx va)) = none from found), if_neg other]
      rfl
    have here : (vm.withTable g (pdx va) n).table dir i (pdx va) = some n := by
      rw [withTable_table inv own user, if_pos ⟨rfl, rfl⟩]
    obtain ⟨vm', done⟩ :=
      written (pgdirWalk_create inv own user found) (withTable_inv inv own user found) here
      (withTable_pte inv own user found) (fun inside => absent (List.mem_cons_of_mem n inside))
      data₁ count
    exact ⟨vm', rest, done.1, done.2.1, done.2.2.1, done.2.2.2, by simp⟩

theorem walk_refs {vm₁ : Pmap} (inv : vm.Inv dir managed held free)
    (targets₁ : vm₁.target dir = vm.target dir ∨ ∃ n ∈ free, vm.target dir (.table i d) = none ∧
      vm₁.target dir = update (vm.target dir) (.table i d) (some n)) :
    vm₁.target dir (.leaf i d t) = vm.target dir (.leaf i d t) ∧
      ∀ q, refs (vm₁.target dir) q ≤ max 1 (refs (vm.target dir) q) ∧
        (q ∉ free → refs (vm₁.target dir) q = refs (vm.target dir) q) := by
  rcases targets₁ with same | ⟨n, inFree, vacant, targets⟩
  · simp [same]
  · refine ⟨by rw [targets, update_of_ne (by simp)], fun q => ?_⟩
    rw [targets, refs_attach vacant]
    by_cases new : q = n
    · subst new
      simp [inv.balanced.free_refs inFree, inFree]
    · simp [new]

theorem pageInsert_ok (inv : vm.Inv dir managed held free) (own : dir i = some g)
    (user : (pdx va).val < npdUser) (member : managed pp) (absent : pp ∉ free)
    (mine : ∀ q ∈ held, q = pp ∧ refs (vm.target dir) q = 0)
    (data : ∀ site, site.IsNode → vm.target dir site ≠ some pp) (low : perm.toNat < 2 ^ 12)
    (fits : ∀ q, refs (vm.target dir) q < 2 ^ 16) :
    (vm.pageInsert g pp va perm = .ok (vm, false) ∧ free = [] ∧ vm.table dir i (pdx va) = none) ∨
    ∃ vm' free', vm.pageInsert g pp va perm = .ok (vm', true) ∧ vm'.Inv dir managed [] free' ∧
      Wrote managed dir i (pdx va) (ptx va) (entry pp perm) vm vm' ∧
      ∀ q, refs (vm'.target dir) q ≤ if q = pp ∧ vm.target dir (.leaf i (pdx va) (ptx va)) ≠ some pp
        then refs (vm.target dir) q + 1 else max 1 (refs (vm.target dir) q) := by
  rcases pgdirWalk_true inv own user with ⟨walk, out, none⟩ |
    ⟨vm₁, free₁, pt, walk, inv₁, fewer, wrote₁, found, targets₁⟩
  · refine .inl ⟨?_, out, none⟩
    rw [pageInsert, walk]
    rfl
  right
  obtain ⟨leaf, counts⟩ := walk_refs (t := ptx va) inv targets₁
  have mine₁ : ∀ q ∈ held, q = pp ∧ refs (vm₁.target dir) q = 0 := by
    intro q inside
    obtain ⟨rfl, zero⟩ := mine q inside
    exact ⟨rfl, by rw [(counts q).2 absent, zero]⟩
  have data₁ : ∀ site, site.IsNode → vm₁.target dir site ≠ some pp := by
    intro site node
    rcases targets₁ with same | ⟨n, inFree, -, targets⟩
    · rw [same]
      exact data site node
    · rw [targets]
      by_cases here : site = .table i (pdx va)
      · subst here
        rw [update_self]
        rintro ⟨rfl⟩
        exact absent inFree
      · rw [update_of_ne here]
        exact data site node
  have fits₁ : ∀ q, refs (vm₁.target dir) q < 2 ^ 16 := fun q => by
    have bound := (counts q).1
    have small := fits q
    omega
  obtain ⟨vm', free', done, inv', wrote, targets⟩ := insertAt_ok perm inv₁ own found member
    (fun inside => absent (fewer pp inside)) mine₁ data₁ low fits₁
  refine ⟨vm', free', (pageInsert_eq perm walk).trans done, inv', wrote₁.trans wrote, fun q => ?_⟩
  have change := refs_update (vm₁.target dir) (.leaf i (pdx va) (ptx va)) (some pp) q
  rw [← targets, leaf] at change
  have bound := counts q
  by_cases here : q = pp
  · subst here
    by_cases already : vm.target dir (.leaf i (pdx va) (ptx va)) = some q <;>
      simp [already] at change ⊢ <;> grind
  · simp [here, Ne.symm here] at change ⊢
    omega

end Insert

end Jos.Kern.Pmap
