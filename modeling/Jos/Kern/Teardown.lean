import Jos.Shared.Run
import Jos.Kern.PageMap

namespace Jos.Kern.Pmap

open Jos.Shared
open Function

variable {I : Type} [Fintype I] [DecidableEq I] {vm vm' : Pmap} {dir : I → Option Nat}
  {managed : Nat → Prop} {free : List Nat} {i : I} {g pt : Nat} {d : Index}

structure Shrunk (managed : Nat → Prop) (dir : I → Option Nat) (i : I) (vm vm' : Pmap) : Prop where
  same : Same managed vm vm'
  refs : ∀ q, refs (vm'.target dir) q ≤ refs (vm.target dir) q
  pte : ∀ j e u, j ≠ i → vm'.pte dir j e u = vm.pte dir j e u
  tables : ∀ j e, j ≠ i → vm'.table dir j e = vm.table dir j e

omit [DecidableEq I] in
theorem Shrunk.refl (vm : Pmap) : Shrunk managed dir i vm vm :=
  ⟨.refl vm, fun _ => le_refl _, fun _ _ _ _ => rfl, fun _ _ _ => rfl⟩

omit [DecidableEq I] in
theorem Shrunk.trans {vm'' : Pmap} (first : Shrunk managed dir i vm vm')
    (second : Shrunk managed dir i vm' vm'') : Shrunk managed dir i vm vm'' where
  same := first.same.trans second.same
  refs q := (second.refs q).trans (first.refs q)
  pte j e u other := (second.pte j e u other).trans (first.pte j e u other)
  tables j e other := (second.tables j e other).trans (first.tables j e other)

theorem refs_update_none_le {S : Type} [Fintype S] [DecidableEq S] (target : S → Option Nat) (site : S)
    (q : Nat) : refs (update target site none) q ≤ refs target q := by
  have change := refs_update target site none q
  simp only [reduceCtorEq, if_false] at change
  omega

theorem pageRemove_ok (va : Word) (inv : vm.Inv dir managed [] free) (own : dir i = some g)
    (user : (pdx va).val < npdUser) (fits : ∀ q, refs (vm.target dir) q < 2 ^ 16) :
    ∃ vm' free', vm.pageRemove g va = .ok vm' ∧ vm'.Inv dir managed [] free' ∧
      Shrunk managed dir i vm vm' ∧ vm'.table dir = vm.table dir ∧
      (∀ j e u, ¬(j = i ∧ e = pdx va ∧ u = ptx va) → vm'.pte dir j e u = vm.pte dir j e u) ∧
      pteTarget (vm'.pte dir i (pdx va) (ptx va)) = none := by
  cases mapped : pteTarget (vm.pte dir i (pdx va) (ptx va)) with
  | none =>
    exact ⟨vm, free, pageRemove_none inv own user mapped, inv, .refl vm, rfl, fun _ _ _ _ => rfl, mapped⟩
  | some p =>
    have refers : vm.target dir (.leaf i (pdx va) (ptx va)) = some p := mapped
    obtain ⟨vm', done, counters, same, tables, ptes, targets⟩ := pageRemove_some inv own mapped
    have others : ∀ j e u, ¬(j = i ∧ e = pdx va ∧ u = ptx va) → vm'.pte dir j e u = vm.pte dir j e u := by
      intro j e u other
      rw [ptes, if_neg other]
    refine ⟨vm', _, done, inv.detach refers (fits p) (by simp) counters same targets,
      ⟨same, ?_, ?_, ?_⟩, tables, others, ?_⟩
    · intro q
      rw [targets]
      exact refs_update_none_le _ _ q
    · exact fun j e u other => others j e u fun here => other here.1
    · exact fun j e _ => by rw [tables]
    · rw [ptes, if_pos ⟨rfl, rfl, rfl⟩]
      simp

structure TableDone (managed : Nat → Prop) (dir : I → Option Nat) (i : I) (d : Index) (vm : Pmap)
    (done : List Index) (vm' : Pmap) : Prop where
  inv : ∃ free, vm'.Inv dir managed [] free
  shrunk : Shrunk managed dir i vm vm'
  tables : vm'.table dir = vm.table dir
  empty : ∀ u ∈ done, pteTarget (vm'.pte dir i d u) = none

theorem TableDone.round (own : dir i = some g) (user : d.val < npdUser)
    (found : vm.table dir i d = some pt) (fits : ∀ q, refs (vm.target dir) q < 2 ^ 16) {done : List Index}
    (before : TableDone managed dir i d vm done vm') (t : Index) :
    ∃ vm'', (if vm'.load (pt, t) &&& pteP ≠ 0 then vm'.pageRemove g (pgaddr d t 0) else .ok vm') =
    .ok vm'' ∧
      TableDone managed dir i d vm (done ++ [t]) vm'' := by
  obtain ⟨⟨free, inv⟩, shrunk, tables, empty⟩ := before
  have word : vm'.pte dir i d t = vm'.load (pt, t) := pte_of_table (by rw [tables, found]) t
  by_cases present : vm'.load (pt, t) &&& pteP ≠ 0
  · have user' : (pdx (pgaddr d t 0)).val < npdUser := by rwa [pdx_pgaddr]
    obtain ⟨vm'', free'', removed, inv'', shrunk'', tables'', ptes, cleared⟩ :=
      pageRemove_ok (pgaddr d t 0) inv own user' fun q => (shrunk.refs q).trans_lt (fits q)
    rw [pdx_pgaddr, ptx_pgaddr] at ptes cleared
    refine ⟨vm'', by rw [if_pos present, removed], ⟨free'', inv''⟩, shrunk.trans shrunk'',
      tables''.trans tables, ?_⟩
    intro u member
    by_cases same : u = t
    · exact same ▸ cleared
    · rw [ptes i d u fun here => same here.2.2]
      exact empty u (by simpa [same] using member)
  · refine ⟨vm', by rw [if_neg present], ⟨free, inv⟩, shrunk, tables, ?_⟩
    intro u member
    by_cases same : u = t
    · subst same
      rw [word, pteTarget_eq_none]
      simpa using present
    · exact empty u (by simpa [same] using member)

theorem freeTable_ok (inv : vm.Inv dir managed [] free) (own : dir i = some g) (user : d.val < npdUser)
    (found : vm.table dir i d = some pt) (fits : ∀ q, refs (vm.target dir) q < 2 ^ 16) :
    ∃ vm', vm.freeTable g d pt = .ok vm' ∧ TableDone managed dir i d vm indices vm' :=
  foldlM_ok _ (TableDone managed dir i d vm) indices
    ⟨⟨free, inv⟩, .refl vm, rfl, by simp⟩ fun _ t _ _ before => before.round own user found fits t

structure UserDone (managed : Nat → Prop) (dir : I → Option Nat) (i : I) (vm : Pmap) (done : List Index)
    (vm' : Pmap) : Prop where
  inv : ∃ free, vm'.Inv dir managed [] free
  shrunk : Shrunk managed dir i vm vm'
  empty : ∀ e ∈ done, vm'.table dir i e = none

theorem dropTable_ok (inv : vm.Inv dir managed [] free) (own : dir i = some g) (user : d.val < npdUser)
    (found : vm.table dir i d = some pt) (fits : refs (vm.target dir) pt < 2 ^ 16)
    (empty : ∀ u, pteTarget (vm.pte dir i d u) = none) :
    ∃ vm' free', (vm.store (g, d) 0).pageDecref pt = .ok vm' ∧ vm'.Inv dir managed [] free' ∧
      Shrunk managed dir i vm vm' ∧
      ∀ j e, vm'.table dir j e = if j = i ∧ e = d then none else vm.table dir j e := by
  have refers : vm.target dir (.table i d) = some pt := found
  have unlinked := inv.balanced.unlinked pt (inv.target_managed refers) (inv.balanced.notMem_free refers)
  obtain ⟨vm', done, counters, sameMem⟩ :=
    pageDecref_ok (show ((vm.store (g, d) 0).pages pt).ppLink = none from unlinked)
  have tables : ∀ j e, vm'.table dir j e = if j = i ∧ e = d then none else vm.table dir j e := by
    intro j e
    rw [table_of_mem_eq sameMem.mem, table_store_dir inv.owned own user]
    simp
  have ptes : ∀ j e u, ¬(j = i ∧ e = d) → vm'.pte dir j e u = vm.pte dir j e u := by
    intro j e u other
    rw [pte_of_mem_eq sameMem.mem, pte_store_dir inv.owned own user 0 other]
  have targets : vm'.target dir = update (vm.target dir) (.table i d) none := by
    funext site
    rcases site with j | ⟨j, e⟩ | ⟨j, e, u⟩
    · simp [target]
    · by_cases same : j = i ∧ e = d
      · obtain ⟨rfl, rfl⟩ := same
        simp [target, tables]
      · rw [update_of_ne (by simpa using same)]
        simp [target, tables, same]
    · rw [update_of_ne (by simp)]
      by_cases same : j = i ∧ e = d
      · obtain ⟨rfl, rfl⟩ := same
        have gone : vm'.table dir j e = none := by rw [tables, if_pos ⟨rfl, rfl⟩]
        simp [target, pte_of_no_table gone, empty u]
      · simp [target, ptes j e u same]
  have same : Same managed vm vm' :=
    (Same.store vm (inv.target_managed (show vm.target dir (.dir i) = some g from own)) 0).trans
      (sameMem.same managed)
  refine ⟨vm', _, done, inv.detach refers fits (by simp) counters same targets,
    ⟨same, ?_, ?_, ?_⟩, tables⟩
  · intro q
    rw [targets]
    exact refs_update_none_le _ _ q
  · exact fun j e u other => ptes j e u fun here => other here.1
  · exact fun j e other => by rw [tables, if_neg fun here => other here.1]

theorem UserDone.round (own : dir i = some g) (fits : ∀ q, refs (vm.target dir) q < 2 ^ 16)
    {done : List Index} (before : UserDone managed dir i vm done vm') (user : d.val < npdUser) :
    ∃ vm'', vm'.freeEntry g d = .ok vm'' ∧ UserDone managed dir i vm (done ++ [d]) vm'' := by
  obtain ⟨⟨free, inv⟩, shrunk, empty⟩ := before
  have word : vm'.table dir i d = pteTarget (vm'.mem g d) := table_eq user own
  by_cases present : vm'.load (g, d) &&& pteP = 0
  · refine ⟨vm', by rw [freeEntry, if_pos present], ⟨free, inv⟩, shrunk, ?_⟩
    intro e member
    by_cases same : e = d
    · rw [same, word, pteTarget_eq_none]
      exact present
    · exact empty e (by simpa [same] using member)
  · have found : vm'.table dir i d = some (pgnum (vm'.load (g, d))) :=
      word.trans (pteTarget_eq_some.mpr ⟨present, rfl⟩)
    have fits' : ∀ q, refs (vm'.target dir) q < 2 ^ 16 := fun q => (shrunk.refs q).trans_lt (fits q)
    have bound := inv.target_bound (show vm'.target dir (.table i d) = some _ from found)
    obtain ⟨vm₁, emptied, ⟨⟨free₁, inv₁⟩, shrunk₁, tables₁, empty₁⟩⟩ :=
      freeTable_ok inv own user found fits'
    have found₁ : vm₁.table dir i d = some (pgnum (vm'.load (g, d))) := by rw [tables₁, found]
    obtain ⟨vm₂, free₂, dropped, inv₂, shrunk₂, tables₂⟩ := dropTable_ok inv₁ own user found₁
      ((shrunk₁.refs _).trans_lt (fits' _)) fun u => empty₁ u (mem_indices u)
    refine ⟨vm₂, ?_, ⟨free₂, inv₂⟩, (shrunk.trans shrunk₁).trans shrunk₂, ?_⟩
    · have bound₁ : pgnum (vm'.load (g, d)) < vm₁.npages := shrunk₁.same.npages ▸ bound
      have table : vm'.kaddr (pteAddr (vm'.load (g, d))) = .ok (pgnum (vm'.load (g, d))) := by
        rw [kaddr_ok (by rw [pgnum_pteAddr]; exact bound), pgnum_pteAddr]
      have page : (vm₁.store (g, d) 0).pa2page (pteAddr (vm'.load (g, d))) =
          .ok (pgnum (vm'.load (g, d))) := by
        rw [pa2page_ok (by rw [pgnum_pteAddr]; exact bound₁), pgnum_pteAddr]
      rw [freeEntry, if_neg present]
      simp only [bind, Except.bind, table, emptied, page, dropped]
    · intro e member
      rw [tables₂]
      by_cases same : e = d
      · rw [if_pos ⟨rfl, same⟩]
      · rw [if_neg fun here => same here.2, tables₁]
        exact empty e (by simpa [same] using member)

theorem freeUser_ok (inv : vm.Inv dir managed [] free) (own : dir i = some g)
    (fits : ∀ q, refs (vm.target dir) q < 2 ^ 16) :
    ∃ vm' free', vm.freeUser g = .ok vm' ∧ vm'.Inv dir managed [] free' ∧ Shrunk managed dir i vm vm' ∧
      ∀ d, vm'.table dir i d = none := by
  obtain ⟨vm', done, ⟨free', inv'⟩, shrunk, empty⟩ := foldlM_ok (fun vm d => vm.freeEntry g d)
    (UserDone managed dir i vm) (indices.filter (·.val < npdUser))
    ⟨⟨free, inv⟩, .refl vm, by simp⟩ fun _ d _ member before =>
      before.round own fits (by simpa using (List.mem_filter.mp member).2)
  refine ⟨vm', free', done, inv', shrunk, fun d => ?_⟩
  by_cases user : d.val < npdUser
  · exact empty d (by simpa [mem_indices] using user)
  · simp [table, user]

theorem dropDir_ok (inv : vm.Inv dir managed [] free) (own : dir i = some g)
    (fits : refs (vm.target dir) g < 2 ^ 16) (empty : ∀ d, vm.table dir i d = none) :
    ∃ vm' free', vm.pageDecref g = .ok vm' ∧ vm'.Inv (update dir i none) managed [] free' ∧
      SameMem vm vm' ∧ vm'.target (update dir i none) =
        update (vm.target dir) (.dir i) none := by
  have refers : vm.target dir (.dir i) = some g := own
  have unlinked := inv.balanced.unlinked g (inv.target_managed refers) (inv.balanced.notMem_free refers)
  obtain ⟨vm', done, counters, sameMem⟩ := pageDecref_ok unlinked
  have tables : ∀ j e, vm'.table (update dir i none) j e = vm.table dir j e := by
    intro j e
    by_cases same : j = i
    · subst same
      rw [empty]
      simp [table]
    · simp [table, same, sameMem.mem]
  have targets : vm'.target (update dir i none) = update (vm.target dir) (.dir i) none := by
    funext site
    rcases site with j | ⟨j, e⟩ | ⟨j, e, u⟩
    · by_cases same : j = i <;> simp [target, same]
    · simp [target, tables]
    · simp [target, pte, tables, sameMem.mem]
  exact ⟨vm', _, done, inv.detach refers fits (by simp) counters (sameMem.same managed) targets, sameMem,
    targets⟩

end Jos.Kern.Pmap
