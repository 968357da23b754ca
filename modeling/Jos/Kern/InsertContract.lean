import Jos.Kern.Counters

namespace Jos.Kern.Pmap

open Jos.Shared

variable {I : Type} {vm vm' : Pmap} {dir : I → Option Nat} {managed : Nat → Prop}
  {held free : List Nat} {i : I} {g pp : Nat} {va perm : Word}

def lookedUp (vm : Pmap) (pgdir : Nat) (va : Word) : Except Panic (Option (Nat × Word)) := do
  match ← vm.pageLookup pgdir va with
  | none => .ok none
  | some (pp, pte) => .ok (some (pp, vm.load pte))

def OnFreeList (vm : Pmap) (pp : Nat) : Prop :=
  ∃ free, Chain (fun p => (vm.pages p).ppLink) vm.pageFreeList free ∧ pp ∈ free

structure Inserted (dir : I → Option Nat) (g pp : Nat) (va perm : Word) (vm vm' : Pmap) : Prop where
  mapped : ∃ pte, vm'.lookedUp g va = .ok (some (pp, pte)) ∧ pte &&& 0xFFF = perm ||| pteP
  others : ∀ g', (g' = vm.kernPgdir ∨ ∃ j, dir j = some g') → ∀ va', va' < utop →
    ¬(g' = g ∧ pdx va' = pdx va ∧ ptx va' = ptx va) → vm'.lookedUp g' va' = vm.lookedUp g' va'
  again : ∀ pte, vm.lookedUp g va = .ok (some (pp, pte)) →
    (vm'.pages pp).ppRef = (vm.pages pp).ppRef ∧ ¬vm'.OnFreeList pp
  first : (∀ pte, vm.lookedUp g va ≠ .ok (some (pp, pte))) →
    (vm'.pages pp).ppRef.toNat = (vm.pages pp).ppRef.toNat + 1
  replaced : ∀ old pte, old ≠ pp → vm.lookedUp g va = .ok (some (old, pte)) →
    (vm'.pages old).ppRef.toNat + 1 = (vm.pages old).ppRef.toNat ∧
      (vm'.OnFreeList old ↔ (vm.pages old).ppRef = 1)

def InsertContract (vm : Pmap) (dir : I → Option Nat) (g pp : Nat) (va perm : Word) : Prop :=
  ∃ vm' done, vm.pageInsert g pp va perm = .ok (vm', done) ∧
    if done then Inserted dir g pp va perm vm vm' else vm' = vm

section Lookups

structure Readable (vm : Pmap) (dir : I → Option Nat) : Prop where
  pse : vm.pseSupport ≠ 1
  bound : ∀ site p, vm.target dir site = some p → p < vm.npages

theorem Inv.readable [Fintype I] (inv : vm.Inv dir managed held free) : vm.Readable dir :=
  ⟨inv.pse, fun _ _ => inv.target_bound⟩

theorem lookedUp_empty (pse : vm.pseSupport ≠ 1) (absent : vm.mem g (pdx va) &&& pteP = 0) :
    vm.lookedUp g va = .ok none := by
  rw [lookedUp, pageLookup, pgdirWalk, if_neg (fun large => pse large.1),
    if_pos (by simpa [load] using absent), if_pos rfl]
  rfl

theorem lookedUp_eq (readable : vm.Readable dir) (own : dir i = some g) (user : va < utop) :
    vm.lookedUp g va = .ok ((pteTarget (vm.pte dir i (pdx va) (ptx va))).map fun p =>
      (p, vm.pte dir i (pdx va) (ptx va))) := by
  have low := pdx_lt_npdUser user
  cases found : vm.table dir i (pdx va) with
  | none =>
    rw [pte_of_no_table found, lookedUp_empty readable.pse]
    · rfl
    · rwa [table_eq low own, pteTarget_eq_none] at found
  | some pt =>
    obtain ⟨-, g', own', refers⟩ := table_user found
    obtain rfl : g = g' := Option.some.inj (own.symm.trans own')
    have walk := pgdirWalk_found readable.pse refers (readable.bound (.table i (pdx va)) pt found) false
    rw [lookedUp, pageLookup, walk, pte_of_table found]
    cases target : pteTarget (vm.mem pt (ptx va)) with
    | none =>
      rw [pteTarget_eq_none] at target
      simp [bind, Except.bind, load, target]
    | some p =>
      have bound :=
        readable.bound (.leaf i (pdx va) (ptx va)) p
        (by rw [Pmap.target, pte_of_table found, target])
      obtain ⟨present, number⟩ := pteTarget_eq_some.mp target
      have inside : pgnum (pteAddr (vm.load (pt, ptx va))) = p := (pgnum_pteAddr _).trans number
      have page : vm.pa2page (pteAddr (vm.load (pt, ptx va))) = .ok p := by
        rw [pa2page_ok (by rw [inside]; exact bound), inside]
      have small : ¬(vm.pseSupport = 1 ∧ vm.load (pt, ptx va) &&& ptePS ≠ 0) :=
        fun large => readable.pse large.1
      simp only [bind, Except.bind, page, if_neg small]
      rw [if_neg (by simpa [load] using present)]
      rfl

theorem lookedUp_some_iff (readable : vm.Readable dir) (own : dir i = some g) (user : va < utop)
    {p : Nat} : (∃ pte, vm.lookedUp g va = .ok (some (p, pte))) ↔
    vm.target dir (.leaf i (pdx va) (ptx va)) = some p := by
  rw [lookedUp_eq readable own user, Pmap.target]
  cases pteTarget (vm.pte dir i (pdx va) (ptx va)) <;> simp

end Lookups

section Cases

variable [Fintype I] [DecidableEq I]

structure Recounted (free : List Nat) (pp : Nat) (old : Option Nat) (vm vm' : Pmap) : Prop where
  count : (vm'.pages pp).ppRef = (vm.pages pp).ppRef + if old = some pp then 0 else 1
  dropped : ∀ p, old = some p → p ≠ pp → (vm'.pages p).ppRef = (vm.pages p).ppRef - 1
  list : ∃ free', Chain (fun p => (vm'.pages p).ppLink) vm'.pageFreeList free' ∧ pp ∉ free' ∧
    ∀ p, old = some p → p ≠ pp → (p ∈ free' ↔ (vm.pages p).ppRef = 1)

theorem pageInsert_cases (perm : Word) (inv : vm.Inv dir managed held free) (own : dir i = some g)
    (user : (pdx va).val < npdUser) (member : managed pp) (absent : pp ∉ free)
    (unused : ∀ q ∈ held, refs (vm.target dir) q = 0) (fits : ∀ q, refs (vm.target dir) q < 2 ^ 16) :
    (vm.pageInsert g pp va perm = .ok (vm, false) ∧ free = [] ∧ vm.table dir i (pdx va) = none) ∨
    ∃ vm', vm.pageInsert g pp va perm = .ok (vm', true) ∧ ¬(free = [] ∧ vm.table dir i (pdx va) = none) ∧
      Wrote managed dir i (pdx va) (ptx va) (entry pp perm) vm vm' ∧
      (∀ pt, vm'.table dir i (pdx va) = some pt → pt < vm'.npages) ∧
      Recounted free pp (vm.target dir (.leaf i (pdx va) (ptx va))) vm vm' := by
  rcases pgdirWalk_true inv own user with ⟨walk, out, missing⟩ |
    ⟨vm₁, free₁, pt, walk, inv₁, fewer, wrote₁, found, targets₁⟩
  · refine .inl ⟨?_, out, missing⟩
    rw [pageInsert, walk]
    rfl
  right
  obtain ⟨leaf, counts⟩ := walk_refs (t := ptx va) inv targets₁
  have room : ¬(free = [] ∧ vm.table dir i (pdx va) = none) := by
    rintro ⟨rfl, missing⟩
    rw [pgdirWalk_full inv own user missing] at walk
    cases walk
  have stable : ∀ {q}, managed q → q ∉ free → (vm₁.pages q).ppRef = (vm.pages q).ppRef := by
    intro q inside away
    have before := inv.balanced.counted q inside
    have after := inv₁.balanced.counted q inside
    rw [(counts q).2 away] at after
    exact after.trans before.symm
  have absent₁ : pp ∉ free₁ := fun inside => absent (fewer pp inside)
  have bound : pt < vm₁.npages :=
    inv₁.target_bound (show vm₁.target dir (.table i (pdx va)) = some pt from found)
  have word : vm₁.pte dir i (pdx va) (ptx va) = vm₁.load (pt, ptx va) := pte_of_table found (ptx va)
  -- Whatever the branch, the result differs from a state with the same tables in one entry.
  have tables : ∀ {vm' : Pmap}, Wrote managed dir i (pdx va) (ptx va) (entry pp perm) vm₁ vm' →
      ∀ pt', vm'.table dir i (pdx va) = some pt' → pt' < vm'.npages := by
    intro vm' wrote pt' found'
    obtain ⟨pt'', now, before⟩ := wrote.found
    rcases before with none | before
    · simp [found] at none
    · obtain rfl : pt = pt'' := Option.some.inj (found.symm.trans before)
      obtain rfl : pt = pt' := Option.some.inj (now.symm.trans found')
      rwa [wrote.same.npages]
  rw [pageInsert_eq perm walk, ← leaf]
  cases mapped : vm₁.target dir (.leaf i (pdx va) (ptx va)) with
  | none =>
    have empty : vm₁.load (pt, ptx va) &&& pteP = 0 := by
      rwa [← word, ← pteTarget_eq_none]
    have wrote : Wrote managed dir i (pdx va) (ptx va) (entry pp perm) vm₁ _ :=
      attachLeaf_wrote perm inv₁ found
    refine ⟨_, ?_, room, wrote₁.trans wrote, tables wrote,
      ?_, by rintro _ ⟨⟩, free₁, inv₁.balanced.chain.congr ?_, absent₁, by rintro _ ⟨⟩⟩
    · rw [insertAt, if_neg (fun same => same.1 empty), if_neg (fun present => present empty)]
      rfl
    · simp [store, setPage, stable member absent]
    · intro q _
      by_cases same : q = pp <;> simp [store, setPage, ledger, same]
  | some old =>
    have refers : pteTarget (vm₁.load (pt, ptx va)) = some old :=
      word ▸ show pteTarget _ = some old from mapped
    have refers₀ : vm.target dir (.leaf i (pdx va) (ptx va)) = some old := leaf.symm.trans mapped
    have inside := inv.target_managed refers₀
    have busy := inv.balanced.notMem_free refers₀
    obtain ⟨present, number⟩ := pteTarget_eq_some.mp refers
    by_cases same : old = pp
    · subst same
      have wrote := store_wrote (t := ptx va) inv₁.owned found
        (inv₁.target_managed (show vm₁.target dir (.table i (pdx va)) = some pt from found))
          (entry old perm)
      refine ⟨_, ?_, room, wrote₁.trans wrote, tables wrote, ?_, fun p here other => ?_, free₁,
        inv₁.balanced.chain, absent₁, fun p here other => ?_⟩
      · rw [insertAt, if_pos ⟨present, (pteAddr_eq_page2pa (inv.small member)).mpr number⟩]
      · simp [store, stable member absent]
      · exact absurd (Option.some.inj here).symm other
      · exact absurd (Option.some.inj here).symm other
    · have once : old ∉ held := fun inHeld => (refs_pos refers₀).ne' (unused old inHeld)
      have fits₁ : refs (vm₁.target dir) old < 2 ^ 16 := by
        rw [(counts old).2 busy]
        exact fits old
      obtain ⟨vm₂, removed, counters, kept, sameTables, ptes, targets₂⟩ := pageRemove_some inv₁ own mapped
      have inv₂ := inv₁.detach mapped fits₁ once counters kept targets₂
      have found₂ : vm₂.table dir i (pdx va) = some pt := by rw [sameTables, found]
      have cleared : Wrote managed dir i (pdx va) (ptx va) 0 vm₁ vm₂ :=
        ⟨kept, ptes, fun j e _ => by rw [sameTables], pt, found₂, .inr found⟩
      have attached : Wrote managed dir i (pdx va) (ptx va) (entry pp perm) vm₂ _ :=
        attachLeaf_wrote perm inv₂ found₂
      have wrote := cleared.trans attached
      have refsOne : refs (vm₁.target dir) old = 1 ↔ (vm.pages old).ppRef = 1 := by
        have exact_ : ((vm.pages old).ppRef).toNat = refs (vm.target dir) old :=
          inv.balanced.count_toNat inside (fits old)
        rw [(counts old).2 busy, ← exact_]
        exact ⟨fun one => BitVec.eq_of_toNat_eq one, fun one => by rw [one]; rfl⟩
      have other : ∀ q, (vm₂.pages q).ppRef = if q = old then (vm₁.pages q).ppRef - 1
        else (vm₁.pages q).ppRef := by
        intro q
        have counter := congrArg (fun ledger : Ledger Nat 16 => ledger.count q) counters
        unfold Ledger.detach at counter
        by_cases same : q = old
        · subst same
          split at counter <;> simpa [ledger, Ledger.give] using counter
        · split at counter <;> simpa [ledger, Ledger.give, same] using counter
      refine ⟨_, ?_, room, wrote₁.trans wrote, tables wrote, ?_, fun p here away => ?_, _,
        inv₂.balanced.chain.congr ?_, ?_, fun p here away => ?_⟩
      · have differs : pteAddr (vm₁.load (pt, ptx va)) ≠ page2pa pp := fun eq =>
          same (number.symm.trans ((pteAddr_eq_page2pa (inv.small member)).mp eq))
        rw [insertAt, if_neg (fun shortcut => differs shortcut.2), if_pos present, removed]
        rfl
      · simp [store, setPage, other, Ne.symm same, same, stable member absent]
      · obtain rfl := Option.some.inj here
        simp [store, setPage, other, away, stable inside busy]
      · intro q _
        by_cases here : q = pp <;> simp [store, setPage, ledger, here]
      · split <;> simp [absent₁, Ne.symm same]
      · obtain rfl := Option.some.inj here
        rw [← refsOne]
        split
        next last => simp [last]
        next more => simpa [more] using fun inside' => busy (fewer old inside')

end Cases

section Contract

theorem entry_permissions {pp : Nat} (low : perm.toNat < 2 ^ 12) :
    entry pp perm &&& 0xFFF = perm ||| pteP := by
  rw [entry_and pp perm (by decide)]
  apply BitVec.eq_of_toNat_eq
  have small : (perm ||| pteP).toNat < 2 ^ 12 := by
    rw [BitVec.toNat_or]
    exact Nat.or_lt_two_pow low (by decide)
  rw [BitVec.toNat_and]
  exact (Nat.and_two_pow_sub_one_eq_mod _ 12).trans (Nat.mod_eq_of_lt small)

theorem low_of_permissions {pte : Word} (same : pte &&& 0xFFF = perm ||| pteP) : perm.toNat < 2 ^ 12 := by
  have bits := congrArg BitVec.toNat same
  rw [BitVec.toNat_and, BitVec.toNat_or] at bits
  have above : perm.toNat ≤ perm.toNat ||| pteP.toNat := Nat.left_le_or
  have below : pte.toNat &&& (0xFFF : Word).toNat ≤ 0xFFF := Nat.and_le_right
  omega

variable [Fintype I]

theorem head_none_iff (inv : vm.Inv dir managed held free) : vm.pageFreeList = none ↔ free = [] := by
  have chain := inv.balanced.chain
  cases free with
  | nil => exact ⟨fun _ => rfl, fun _ => chain⟩
  | cons p rest =>
    have head : vm.pageFreeList = some p := chain.1
    simp [head]

variable [DecidableEq I]

theorem Wrote.readable (wrote : Wrote managed dir i (pdx va) (ptx va) (entry pp perm) vm vm')
    (inv : vm.Inv dir managed held free) (member : managed pp) (low : perm.toNat < 2 ^ 12)
    (table : ∀ pt, vm'.table dir i (pdx va) = some pt → pt < vm'.npages) : vm'.Readable dir := by
  refine ⟨by rw [wrote.same.pseSupport]; exact inv.pse, fun site p refers => ?_⟩
  rcases site with j | ⟨j, e⟩ | ⟨j, e, u⟩
  · rw [wrote.same.npages]
    have before : vm.target dir (.dir j) = some p := refers
    exact inv.target_bound before
  · by_cases here : j = i ∧ e = pdx va
    · obtain ⟨rfl, rfl⟩ := here
      exact table p refers
    · rw [wrote.same.npages]
      have before : vm.target dir (.table j e) = some p := (wrote.tables j e here).symm.trans refers
      exact inv.target_bound before
  · rw [wrote.same.npages]
    rw [Pmap.target, wrote.pte] at refers
    split at refers
    · rw [pteTarget_entry (inv.small member) low] at refers
      obtain rfl := Option.some.inj refers
      exact inv.bound pp member
    · have before : vm.target dir (.leaf j e u) = some p := refers
      exact inv.target_bound before

theorem Wrote.inserted (wrote : Wrote managed dir i (pdx va) (ptx va) (entry pp perm) vm vm')
    (inv : vm.Inv dir managed held free) (own : dir i = some g) (user : va < utop) (member : managed pp)
    (low : perm.toNat < 2 ^ 12) (table : ∀ pt, vm'.table dir i (pdx va) = some pt → pt < vm'.npages)
    (recounted : Recounted free pp (vm.target dir (.leaf i (pdx va) (ptx va))) vm vm')
    (fits : ∀ q, refs (vm.target dir) q < 2 ^ 16)
    (counts : (vm.pages pp).ppRef ≠ 0xFFFF ∨ ∃ pte, vm.lookedUp g va = .ok (some (pp, pte))) :
    Inserted dir g pp va perm vm vm' := by
  have readable := inv.readable
  have readable' := wrote.readable inv member low table
  have looked : ∀ {p}, (∃ pte, vm.lookedUp g va = .ok (some (p, pte))) ↔
      vm.target dir (.leaf i (pdx va) (ptx va)) = some p := lookedUp_some_iff readable own user
  obtain ⟨count, dropped, free', chain, busy, list⟩ := recounted
  have listed : ∀ p, vm'.OnFreeList p ↔ p ∈ free' := fun p =>
    ⟨fun ⟨free'', chain', inside⟩ => chain'.unique chain ▸ inside, fun inside => ⟨free', chain, inside⟩⟩
  refine ⟨⟨entry pp perm, ?_, entry_permissions low⟩, ?_, ?_, ?_, ?_⟩
  · rw [lookedUp_eq readable' own user, wrote.pte, if_pos ⟨rfl, rfl, rfl⟩,
      pteTarget_entry (inv.small member) low]
    rfl
  · rintro g' (rfl | ⟨j, own'⟩) va' user' other
    · -- The kernel's own directory has no entries below `UTOP`.
      have empty : vm.mem vm.kernPgdir (pdx va') &&& pteP = 0 := by
        rw [inv.kernEmpty _ (pdx_lt_npdUser user')]
        simp
      rw [lookedUp_empty readable.pse empty, lookedUp_empty readable'.pse]
      rwa [wrote.same.mem _ inv.kernOutside]
    · rw [lookedUp_eq readable own' user', lookedUp_eq readable' own' user', wrote.pte, if_neg]
      rintro ⟨rfl, here⟩
      exact other ⟨Option.some.inj (own'.symm.trans own), here⟩
  · intro pte found
    have here := looked.mp ⟨pte, found⟩
    rw [if_pos here] at count
    exact ⟨by simpa using count, fun inside => busy ((listed pp).mp inside)⟩
  · intro away
    have vacant : vm.target dir (.leaf i (pdx va) (ptx va)) ≠ some pp := fun here =>
      let ⟨pte, found⟩ := looked.mpr here
      away pte found
    rw [if_neg vacant] at count
    have room : (vm.pages pp).ppRef.toNat ≠ 65535 := fun full =>
      counts.elim (fun other => other (BitVec.eq_of_toNat_eq full)) fun ⟨pte, found⟩ => away pte found
    have below := (vm.pages pp).ppRef.isLt
    rw [count, BitVec.toNat_add, show (1 : BitVec 16).toNat = 1 from rfl]
    omega
  · intro old pte other found
    have here := looked.mp ⟨pte, found⟩
    refine ⟨?_, (listed old).trans (list old here other)⟩
    have positive := refs_pos here
    have number : (vm.pages old).ppRef.toNat = refs (vm.target dir) old :=
      inv.balanced.count_toNat (inv.target_managed here) (fits old)
    rw [dropped old here other, BitVec.toNat_sub_of_le (by rw [BitVec.le_def, number]; exact positive),
      show (1 : BitVec 16).toNat = 1 from rfl]
    omega

theorem pageInsert_contract_iff (inv : vm.Inv dir managed held free)
    (fits : ∀ q, refs (vm.target dir) q < 2 ^ 16) (unused : ∀ q ∈ held, refs (vm.target dir) q = 0)
    (own : dir i = some g) (user : va < utop) (member : managed pp) (absent : pp ∉ free) :
    InsertContract vm dir g pp va perm ↔
      vm.pageFreeList = none ∧ vm.mem g (pdx va) &&& pteP = 0 ∨
      perm.toNat < 2 ^ 12 ∧
      ((vm.pages pp).ppRef ≠ 0xFFFF ∨ ∃ pte, vm.lookedUp g va = .ok (some (pp, pte))) := by
  have low := pdx_lt_npdUser user
  have full : vm.pageFreeList = none ∧ vm.mem g (pdx va) &&& pteP = 0 ↔ free = [] ∧
    vm.table dir i (pdx va) = none := by
    rw [head_none_iff inv, table_eq low own, pteTarget_eq_none]
  rw [full]
  rcases pageInsert_cases perm inv own low member absent unused fits with
    ⟨failed, out⟩ | ⟨vm', done, room, wrote, table, recounted⟩
  · exact ⟨fun _ => .inl out, fun _ => ⟨vm, false, failed, rfl⟩⟩
  constructor
  · rintro ⟨vm'', result, returned, meets⟩
    obtain ⟨rfl, rfl⟩ := Prod.mk.inj (Except.ok.inj (done.symm.trans returned))
    have inserted : Inserted dir g pp va perm vm vm' := meets
    obtain ⟨pte, -, permissions⟩ := inserted.mapped
    refine .inr ⟨low_of_permissions permissions, ?_⟩
    by_contra neither
    push Not at neither
    have grown := inserted.first neither.2
    rw [neither.1] at grown
    have below := (vm'.pages pp).ppRef.isLt
    exact absurd grown (by simp; omega)
  · rintro (out | ⟨small, counts⟩)
    · exact absurd out room
    · exact ⟨vm', true, done, wrote.inserted inv own user member small table recounted fits counts⟩

end Contract

end Jos.Kern.Pmap

namespace Jos.Kern.Kernel

open Jos.Shared

section Examples

theorem insertContract_mapAndUnmap : ∃ s, Run step (Within Entry.Unsaturated) demo mapAndUnmap s ∧
    s.vm.InsertContract s.dirs 128 131 0x402000 5 := by
  refine Run.of_exec_imp (p := fun s => (s.vm.pages 131).ppRef = 1 ∧ s.dirs 0 = some 128)
    (by decide +kernel) ?_
  rintro s run ⟨once, own⟩
  have kept : s.Kept (· ∈ demoFree) := run.invariant demo_booted.kept fun _ _ _ => step_kept
  obtain ⟨⟨⟨free, inv⟩, bounded⟩, -⟩ := kept
  have member : 131 ∈ demoFree := mem_demoFree.mpr (by decide)
  have absent : 131 ∉ free := by
    intro inside
    have counted : (s.vm.pages 131).ppRef = _ := inv.balanced.counted 131 member
    rw [once, inv.balanced.free_refs inside] at counted
    exact absurd counted (by decide)
  refine (Pmap.pageInsert_contract_iff inv bounded nofun own (by decide) member absent).mpr
    (.inr ⟨by decide, .inl ?_⟩)
  rw [show (s.memory.vm.pages 131).ppRef = 1 from once]
  decide

theorem flood_unsaturated {managed : Nat → Prop} {s : Kernel} {k p g : Nat} {free : List Nat}
    (flooded : Flooded managed k p g free s) (low : k < 65534) :
    Within Entry.Unsaturated s (mapCall sourceVa (floodVa k) 5) := by
  obtain ⟨runs, inv, -, source, -, -, count, -⟩ := flooded
  let tf := { callFrame 5 0 sourceVa 0 (floodVa k) with
    tfRegs := { (callFrame 5 0 sourceVa 0 (floodVa k)).tfRegs with regEsi := 5 } }
  have user : tf.fromUser = true := by simp [tf, callFrame, userFrame, Trapframe.fromUser, gdUT]
  have entered : s.entry 0 tf idleInputs = ⟨s.saved 0 0 tf, 0, some 0,
    .call 5 ⟨0, sourceVa, 0, floodVa k, 5⟩⟩ := by
    have here : (s.enter 0).curenv 0 = some 0 := by simp [enter, Table.curenv, runs.cpu]
    have alive : (s.enter 0).status 0 ≠ .dying :=
      fun dying => absurd (runs.running.symm.trans dying) (by decide)
    unfold Kernel.entry entryLocked
    rw [if_pos user, here]
    dsimp only
    rw [if_neg alive]
    rfl
  obtain ⟨site, refers⟩ := exists_of_refs_ne_zero (show refs (s.vm.target s.dirs) p ≠ 0 by
    rw [show refs (s.vm.target s.dirs) p = k + 1 from count]
    omega)
  have member := inv.target_managed refers
  have counter : (s.vm.pages p).ppRef = BitVec.ofNat 16 (k + 1) := by
    rw [← count]
    exact inv.balanced.counted p member
  have mapped : (s.saved 0 0 tf).mapped 0 sourceVa = some p := by
    have memory : (s.saved 0 0 tf).memory = s.memory := congrArg (Memory.mk s.vm) (saved_dirs s 0 0 tf)
    have accounted : (s.saved 0 0 tf).memory.Accounted managed := ⟨free, memory ▸ inv⟩
    rw [Entry.mapped_eq accounted 0 (by decide), memory, source]
    exact pteTarget_entry (inv.small member) (by decide)
  refine ⟨⟨rfl, ?_⟩, ?_⟩
  · rintro x ⟨⟩
    show (s.entry 0 tf idleInputs).tame = true
    rw [entered]
    rfl
  · rintro x ⟨⟩
    show (s.entry 0 tf idleInputs).Unsaturated
    rw [entered]
    rintro m announced
    have here : m = (p, 0, floodVa k) := by
      have calls : Entry.mapping ⟨s.saved 0 0 tf, 0, some 0, .call 5 ⟨0, sourceVa, 0, floodVa k, 5⟩⟩ =
          some (p, 0, floodVa k) := by
        rw [Entry.mapping,
          show Entry.calls ⟨s.saved 0 0 tf, 0, some 0, .call 5 ⟨0, sourceVa, 0, floodVa k, 5⟩⟩
          .pageMap = some (0, ⟨0, sourceVa, 0, floodVa k, 5⟩) from rfl]
        simp [envid2env, mapped]
      exact (Option.some.inj (calls.symm.trans announced)).symm
    subst here
    refine .inl fun top => ?_
    have number := congrArg BitVec.toNat (counter.symm.trans top)
    rw [BitVec.toNat_ofNat, show (0xFFFF : BitVec 16).toNat = 65535 from rfl] at number
    omega

theorem flood_kept (k : Nat) (low : k ≤ 65534) : ∃ s free, Flooded (· ∈ demoFree) k 131 128 free s ∧
    s.Kept (· ∈ demoFree) := by
  induction k with
  | zero =>
    obtain ⟨s, run, known⟩ : ∃ s, Run step (Within Entry.Unsaturated) demo floodStart s ∧ FloodFacts s :=
      Run.of_exec_any (by decide +kernel)
    obtain ⟨free, flooded⟩ := flooded_of_facts run known
    exact ⟨s, free, flooded, run.invariant demo_booted.kept fun _ _ _ => step_kept⟩
  | succ k ih =>
    obtain ⟨s, free, flooded, kept⟩ := ih (by omega)
    obtain ⟨s', free', stepped, flooded'⟩ := flood_step flooded (by omega)
    exact ⟨s', free', flooded', step_kept kept (flood_unsaturated flooded (by omega)) stepped⟩

-- A page that is mapped 65535 times is mapped once more, and its counter becomes 0.
theorem insertContract_fails : ∃ (s : Kernel) (free : List Nat) (va : Word),
    s.vm.Inv s.dirs (· ∈ demoFree) [] free ∧ (∀ q, refs (s.vm.target s.dirs) q < 2 ^ 16) ∧
    s.dirs 0 = some 128 ∧ va < utop ∧ (131 ∈ demoFree ∧ 131 ∉ free) ∧
    (s.vm.pages 131).ppRef = 0xFFFF ∧
    (∃ vm', s.vm.pageInsert 128 131 va 5 = .ok (vm', true) ∧ (vm'.pages 131).ppRef = 0) ∧
    ¬s.vm.InsertContract s.dirs 128 131 va 5 := by
  obtain ⟨s, free, ⟨runs, inv, -, source, done, vacant, count, -⟩, kept⟩ := flood_kept 65534 (by decide)
  have bounded : ∀ q, refs (s.vm.target s.dirs) q < 2 ^ 16 := kept.ready.2
  have user : floodVa 65534 < utop := vaOk_user (floodVa_ok (by decide))
  have mapped : s.vm.target s.dirs (.leaf 0 (pdx sourceVa) (ptx sourceVa)) = some 131 := by
    rw [Pmap.target, show s.vm.pte s.dirs 0 (pdx sourceVa) (ptx sourceVa) = Kern.entry 131 5 from source]
    decide
  have member : 131 ∈ demoFree := inv.target_managed mapped
  have absent : 131 ∉ free := inv.balanced.notMem_free mapped
  have full : (s.vm.pages 131).ppRef = 0xFFFF := by
    rw [show (s.vm.pages 131).ppRef = BitVec.ofNat 16 (s.memory.refs 131)
      from inv.balanced.counted 131 member, count]
    rfl
  have here : pdx (floodVa 65534) = floodDir 65534 ∧ ptx (floodVa 65534) = floodIdx 65534 :=
    ⟨pdx_pgaddr _ _, ptx_pgaddr _ _⟩
  have empty : s.vm.target s.dirs (.leaf 0 (pdx (floodVa 65534)) (ptx (floodVa 65534))) = none := by
    rw [here.1, here.2]
    exact vacant 65534 (le_refl _) (by decide)
  have table : s.vm.table s.dirs 0 (pdx (floodVa 65534)) ≠ none := by
    intro missing
    have before : s.vm.pte s.dirs 0 (floodDir 65533) (floodIdx 65533) = Kern.entry 131 5 :=
      done 65533 (by decide)
    rw [show floodDir 65533 = pdx (floodVa 65534) from here.1.symm, Pmap.pte_of_no_table missing]
      at before
    exact absurd before (by decide)
  refine ⟨s, free, floodVa 65534, inv, bounded, runs.own, user, ⟨member, absent⟩, full, ?_⟩
  rcases Pmap.pageInsert_cases 5 inv runs.own (pdx_lt_npdUser user) member absent (by rintro _ ⟨⟩)
    bounded with
    ⟨-, -, missing⟩ | ⟨vm', inserted, -, -, -, recounted⟩
  · exact absurd missing table
  have wrapped : (vm'.pages 131).ppRef = 0 := by
    rw [recounted.count, full, empty]
    decide
  refine ⟨⟨vm', inserted, wrapped⟩, ?_⟩
  rintro ⟨vm'', result, returned, meets⟩
  obtain ⟨rfl, rfl⟩ := Prod.mk.inj (Except.ok.inj (inserted.symm.trans returned))
  have contract : Pmap.Inserted s.dirs 128 131 (floodVa 65534) 5 s.vm vm' := meets
  have grown := contract.first fun pte found => by
    have target := (Pmap.lookedUp_some_iff inv.readable runs.own user).mp ⟨pte, found⟩
    rw [empty] at target
    cases target
  rw [wrapped, full] at grown
  exact absurd grown (by decide)

end Examples

end Jos.Kern.Kernel
