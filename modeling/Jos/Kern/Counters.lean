import Jos.Kern.Upkeep

namespace Jos.Kern.Kernel

open Jos.Shared

variable {managed : Nat → Prop} {s s' : Kernel}

structure Kept (managed : Nat → Prop) (s : Kernel) : Prop where
  ready : s.Ready managed
  listed : s.Listed

theorem Booted.kept {free : List Nat} (booted : s.Booted free) : s.Kept (· ∈ free) :=
  ⟨booted.ready, booted.table ▸ bootTable_listed _⟩

theorem step_kept {ev : Event} (kept : s.Kept managed) (allowed : Within Entry.Unsaturated s ev)
    (stepped : s.step ev = some s') : s'.Kept managed := by
  have moves := step_moves kept.ready kept.listed allowed.1 stepped
  refine ⟨⟨moves.accounted kept.ready.1, ?_⟩, step_listed kept.listed stepped⟩
  refine moves.invariant kept.ready.2 fun a b edit _ edits edited => ?_
  cases ev with
  | create => exact edited.bounded edits
  | trap c tf hw => exact (allowed.2 _ rfl).bounded edits edited
  | start | store | txDone | rxDone =>
    obtain rfl : edit = .keep := edits
    exact edited.bounded rfl

def mapCall (srcva dstva perm : Word) : Event :=
  let tf := callFrame 5 0 srcva 0 dstva
  .trap 0 { tf with tfRegs := { tf.tfRegs with regEsi := perm } } idleInputs

def mapAndUnmap : List Event := [.create .user [] 0x800020, .start 0, sys 0 4 0 0x400000 7 0,
  mapCall 0x400000 0x401000 5, sys 0 6 0 0x401000 0 0]

section Call

structure Runs (s : Kernel) (c : Nat) (cur : Slot) (g : Nat) : Prop where
  lock : s.kernelLock = none
  cpu : s.cpus c = ⟨.user, some cur⟩
  running : s.status cur = .running
  own : s.dirs cur = some g

def saved (s : Kernel) (c : Nat) (cur : Slot) (tf : Trapframe) : Kernel :=
  (s.enter c).setTable ((s.enter c).setTf cur tf)

theorem step_call {c : Nat} {cur : Slot} {g : Nat} {tf : Trapframe} {hw : Inputs} {s₁ : Kernel}
    {result : Word} (runs : s.Runs c cur g) (user : tf.fromUser = true)
    (kind : trapKind tf.tfTrapno = .syscall)
    (returned : (s.saved c cur tf).syscall c cur hw tf.tfRegs.regEax ⟨tf.tfRegs.regEdx,
    tf.tfRegs.regEcx,
      tf.tfRegs.regEbx, tf.tfRegs.regEdi, tf.tfRegs.regEsi⟩ = .ok (s₁, result))
    (same : s₁.toTable = (s.saved c cur tf).toTable) :
    ∃ s', s.step (.trap c tf hw) = some s' ∧ s'.Runs c cur g ∧ s'.vm = s₁.vm ∧ s'.dirs = s.dirs := by
  obtain ⟨lock, cpu, running, own⟩ := runs
  let s₂ := s₁.setTable (s₁.setTf cur ((s₁.envs cur).envTf.setEax result))
  have frame : ((s.saved c cur tf).envs cur).envTf = tf := by
    simp [saved, setTable, Table.setTf, Table.setEnv]
  have dispatched : (s.saved c cur tf).dispatchUser c cur hw = .ok s₂ := by
    unfold dispatchUser
    rw [frame]
    dsimp only
    rw [kind]
    dsimp only
    rw [returned]
    rfl
  have dirs : s₂.dirs = s.dirs := by
    have before : s₁.dirs = s.dirs := by
      rw [same]
      exact Table.dirs_setTf s.toTable cur tf
    exact (Table.dirs_setTf s₁.toTable cur _).trans before
  have still : s₂.status cur = .running := by
    have before : s₁.status cur = .running := by
      rw [same]
      simpa [saved, setTable, enter, Table.status, Table.setTf, Table.setEnv] using running
    simpa [s₂, setTable, Table.status, Table.setTf, Table.setEnv] using before
  have current : s₂.curenv c = some cur := by
    have before : s₁.curenv c = some cur := by
      rw [same]
      simp [saved, setTable, enter, Table.curenv, Table.setTf, Table.setEnv, cpu]
    exact before
  have trapped : s.trap c tf hw = s₂.envRun c cur := by
    have here : (s.enter c).curenv c = some cur := by simp [enter, Table.curenv, cpu]
    have alive : (s.enter c).status cur ≠ .dying :=
      fun dying => absurd (running.symm.trans dying) (by decide)
    unfold trap trapLocked
    rw [if_pos user, here]
    dsimp only
    rw [if_neg alive, show (s.enter c).setTable ((s.enter c).setTf cur tf) = s.saved c cur tf
      from rfl, dispatched, finish, trapReturn, current]
    dsimp only
    rw [if_pos still]
  let s₃ := s₂.setTable ((s₂.yieldCpu c).runOn c cur)
  have dirs₃ : s₃.dirs = s₂.dirs :=
    (Table.runOn_dirs (s₂.yieldCpu c) c cur).trans (Table.yieldCpu_dirs s₂.toTable c)
  have ran : s₂.envRun c cur = .user s₃ := by
    have root : (s₃.envs cur).envPgdir = some g := (congrFun (dirs₃.trans dirs) cur).trans own
    unfold envRun
    dsimp only
    rw [root]
  refine ⟨s₃, ?_, ⟨rfl, ?_, ?_, ?_⟩, rfl, dirs₃.trans dirs⟩
  · have canTrap : s.canTrap c tf = true := by simp [canTrap, cpu, user]
    show (if s.kernelLock = none ∧ s.canTrap c tf then (s.trap c tf hw).state? else none) = some s₃
    rw [if_pos ⟨lock, canTrap⟩, trapped, ran]
    rfl
  · simp [s₃, setTable, Table.runOn, Table.leave, Table.setCpu]
  · simp [s₃, setTable, Table.runOn, Table.leave, Table.setCpu, Table.status, Table.setEnv]
  · rw [dirs₃, dirs, own]

end Call

section Returns

variable {cur : Slot} {g pp : Nat} {va perm : Word} {vm₁ vm₂ : Pmap}

theorem sysPageMap_insert {srcva : Word} {pte : Pmap.Ptr} (own : s.dirs cur = some g)
    (source : vaOk srcva = true) (valid : vaOk va = true) (perms : permOk perm = true)
    (readOnly : perm &&& pteW = 0) (looked : s.vm.pageLookup g srcva = .ok (some (pp, pte)))
    (inserted : s.vm.pageInsert g pp va perm = .ok (vm₁, true)) :
    s.sysPageMap cur 0 srcva 0 va perm = .ok ({ s with vm := vm₁ }, 0) := by
  simp [sysPageMap, envid2env, source, valid, perms, pgdir_ok own, bind, Except.bind, readVm,
    looked, readOnly, liftVm, inserted]

theorem sysPageUnmap_remove (own : s.dirs cur = some g) (valid : vaOk va = true)
    (removed : s.vm.pageRemove g va = .ok vm₁) :
    s.sysPageUnmap cur 0 va = .ok ({ s with vm := vm₁ }, 0) := by
  simp [sysPageUnmap, envid2env, valid, pgdir_ok own, bind, Except.bind, updateVm, removed]

end Returns

section Flood

def floodDir (k : Nat) : Index := Fin.ofNat 1024 (65 + k / 1024)
def floodIdx (k : Nat) : Index := Fin.ofNat 1024 k
def floodVa (k : Nat) : Word := pgaddr (floodDir k) (floodIdx k) 0

def sourceVa : Word := 0x10000000

theorem flood_inj {k k' : Nat} (low : k < 65536) (low' : k' < 65536) (dirs : floodDir k' = floodDir k)
    (indices : floodIdx k' = floodIdx k) : k' = k := by
  have first := congrArg Fin.val dirs
  have second := congrArg Fin.val indices
  simp only [floodDir, floodIdx, Fin.val_ofNat] at first second
  omega

theorem floodVa_ok {k : Nat} (low : k < 65536) : vaOk (floodVa k) = true := by
  have dir : (floodDir k).val = 65 + k / 1024 := by
    simp only [floodDir, Fin.val_ofNat]
    omega
  have index := (floodIdx k).isLt
  have number : (floodVa k).toNat = (65 + k / 1024) * 2 ^ 22 + (floodIdx k).val * 2 ^ 12 := by
    rw [floodVa, pgaddr_toNat, dir]
  have below : floodVa k < utop := by
    have top : utop.toNat = 0xEEC00000 := rfl
    rw [BitVec.lt_def]
    omega
  have aligned : pgoff (floodVa k) = 0 := by
    apply BitVec.eq_of_toNat_eq
    rw [pgoff, BitVec.toNat_and, number]
    have mask := Nat.and_two_pow_sub_one_eq_mod ((65 + k / 1024) * 2 ^ 22 + (floodIdx k).val * 2 ^ 12) 12
    exact mask.trans (by simp only [BitVec.ofNat_eq_ofNat, BitVec.toNat_ofNat]; omega)
  simp [vaOk, below, aligned]

structure Flooded (managed : Nat → Prop) (k p g : Nat) (free : List Nat) (s : Kernel) : Prop where
  runs : s.Runs 0 0 g
  inv : s.vm.Inv s.dirs managed [] free
  room : 64 ≤ free.length + (k + 1023) / 1024
  source : s.memory.pte 0 (pdx sourceVa) (ptx sourceVa) = Kern.entry p 5
  done : ∀ k' < k, s.memory.pte 0 (floodDir k') (floodIdx k') = Kern.entry p 5
  vacant : ∀ k', k ≤ k' → k' < 65536 → pteTarget (s.memory.pte 0 (floodDir k') (floodIdx k')) = none
  count : s.memory.refs p = k + 1
  readOnly : ∀ e d t, pteTarget (s.memory.pte e d t) = some p → s.memory.pte e d t &&& pteW = 0

theorem saved_dirs (s : Kernel) (c : Nat) (cur : Slot) (tf : Trapframe) :
    (s.saved c cur tf).dirs = s.dirs :=
  Table.dirs_setTf s.toTable cur tf

theorem flood_step {k p g : Nat} {free : List Nat} (flooded : Flooded managed k p g free s)
    (low : k < 65536) : ∃ s' free', s.step (mapCall sourceVa (floodVa k) 5) = some s' ∧
    Flooded managed (k + 1) p g free' s' := by
  obtain ⟨runs, inv, room, source, done, vacant, count, readOnly⟩ := flooded
  have here : pdx (floodVa k) = floodDir k ∧ ptx (floodVa k) = floodIdx k :=
    ⟨pdx_pgaddr _ _, ptx_pgaddr _ _⟩
  have valid := floodVa_ok low
  have mapped : pteTarget (s.memory.pte 0 (pdx sourceVa) (ptx sourceVa)) = some p := by
    obtain ⟨site, refers⟩ := exists_of_refs_ne_zero (show Shared.refs (s.vm.target s.dirs) p ≠ 0 by
      rw [show Shared.refs (s.vm.target s.dirs) p = k + 1 from count]; omega)
    rw [source]
    exact pteTarget_entry (inv.small (inv.target_managed refers)) (by decide)
  have refers : s.vm.target s.dirs (.leaf 0 (pdx sourceVa) (ptx sourceVa)) = some p := mapped
  have data :=
    inv.leaf_data (show pteTarget (s.vm.pte s.dirs 0 (pdx sourceVa) (ptx sourceVa)) = some p
    from mapped)
  -- The page table is missing only at the start of each run of 1024 addresses.
  have first : s.vm.table s.dirs 0 (pdx (floodVa k)) = none → k % 1024 = 0 := by
    intro absent
    by_contra inner
    have before := done (k - 1) (by omega)
    have same : floodDir (k - 1) = pdx (floodVa k) := by
      rw [here.1, floodDir, floodDir, show (k - 1) / 1024 = k / 1024 by omega]
    rw [same, Memory.pte,
      show s.memory.vm.pte s.memory.dir 0 (pdx (floodVa k)) (floodIdx (k - 1)) = 0 from
      Pmap.pte_of_no_table absent _] at before
    exact entry_present p 5 (by rw [← before]; decide)
  have vacantHere : s.vm.target s.dirs (.leaf 0 (pdx (floodVa k)) (ptx (floodVa k))) = none := by
    rw [here.1, here.2]
    exact vacant k (le_refl k) low
  obtain ⟨vm', free', inserted, inv', ptes, counted, kept⟩ := Pmap.pageInsert_vacant 5 inv runs.own
    (pdx_lt_npdUser (vaOk_user valid)) vacantHere (inv.target_managed refers)
      (inv.balanced.notMem_free refers) data
    (by decide) (fun absent empty => by have start := first absent; simp [empty] at room; omega)
  have looked : ∃ pte, s.vm.pageLookup g sourceVa = .ok (some (p, pte)) := by
    rcases Memory.lookup_ok (m := s.memory) ⟨free, inv⟩ runs.own (show sourceVa < utop by decide) with
      ⟨-, none⟩ | ⟨q, ptr, looked, target, -⟩
    · rw [mapped] at none
      cases none
    · obtain rfl := Option.some.inj (mapped.symm.trans target)
      exact ⟨ptr, looked⟩
  obtain ⟨pte, looked⟩ := looked
  let tf := { callFrame 5 0 sourceVa 0 (floodVa k) with
    tfRegs := { (callFrame 5 0 sourceVa 0 (floodVa k)).tfRegs with regEsi := 5 } }
  have user : tf.fromUser = true := by simp [tf, callFrame, userFrame, Trapframe.fromUser, gdUT]
  have returned : (s.saved 0 0 tf).syscall 0 0 idleInputs 5 ⟨0, sourceVa, 0, floodVa k, 5⟩ =
      .ok ({ s.saved 0 0 tf with vm := vm' }, 0) :=
    sysPageMap_insert ((congrFun (saved_dirs s 0 0 tf) 0).trans runs.own) (show vaOk sourceVa =
      true by decide) valid (show permOk 5 = true by decide) (show 5 &&& pteW = 0 by decide) looked
      inserted
  obtain ⟨s', stepped, runs', memory, dirs⟩ := step_call runs user rfl returned rfl
  have now : ∀ e d t, s'.memory.pte e d t =
      if e = 0 ∧ d = floodDir k ∧ t = floodIdx k then Kern.entry p 5 else s.memory.pte e d t := by
    intro e d t
    rw [← here.1, ← here.2, Memory.pte, Memory.pte, show s'.memory = ⟨vm', s.dirs⟩ from
      congrArg₂ Memory.mk memory dirs]
    exact ptes e d t
  refine ⟨s', free', stepped, runs', ?_, ?_, ?_, ?_, ?_, ?_, ?_⟩
  · rw [memory, dirs]
    exact inv'
  · by_cases absent : s.vm.table s.dirs 0 (pdx (floodVa k)) = none
    · have start := first absent
      rw [if_pos absent] at kept
      omega
    · rw [if_neg absent] at kept
      omega
  · rw [now, if_neg, source]
    rintro ⟨-, same, -⟩
    have number := congrArg Fin.val same
    simp only [floodDir, Fin.val_ofNat, show (pdx sourceVa).val = 64 from rfl] at number
    omega
  · intro k' before
    rw [now]
    split
    · rfl
    next other =>
      refine done k' (Nat.lt_of_le_of_ne (Nat.le_of_lt_succ before) ?_)
      rintro rfl
      exact other ⟨rfl, rfl, rfl⟩
  · intro k' after bound
    rw [now, if_neg]
    · exact vacant k' (by omega) bound
    · rintro ⟨-, dirs, indices⟩
      have same := flood_inj low bound dirs indices
      omega
  · rw [Memory.refs, show s'.memory = ⟨vm', s.dirs⟩ from congrArg₂ Memory.mk memory dirs]
    exact counted.trans (congrArg (· + 1) count)
  · intro e d t
    rw [now]
    split
    · intro _
      rw [entry_and_pteW]
      decide
    · exact readOnly e d t

def floodStart : List Event := [.create .user [] 0x800020, .start 0, sys 0 4 0 sourceVa 5 0]

def FloodFacts (s : Kernel) : Prop :=
  (s.kernelLock = none ∧ s.cpus 0 = ⟨.user, some 0⟩ ∧ s.status 0 = .running ∧ s.dirs 0 = some 128) ∧
  s.memory.pte 0 (pdx sourceVa) (ptx sourceVa) = Kern.entry 131 5 ∧ (s.vm.pages 131).ppRef = 1 ∧
  (∀ i < 64, s.vm.mem 128 (Fin.ofNat 1024 (65 + i)) &&& pteP = 0) ∧
    ∀ i < 64, (s.vm.pages (200 + i)).ppRef = 0

instance (s : Kernel) : Decidable (FloodFacts s) := by
  unfold FloodFacts
  infer_instance

theorem flooded_of_facts (run : Run step (Within Entry.Unsaturated) demo floodStart s)
    (known : FloodFacts s) :
    ∃ free, Flooded (· ∈ demoFree) 0 131 128 free s := by
  obtain ⟨⟨lock, cpu, running, own⟩, source, single, tables, unused⟩ := known
  have kept : s.Kept (· ∈ demoFree) := run.invariant demo_booted.kept fun _ _ _ => step_kept
  obtain ⟨⟨⟨free, inv⟩, bounded⟩, -⟩ := kept
  have exact : ∀ p, p ∈ demoFree → ((s.vm.pages p).ppRef).toNat = s.memory.refs p := fun p member =>
    inv.balanced.count_toNat member (bounded p)
  have count : s.memory.refs 131 = 1 := by
    rw [← exact 131 (mem_demoFree.mpr (by decide)), single]
    rfl
  have mapped : pteTarget (s.memory.pte 0 (pdx sourceVa) (ptx sourceVa)) = some 131 := by
    rw [source]
    decide
  refine ⟨free, ⟨lock, cpu, running, own⟩, inv, ?_, source, nofun, ?_, count, ?_⟩
  · have inside : List.range' 200 64 ⊆ free := by
      intro p member
      rw [List.mem_range'_1] at member
      have managed : p ∈ demoFree := mem_demoFree.mpr (by omega)
      have zero : s.memory.refs p = 0 := by
        have count := unused (p - 200) (by omega)
        rw [show 200 + (p - 200) = p by omega] at count
        rw [← exact p managed, count]
        rfl
      exact (inv.balanced.freeIff p managed).mpr ⟨zero, nofun⟩
    have length := (List.subperm_of_subset List.nodup_range' inside).length_le
    simp only [List.length_range'] at length
    omega
  · intro k _ low
    have absent : s.vm.table s.dirs 0 (floodDir k) = none := by
      have user : (floodDir k).val < npdUser := by
        simp only [floodDir, Fin.val_ofNat, npdUser]
        omega
      rw [Pmap.table_eq user own, pteTarget_eq_none]
      exact tables (k / 1024) (by omega)
    rw [Memory.pte, show s.memory.vm.pte s.memory.dir 0 (floodDir k) (floodIdx k) = 0 from
      Pmap.pte_of_no_table absent _]
    rfl
  · intro e d t refers
    have same : (Site.leaf e d t : Site Slot) = .leaf 0 (pdx sourceVa) (ptx sourceVa) :=
      refs_unique count (show s.vm.target s.dirs _ = _ from mapped) (show s.vm.target s.dirs _ = _
        from refers)
    obtain ⟨rfl, rfl, rfl⟩ := Site.leaf.inj same
    rw [source]
    decide

theorem flood (k : Nat) (low : k ≤ 65536) : ∃ events s free, Run step (fun _ _ => True) demo events s ∧
    Flooded (· ∈ demoFree) k 131 128 free s := by
  induction k with
  | zero =>
    obtain ⟨s, run, known⟩ : ∃ s, Run step (Within Entry.Unsaturated) demo floodStart s ∧ FloodFacts s :=
      Run.of_exec_any (by decide +kernel)
    obtain ⟨free, flooded⟩ := flooded_of_facts run known
    exact ⟨_, s, free, run.mono fun _ _ _ => trivial, flooded⟩
  | succ k ih =>
    obtain ⟨events, s, free, run, flooded⟩ := ih (by omega)
    obtain ⟨s', free', stepped, flooded'⟩ := flood_step flooded (by omega)
    exact ⟨_, s', free', .snoc run trivial stepped, flooded'⟩

structure Overflown (p g : Nat) (free : List Nat) (s : Kernel) : Prop where
  runs : s.Runs 0 0 g
  head : s.vm.pageFreeList = some p
  chain : Chain (fun q => (s.vm.pages q).ppLink) (s.vm.pages p).ppLink free
  absent : p ∉ free
  count : s.memory.refs p = 65536
  source : pteTarget (s.memory.pte 0 (pdx sourceVa) (ptx sourceVa)) = some p
  readOnly : ∀ e d t, pteTarget (s.memory.pte e d t) = some p → s.memory.pte e d t &&& pteW = 0
  hole : s.memory.pte 0 (floodDir 0) (floodIdx 0) = 0
  table : ∃ pt, s.vm.table s.dirs 0 (floodDir 0) = some pt ∧ pt < s.vm.npages ∧ pt ≠ p ∧ g ≠ pt
  root : g ≠ p
  bound : p < s.vm.npages ∧ s.vm.npages ≤ 2 ^ 20
  pse : s.vm.pseSupport ≠ 1

theorem overflow : ∃ events s free, Run step (fun _ _ => True) demo events s ∧
    Overflown 131 128 free s := by
  obtain ⟨events, s, free, run, runs, inv, -, source, done, -, count, readOnly⟩ := flood 65536 (le_refl _)
  have here : pdx (floodVa 0) = floodDir 0 ∧ ptx (floodVa 0) = floodIdx 0 :=
    ⟨pdx_pgaddr _ _, ptx_pgaddr _ _⟩
  have word : s.memory.pte 0 (pdx (floodVa 0)) (ptx (floodVa 0)) = Kern.entry 131 5 := by
    rw [here.1, here.2]
    exact done 0 (by decide)
  have mapped : pteTarget (s.vm.pte s.dirs 0 (pdx (floodVa 0)) (ptx (floodVa 0))) = some 131 := by
    rw [show s.vm.pte s.dirs 0 (pdx (floodVa 0)) (ptx (floodVa 0)) = Kern.entry 131 5 from word]
    decide
  have member : 131 ∈ demoFree :=
    inv.target_managed (show s.vm.target s.dirs (.leaf 0 _ _) = some 131 from mapped)
  have absent : 131 ∉ free :=
    inv.balanced.notMem_free (show s.vm.target s.dirs (.leaf 0 _ _) = some 131 from mapped)
  obtain ⟨vm', removed, counters, same, tables, ptes, targets⟩ := Pmap.pageRemove_some inv runs.own mapped
  obtain ⟨pt, found, -⟩ := Pmap.table_of_pte mapped
  let tf := callFrame 6 0 (floodVa 0) 0 0
  have user : tf.fromUser = true := by simp [tf, callFrame, userFrame, Trapframe.fromUser, gdUT]
  have returned : (s.saved 0 0 tf).syscall 0 0 idleInputs 6 ⟨0, floodVa 0, 0, 0, 0⟩ =
      .ok ({ s.saved 0 0 tf with vm := vm' }, 0) :=
    sysPageUnmap_remove ((congrFun (saved_dirs s 0 0 tf) 0).trans runs.own)
      (floodVa_ok (by decide)) removed
  obtain ⟨s', stepped, runs', memory, dirs⟩ := step_call runs user rfl returned rfl
  have space : s'.memory = ⟨vm', s.dirs⟩ := congrArg₂ Memory.mk memory dirs
  have now : ∀ e d t, s'.memory.pte e d t =
      if e = 0 ∧ d = floodDir 0 ∧ t = floodIdx 0 then 0 else s.memory.pte e d t := by
    intro e d t
    rw [← here.1, ← here.2, space]
    exact ptes e d t
  have counter : s.vm.ledger.count 131 - 1 = 0 := by
    rw [inv.balanced.counted 131 member, show Shared.refs (s.vm.target s.dirs) 131 = 65537 from count]
    decide
  have freed : s'.vm.ledger = Ledger.give { s.vm.ledger with
      count := Function.update s.vm.ledger.count 131 (s.vm.ledger.count 131 - 1) } 131 := by
    rw [memory, show Pmap.ledger vm' = _ from counters, Ledger.detach, if_pos counter]
  have link : (s'.vm.pages 131).ppLink = s.vm.pageFreeList := by
    have links := congrArg (fun ledger : Ledger Nat 16 => ledger.link 131) freed
    simpa [Pmap.ledger, Ledger.give] using links
  refine ⟨_, s', free, .snoc run trivial stepped, runs', congrArg Ledger.head freed, ?_, absent, ?_,
    ?_, ?_, ?_, ?_, ?_, ?_, ?_⟩
  · rw [link]
    refine inv.balanced.chain.congr fun q inside => ?_
    have links := congrArg (fun ledger : Ledger Nat 16 => ledger.link q) freed
    have other : q ≠ 131 := fun same => absent (same ▸ inside)
    simpa [Pmap.ledger, Ledger.give, other] using links
  · have dropped := refs_detach (show s.vm.target s.dirs (.leaf 0 _ _) = some 131 from mapped) 131
    rw [Memory.refs, space, show Pmap.target vm' s.dirs = _ from targets]
    rw [if_pos rfl, show Shared.refs (s.vm.target s.dirs) 131 = 65537 from count] at dropped
    exact Nat.succ.inj dropped
  · rw [now, if_neg (by decide), source]
    decide
  · intro e d t
    rw [now]
    split
    · simp
    · exact readOnly e d t
  · rw [now, if_pos ⟨rfl, rfl, rfl⟩]
  · have inside :=
      inv.target_bound (show s.vm.target s.dirs (.table 0 (pdx (floodVa 0))) = some pt from found)
    refine ⟨pt, ?_, ?_, ?_, inv.owned.table_ne_dir found runs.own⟩
    · rw [memory, dirs, tables, ← here.1, found]
    · rw [memory, same.npages]
      exact inside
    · rintro rfl
      exact inv.leaf_data mapped (.table 0 (pdx (floodVa 0))) trivial found
  · rintro same
    exact inv.leaf_data mapped (.dir 0) trivial (runs.own.trans (congrArg some same))
  · rw [memory, same.npages]
    exact ⟨inv.bound 131 member, inv.size⟩
  · rw [memory, same.pseSupport]
    exact inv.pse

end Flood

end Jos.Kern.Kernel
