import Jos.Kern.Effects

namespace Jos.Kern

open Jos.Shared

def Entry.Edits (x : Entry) (m : Memory) : Edit → Prop
  | .keep => True
  | .fresh i d t _ perm => m = x.s.memory ∧ ∃ cur a, x.calls .pageAlloc = some (cur, a) ∧
      x.s.envid2env cur a.a1 true = some i ∧ vaOk a.a2 ∧ permOk a.a3 ∧ d = pdx a.a2 ∧ t = ptx a.a2 ∧
        perm = a.a3
  | .copy i d t pp perm j e u => m = x.s.memory ∧ pteTarget (m.pte j e u) = some pp ∧ permOk perm ∧
      ((∃ cur a, x.calls .pageMap = some (cur, a) ∧ x.s.envid2env cur a.a1 true = some j ∧
        x.s.envid2env cur a.a3 true = some i ∧ vaOk a.a2 ∧ vaOk a.a4 ∧ e = pdx a.a2 ∧ u = ptx a.a2 ∧
        d = pdx a.a4 ∧ t = ptx a.a4 ∧ perm = a.a5) ∨
      ∃ a, x.calls .ipcTrySend = some (j, a) ∧ x.receiver = some i ∧ a.a3 < utop ∧
        (x.s.envs i).envIpcDstva < utop ∧ e = pdx a.a3 ∧ u = ptx a.a3 ∧ d = pdx (x.s.envs i).envIpcDstva ∧
        t = ptx (x.s.envs i).envIpcDstva ∧ perm = a.a4)
  | .unmap i d t => ∃ cur a, x.calls .pageUnmap = some (cur, a) ∧ x.s.envid2env cur a.a1 true = some i ∧
      d = pdx a.a2 ∧ t = ptx a.a2
  | .attach i _ => x.s.envFreeList = some i ∧ ∃ call, x.calls .exofork = some call
  | .close i => x.cur = some i ∨ x.named = some i

namespace Kernel

open Memory

variable {managed : Nat → Prop} {x : Entry} {cur : Slot} {no : Word} {a : Args}

def envCalls : List SyscallNo :=
  [.envDestroy, .exofork, .envSetStatus, .envSetPgfaultUpcall, .pageAlloc, .pageMap, .pageUnmap,
    .ipcTrySend, .ipcRecv]

theorem envCall_moves {call : SyscallNo} (here : x.cur = some cur) (asked : x.request = .call no a)
    (number : syscalls[no.toNat]? = some call) (member : call ∈ envCalls) (ready : x.s.Ready managed)
    (vacant : ∀ e, x.s.envFreeList = some e → x.s.dirs e = none) (hw : Inputs) :
    Ends (x.s.syscall x.c cur hw no a)
      (Exit.Leaves (¬x.s.Calm cur) fun s' => Moves managed x.Edits x.s.memory s'.memory)
      fun r => Moves managed x.Edits x.s.memory r.1.memory := by
  have called : x.calls call = some (cur, a) := by simp [Entry.calls, here, asked, number]
  unfold syscall
  rw [number]
  cases call with
  | envDestroy =>
    have destroys : Ends (x.s.sysEnvDestroy x.c cur a.a1)
        (Exit.Leaves (¬x.s.Calm cur) fun s' => Moves managed x.Edits x.s.memory s'.memory)
        fun r => Moves managed x.Edits x.s.memory r.1.memory := by
      unfold sysEnvDestroy
      split
      · exact .refl _
      next e found =>
        have named : x.named = some e := by simp [Entry.named, called, found]
        refine Ends.bind ((envDestroy_memory x.c ready (.inr named)).mono (fun exit leaves => ?_)
          fun _ => id) fun _ => id
        exact leaves.mono (fun upset calm => upset ⟨calm.1, calm.found found⟩) fun _ => id
    exact destroys
  | envSetStatus =>
    have sets : (x.s.sysEnvSetStatus cur a.a1 a.a2).1.memory = x.s.memory := by
      unfold sysEnvSetStatus
      repeat' split
      · rfl
      · rfl
      · exact congrArg (Memory.mk x.s.vm) (Table.dirs_setStatus _ _ _)
    exact sets ▸ .refl _
  | envSetPgfaultUpcall =>
    have sets : (x.s.sysEnvSetPgfaultUpcall cur a.a1 a.a2).1.memory = x.s.memory := by
      unfold sysEnvSetPgfaultUpcall
      split
      · rfl
      · exact congrArg (Memory.mk x.s.vm) (Table.dirs_setEnv_self _ _ _ rfl)
    exact sets ▸ .refl _
  | exofork =>
    have forks : Ends (x.s.sysExofork cur) (fun _ => False) fun r =>
      Moves managed x.Edits x.s.memory r.1.memory :=
      sysExofork_memory cur ready vacant fun e g head => ⟨head, (cur, a), called⟩
    exact forks.mono (fun _ => False.elim) fun _ => id
  | pageAlloc =>
    exact sysPageAlloc_memory cur a.a1 a.a2 a.a3 ready trivial fun e pp found addr perms =>
      ⟨rfl, cur, a, called, found, addr, perms, rfl, rfl, rfl⟩
  | pageMap =>
    exact sysPageMap_memory cur a.a1 a.a2 a.a3 a.a4 a.a5 ready
      fun src dst pp foundSrc foundDst srcOk dstOk perms mapped =>
      ⟨rfl, mapped, perms, .inl ⟨cur, a, called, foundSrc, foundDst, srcOk, dstOk, rfl, rfl, rfl,
        rfl, rfl⟩⟩
  | pageUnmap =>
    exact sysPageUnmap_memory cur a.a1 a.a2 ready fun e found => ⟨cur, a, called, found, rfl, rfl⟩
  | ipcTrySend =>
    refine sysIpcTrySend_memory cur a.a1 a.a2 a.a3 a.a4 ready
      fun e pp found waiting user wanted perms mapped => ?_
    have receiver : x.receiver = some e := by simp [Entry.receiver, called, found, waiting]
    exact ⟨rfl, mapped, perms, .inr ⟨a, called, receiver, user, wanted, rfl, rfl, rfl, rfl, rfl⟩⟩
  | ipcRecv =>
    exact (sysIpcRecv_memory x.c cur a.a1).mono
      (fun exit leaves => leaves.mono id fun s' same => same ▸ .refl _) fun r same => same ▸ .refl _
  | _ => simp [envCalls] at member

end Kernel

def Kernel.mapped (s : Kernel) (e : Slot) (va : Word) : Option Nat := do
  let g ← (s.envs e).envPgdir
  let found ← (s.vm.pageLookup g va).toOption
  let (pp, _) ← found
  some pp

namespace Entry

variable {managed : Nat → Prop} {x : Entry} {a b : Memory} {edit : Edit}

def mapping (x : Entry) : Option (Nat × Slot × Word) :=
  (do
    let (cur, a) ← x.calls .pageMap
    let src ← x.s.envid2env cur a.a1 true
    let dst ← x.s.envid2env cur a.a3 true
    let pp ← x.s.mapped src a.a2
    some (pp, dst, a.a4)).or do
    let (cur, a) ← x.calls .ipcTrySend
    let e ← x.receiver
    let pp ← x.s.mapped cur a.a3
    some (pp, e, (x.s.envs e).envIpcDstva)

def Unsaturated (x : Entry) : Prop :=
  ∀ m ∈ x.mapping, (x.s.vm.pages m.1).ppRef ≠ 0xFFFF ∨ x.s.mapped m.2.1 m.2.2 = some m.1

instance (x : Entry) : Decidable x.Unsaturated :=
  decidable_of_iff (x.mapping.all fun m => (x.s.vm.pages m.1).ppRef ≠ 0xFFFF ∨
    x.s.mapped m.2.1 m.2.2 = some m.1) <| by
    simp [Option.all_eq_true, Unsaturated]

theorem mapped_eq {s : Kernel} (accounted : s.memory.Accounted managed) (e : Slot) {va : Word}
    (user : va < utop) : s.mapped e va = pteTarget (s.memory.pte e (pdx va) (ptx va)) := by
  cases own : s.dirs e with
  | none =>
    have absent : s.memory.pte e (pdx va) (ptx va) = 0 := 
      Pmap.pte_of_no_table (by simp [Pmap.table, show s.memory.dir e = none from own]) _
    rw [Kernel.mapped, show (s.envs e).envPgdir = none from own, absent]
    simp
  | some g =>
    rw [Kernel.mapped, show (s.envs e).envPgdir = some g from own]
    rcases Memory.lookup_ok accounted own user with ⟨looked, unmapped⟩ | ⟨p, ptr, looked, target, -⟩
    · have looked : s.vm.pageLookup g va = .ok none := looked
      simp [looked, unmapped, Except.toOption]
    · have looked : s.vm.pageLookup g va = .ok (some (p, ptr)) := looked
      simp [looked, target, Except.toOption]

theorem mapping_of_copy {i j : Slot} {d t e u : Index} {pp : Nat} {perm : Word}
    (accounted : x.s.memory.Accounted managed) (edits : x.Edits a (.copy i d t pp perm j e u)) :
    ∃ va, x.mapping = some (pp, i, va) ∧ va < utop ∧ d = pdx va ∧ t = ptx va := by
  obtain ⟨rfl, mapped, -, ⟨cur, a, called, src, dst, srcOk, dstOk, rfl, rfl, rfl, rfl, -⟩ |
    ⟨a, called, receiver, user, wanted, rfl, rfl, rfl, rfl, -⟩⟩ := edits
  · refine ⟨a.a4, ?_, Kernel.vaOk_user dstOk, rfl, rfl⟩
    rw [← mapped_eq accounted j (Kernel.vaOk_user srcOk)] at mapped
    simp [mapping, called, src, dst, mapped]
  · refine ⟨(x.s.envs i).envIpcDstva, ?_, wanted, rfl, rfl⟩
    rw [← mapped_eq accounted j user] at mapped
    have other : x.calls .pageMap = none := calls_other called (by decide)
    simp [mapping, called, other, receiver, mapped]

theorem Unsaturated.bounded (unsaturated : x.Unsaturated) (edits : x.Edits a edit)
    (edited : a.Edited managed edit b) : b.Bounded := by
  obtain ⟨⟨accounted, bounded⟩, -, does⟩ := edited
  intro q
  have before := bounded q
  by_cases room : ∀ i d t pp perm j e u, edit = .copy i d t pp perm j e u → q = pp →
    pteTarget (a.pte i d t) = some pp
  · have after := does.refs_le q room
    omega
  · push Not at room
    obtain ⟨i, d, t, pp, perm, j, e, u, rfl, rfl, vacant⟩ := room
    have same : a = x.s.memory := edits.1
    subst same
    obtain ⟨va, announced, user, rfl, rfl⟩ := mapping_of_copy accounted edits
    obtain ⟨free, inv⟩ := accounted
    have member := inv.target_managed (show x.s.vm.target x.s.dirs (.leaf j e u) = some q from does.1)
    have counter : ((x.s.vm.pages q).ppRef).toNat = x.s.memory.refs q :=
      inv.balanced.count_toNat member before
    have after := does.2.2.refs q
    rw [if_pos ⟨rfl, vacant⟩] at after
    rcases unsaturated _ announced with low | there
    · have low : x.s.memory.refs q ≠ 65535 := fun top => low (BitVec.eq_of_toNat_eq (counter.trans top))
      omega
    · rw [mapped_eq ⟨free, inv⟩ i user] at there
      exact absurd there vacant

end Entry

inductive Op where
  | envAlloc (parentId : Word)
  | call (c : Nat) (cur : Slot) (hw : Inputs) (no : Word) (a : Args)
  | envFree (e : Slot)
  | envDestroy (c : Nat) (e : Slot)

namespace Op

def Proper (s : Kernel) : Op → Prop
  | .envAlloc _ => True
  | .call _ cur _ no _ => s.status cur ≠ .free ∧ ∃ call ∈ Kernel.envCalls, syscalls[no.toNat]? = some call
  | .envFree e | .envDestroy _ e => s.status e ≠ .free

instance (s : Kernel) (op : Op) : Decidable (op.Proper s) :=
  match op with
  | .envAlloc _ => .isTrue trivial
  | .call _ cur _ no _ => inferInstanceAs (Decidable (s.status cur ≠ .free ∧
      ∃ call ∈ Kernel.envCalls, syscalls[no.toNat]? = some call))
  | .envFree e | .envDestroy _ e => inferInstanceAs (Decidable (s.status e ≠ .free))

def apply (s : Kernel) : Op → Except Exit Kernel
  | .envAlloc parentId => do
    let r ← s.envAlloc parentId
    .ok r.1
  | .call c cur hw no a => do
    let r ← (s.setTable (s.setCpu c ⟨.user, some cur⟩)).syscall c cur hw no a
    .ok r.1
  | .envFree e => s.envFree e
  | .envDestroy c e => s.envDestroy c e

def next (s : Kernel) (op : Op) : Option Kernel :=
  if op.Proper s then
    match op.apply s with
    | .ok s' => some s'
    | .error exit => exit.state?
  else none

variable {s : Kernel} {managed : Nat → Prop}

theorem ok_vacant (ok : s.Ok) (e : Slot) (head : s.envFreeList = some e) : s.dirs e = none :=
  (ok.pgdir e).mp (ok.head_free head)

theorem ok_rooted (ok : s.Ok) : s.Rooted := fun e live absent => live ((ok.pgdir e).mpr absent)

def entry (s : Kernel) : Op → Option Entry
  | .call c cur _ no a => some ⟨s.setTable (s.setCpu c ⟨.user, some cur⟩), c, some cur, .call no a⟩
  | .envAlloc _ | .envFree _ | .envDestroy _ _ => none

def Edits (op : Op) (s : Kernel) (m : Memory) (edit : Edit) : Prop :=
  match op.entry s with
  | some x => x.Edits m edit
  | none => edit.isCopy = false

theorem apply_moves (op : Op) (proper : op.Proper s) (ready : s.Ready managed) (ok : s.Ok) :
    Ends (op.apply s) (Exit.Leaves False fun s' => s.memory.Moves managed (op.Edits s) s'.memory)
    fun s' =>
      s.memory.Moves managed (op.Edits s) s'.memory := by
  have vacant := ok_vacant ok
  have calm : ∀ e, s.status e ≠ .free → s.Calm e := fun e live => ⟨ok_rooted ok, ok_rooted ok e live⟩
  cases op with
  | envAlloc parentId =>
    have allocs : Ends (s.envAlloc parentId) (fun _ => False) fun r =>
        s.memory.Moves managed (Edits (.envAlloc parentId) s) r.1.memory :=
      Kernel.envAlloc_memory parentId ready vacant fun _ _ _ => rfl
    exact Ends.bind (allocs.mono (fun _ => False.elim) fun _ => id) fun r moves => moves
  | call c cur hw no a =>
    obtain ⟨live, call, member, number⟩ := proper
    let x : Entry := ⟨s.setTable (s.setCpu c ⟨.user, some cur⟩), c, some cur, .call no a⟩
    have found : x.s.Ready managed := ready
    have moves := Kernel.envCall_moves (x := x) rfl rfl number member found vacant hw
    refine Ends.bind (moves.mono (fun exit leaves => ?_) fun _ => id) fun r moves => moves
    exact leaves.mono (fun upset => upset (calm cur live)) fun s' moves => moves
  | envFree e =>
    obtain ⟨g, own⟩ := Option.ne_none_iff_exists'.mp (ok_rooted ok e proper)
    obtain ⟨s', freed, -, edited⟩ := Kernel.envFree_memory ready own
    show Ends (s.envFree e) _ _
    rw [freed]
    exact .one (show Edits (.envFree e) s s.memory (.close e) from rfl) edited
  | envDestroy c e =>
    have destroys : Ends (s.envDestroy c e) _ fun s' =>
        s.memory.Moves managed (Edits (.envDestroy c e) s) s'.memory :=
      Kernel.envDestroy_memory c ready rfl
    refine destroys.mono (fun exit leaves => ?_) fun s' => id
    exact leaves.mono (fun upset => upset (calm e proper)) fun s' => id

theorem apply_ok (op : Op) (proper : op.Proper s) (ok : s.Ok) :
    Ends (op.apply s) (Exit.Lands Table.Ok) fun s' => s'.Ok := by
  cases op with
  | envAlloc parentId =>
    refine Ends.bind (Kernel.envAlloc_table s parentId) fun r effect => ?_
    rcases effect with ⟨_, -, same⟩ | ⟨e, g, -, head, table⟩
    · show r.1.Ok
      rw [same]
      exact ok
    · show r.1.Ok
      rw [table]
      exact ok.act head
  | call c cur hw no a =>
    let x : Entry := ⟨s.setTable (s.setCpu c ⟨.user, some cur⟩), c, some cur, .call no a⟩
    have start : x.s.Ok := ok.congr rfl (fun _ => rfl) (fun _ => rfl) fun _ => Iff.rfl
    have live : x.Live := ⟨by rintro _ ⟨⟩, by rintro _ ⟨⟩; exact proper.1⟩
    have keeps : ∀ t, Table.Path x.Cause x.s.toTable t → t.Ok := fun t path =>
      path.invariant start fun t a holds cause => holds.act (live.sound cause)
    have inner : ∀ t, Table.Path x.Inner x.s.toTable t → t.Ok := fun t path =>
      keeps t (path.mono fun _ _ => Entry.Inner.cause)
    have current : x.s.curenv x.c = some cur := by simp [x, Kernel.setTable, Table.setCpu, Table.curenv]
    have path := Kernel.syscall_path x cur no a rfl rfl current hw
    exact Ends.bind (path.mono (fun exit exits => exits.1.mono fun t left => keeps t left.path)
      fun _ => id) fun r path => inner _ path
  | envFree e =>
    refine (Kernel.envFree_table s e).mono (fun _ => id) fun s' after => ?_
    rw [after.2]
    exact ok.act after.1
  | envDestroy c e =>
    let x : Entry := ⟨s, c, some e, .other⟩
    have live : x.Live := ⟨by rintro _ ⟨⟩, by rintro _ ⟨⟩; exact proper⟩
    have keeps : ∀ t, Table.Path x.Cause s.toTable t → t.Ok := fun t path =>
      path.invariant ok fun t a holds cause => holds.act (live.sound cause)
    refine (Kernel.envDestroy_path s x e (.inl rfl) rfl).mono (fun exit lands => ?_) fun s' path => ?_
    · exact lands.1.mono fun t left => keeps t left.path
    · exact keeps _ (path.mono fun _ _ => Entry.Inner.cause)

theorem next_moves (op : Op) (proper : op.Proper s) (ready : s.Ready managed) (ok : s.Ok) :
    ∃ s', op.next s = some s' ∧ s.memory.Moves managed (op.Edits s) s'.memory ∧ s'.Ok := by
  have moves := op.apply_moves proper ready ok
  have keeps := op.apply_ok proper ok
  rw [next, if_pos proper]
  cases done : op.apply s with
  | ok s' =>
    rw [done] at moves keeps
    exact ⟨s', rfl, moves, keeps⟩
  | error exit =>
    rw [done] at moves keeps
    cases exit with
    | user s' | halted s' | monitor s' => exact ⟨s', rfl, moves, keeps⟩
    | panic => exact moves.elim

theorem proper_of_next {op : Op} {s' : Kernel} (done : op.next s = some s') : op.Proper s := by
  unfold next at done
  split at done
  next proper => exact proper
  · cases done

theorem step_accounted {op : Op} {s' : Kernel} (ready : s.Ready managed) (ok : s.Ok)
    (done : op.next s = some s') : s.memory.Moves managed (op.Edits s) s'.memory ∧
    s'.memory.Accounted managed ∧ s'.Ok := by
  obtain ⟨s'', done', moves, ok'⟩ := op.next_moves (proper_of_next done) ready ok
  obtain rfl := Option.some.inj (done.symm.trans done')
  exact ⟨moves, moves.accounted ready.1, ok'⟩

theorem step_bounded {op : Op} {s' : Kernel} (ready : s.Ready managed) (ok : s.Ok)
    (unsaturated : ∀ x ∈ op.entry s, x.Unsaturated) (done : op.next s = some s') : s'.memory.Bounded := by
  have moves := (step_accounted ready ok done).1
  refine moves.invariant ready.2 fun a b edit _ edits edited => ?_
  unfold Edits at edits
  split at edits
  next x entered => exact (unsaturated x entered).bounded edits edited
  · exact edited.bounded edits

end Op

namespace Kernel

def Balanced (s : Kernel) (managed : Nat → Prop) : Prop :=
  ∃ free, Chain (fun p => (s.vm.pages p).ppLink) s.vm.pageFreeList free ∧ free.Nodup ∧
    (∀ p ∈ free, managed p) ∧ ∀ p, managed p → (s.vm.pages p).ppRef.toNat = s.memory.refs p ∧
    (p ∈ free ↔ s.memory.refs p = 0)

theorem Ready.balanced {s : Kernel} {managed : Nat → Prop} (ready : s.Ready managed) :
    s.Balanced managed := by
  obtain ⟨⟨free, inv⟩, bounded⟩ := ready
  refine ⟨free, inv.balanced.chain, inv.balanced.chain.nodup, inv.balanced.freeManaged,
    fun p member => ?_⟩
  have onList := inv.balanced.freeIff p member
  simp only [List.not_mem_nil, not_false_eq_true, and_true] at onList
  exact ⟨inv.balanced.count_toNat member (bounded p), onList⟩

theorem Booted.ready {s : Kernel} {free : List Nat} (booted : s.Booted free) : s.Ready (· ∈ free) := by
  refine ⟨⟨free, booted.inv⟩, fun p => ?_⟩
  rw [Memory.refs, show Shared.refs (s.memory.vm.target s.memory.dir) p = 0 from booted.refs p]
  decide

structure Sound (managed : Nat → Prop) (s : Kernel) : Prop where
  ready : s.Ready managed
  ok : s.Ok

theorem Booted.sound {s : Kernel} {free : List Nat} (booted : s.Booted free) : s.Sound (· ∈ free) :=
  ⟨booted.ready, booted.table ▸ bootTable_ok _⟩

theorem balanced_of_run {s₀ s : Kernel} {free : List Nat} {ops : List Op} (booted : s₀.Booted free)
    (run : Run Op.next (fun s op => ∀ s' ∈ op.next s, s'.memory.Bounded) s₀ ops s) :
    s.Balanced (· ∈ free) ∧ ∀ op : Op, op.Proper s → op.next s ≠ none := by
  have sound : s.Sound (· ∈ free) := by
    refine run.invariant booted.sound fun s op s' holds bounded done => ?_
    obtain ⟨-, accounted, ok⟩ := Op.step_accounted holds.ready holds.ok done
    exact ⟨⟨accounted, bounded s' done⟩, ok⟩
  refine ⟨sound.ready.balanced, fun op proper => ?_⟩
  obtain ⟨s', done, -⟩ := op.next_moves proper sound.ready sound.ok
  simp [done]

def mapTwice : List Op :=
  [.envAlloc 0, .call 0 0 idleInputs 4 ⟨0, 0x400000, 7, 0, 0⟩,
    .call 0 0 idleInputs 5 ⟨0, 0x400000, 0, 0x401000, 5⟩]

theorem balanced_mapTwice :
    ∃ s, Run Op.next (fun s op => ∀ s' ∈ op.next s, s'.memory.Bounded) demo mapTwice s ∧
    (s.vm.pages 129).ppRef = 2 ∧ s.Balanced (· ∈ demoFree) := by
  obtain ⟨s, unsaturated, twice⟩ : ∃ s,
    Run Op.next (fun s op => ∀ x ∈ op.entry s, x.Unsaturated) demo mapTwice s ∧
      (s.vm.pages 129).ppRef = 2 :=
    Run.of_exec_any (by decide +kernel)
  have run : Run Op.next (fun s op => ∀ s' ∈ op.next s, s'.memory.Bounded) demo mapTwice s := by
    refine unsaturated.strengthen demo_booted.sound fun s op s' sound allowed done => ?_
    have bounded := Op.step_bounded sound.ready sound.ok allowed done
    obtain ⟨-, accounted, ok⟩ := Op.step_accounted sound.ready sound.ok done
    refine ⟨fun s'' done' => ?_, ⟨accounted, bounded⟩, ok⟩
    obtain rfl := Option.some.inj (done.symm.trans done')
    exact bounded
  exact ⟨s, run, twice, (balanced_of_run demo_booted run).1⟩

end Kernel

end Jos.Kern
