import Jos.Kern.Counters

namespace Jos.Kern

open Jos.Shared

def Entry.addressee (x : Entry) : Option Slot := do
  let (cur, a) ← x.calls .ipcTrySend
  x.s.envid2env cur a.a1 false

def Entry.Foreign (x : Entry) (e : Slot) : Prop :=
  x.s.status e ≠ .free ∧ ¬x.Controls e ∧ x.addressee ≠ some e

def Env.Resumed (c : Nat) (old new : Env) : Prop :=
  new = old ∨ old.envStatus = .runnable ∧
    new = { old with envStatus := .running, envRuns := old.envRuns + 1, envCpunum := c }

def Env.Adjusted (old new : Env) : Prop :=
  ∃ status runs, new = { old with envStatus := status, envRuns := runs }

def Entry.Spares (x : Entry) (m : Memory) : Prop :=
  ∀ e d t, x.addressee = some e → m.pte e d t ≠ x.s.memory.pte e d t →
    (x.s.envs e).envIpcRecving = true ∧ (x.s.envs e).envIpcDstva < utop ∧
      d = pdx (x.s.envs e).envIpcDstva ∧ t = ptx (x.s.envs e).envIpcDstva

structure Entry.Confines (x : Entry) (like : Env → Env → Prop) (s : Kernel) : Prop where
  envs : ∀ e, x.Foreign e → like (x.s.envs e) (s.envs e)
  spaces : ∀ e, x.Foreign e → s.memory.pte e = x.s.memory.pte e
  message : x.Spares s.memory

namespace Entry

variable {managed : Nat → Prop} {x : Entry} {t u : Table} {e : Slot} {cur : Slot} {no : Word} {a : Args}

theorem controls_cur (here : x.cur = some e) : x.Controls e := ⟨e, here, .inl rfl⟩

theorem controls_of_destroyed (destroys : x.cur = some e ∨ x.named = some e) : x.Controls e := by
  rcases destroys with here | named
  · exact controls_cur here
  simp only [Entry.named, Option.bind_eq_bind, Option.bind_eq_some_iff] at named
  obtain ⟨⟨cur, a⟩, called, found⟩ := named
  refine Kernel.controls_of_found ?_ found
  rcases Option.or_eq_some_iff.mp called with called | ⟨-, called⟩ <;> exact cur_of_calls called

theorem addressee_of_receiver (receiver : x.receiver = some e) :
    x.addressee = some e ∧ (x.s.envs e).envIpcRecving = true := by
  simp only [Entry.receiver, Option.bind_eq_bind, Option.bind_eq_some_iff] at receiver
  obtain ⟨⟨cur, a⟩, called, e', found, waits⟩ := receiver
  obtain ⟨waiting, same⟩ := Option.ite_none_right_eq_some.mp waits
  obtain rfl := Option.some.inj same
  exact ⟨by simp [addressee, called, found], waiting⟩

theorem Foreign.changes (foreign : x.Foreign e) (asked : x.request = .call no a)
    (heads : ∀ e, x.s.envFreeList = some e → x.s.status e = .free) {act : Action}
    (inner : x.Inner t act) : act.changes ≠ some e := by
  obtain ⟨live, stranger, silent⟩ := foreign
  intro changes
  have cause := inner.cause
  cases act with
  | create | alloc => exact cause
  | clear | run | halt => cases changes
  | fork e' g parent =>
    obtain rfl := Option.some.inj changes
    obtain ⟨rfl, head, -⟩ := cause
    exact live (heads _ head)
  | free e' =>
    obtain rfl := Option.some.inj changes
    exact stranger (controls_of_destroyed cause.2.2.2)
  | dying e' =>
    obtain rfl := Option.some.inj changes
    exact stranger (controls_of_destroyed cause.2.2)
  | setStatus e' status =>
    obtain rfl := Option.some.inj changes
    have sets := cause.2
    simp only [statusSet, Option.bind_eq_bind, Option.bind_eq_some_iff] at sets
    obtain ⟨⟨cur, a⟩, called, status', -, e'', found, same⟩ := sets
    obtain ⟨rfl, -⟩ := Prod.mk.inj (Option.some.inj same)
    exact stranger (Kernel.controls_of_found (cur_of_calls called) found)
  | wake e' =>
    have woken := cause.1
    simp [Entry.woken, asked] at woken
  | frame e' tf =>
    obtain rfl := Option.some.inj changes
    rcases cause with ⟨here, -⟩ | ⟨here, -⟩ | ⟨source, copied, -⟩
    · exact stranger (controls_cur here)
    · exact stranger (controls_cur here)
    · simp only [copiedFrame, Option.bind_eq_bind, Option.bind_eq_some_iff] at copied
      obtain ⟨⟨cur, a⟩, called, e'', found, s', -, ⟨s'', words⟩, -, same⟩ := copied
      obtain ⟨rfl, -⟩ := Prod.mk.inj (Option.some.inj same)
      exact stranger (Kernel.controls_of_found (cur_of_calls called) found)
  | edit e' =>
    obtain rfl := Option.some.inj changes
    exact stranger cause.1
  | block e' dstva =>
    obtain rfl := Option.some.inj changes
    obtain ⟨-, a', called, -⟩ := cause
    exact stranger (controls_cur (cur_of_calls called))
  | deliver e' =>
    obtain rfl := Option.some.inj changes
    exact silent (addressee_of_receiver cause.2.1).1

theorem Foreign.edits (foreign : x.Foreign e)
    (heads : ∀ e, x.s.envFreeList = some e → x.s.status e = .free) {m : Memory} {edit : Edit}
    (edits : x.Edits m edit) : edit.space ≠ some e := by
  obtain ⟨live, stranger, silent⟩ := foreign
  intro space
  cases edit with
  | keep => cases space
  | fresh i =>
    obtain rfl := Option.some.inj space
    obtain ⟨-, cur, a, called, found, -⟩ := edits
    exact stranger (Kernel.controls_of_found (cur_of_calls called) found)
  | copy i =>
    obtain rfl := Option.some.inj space
    obtain ⟨-, -, -, ⟨cur, a, called, -, found, -⟩ | ⟨a, -, receiver, -⟩⟩ := edits
    · exact stranger (Kernel.controls_of_found (cur_of_calls called) found)
    · exact silent (addressee_of_receiver receiver).1
  | unmap i =>
    obtain rfl := Option.some.inj space
    obtain ⟨cur, a, called, found, -⟩ := edits
    exact stranger (Kernel.controls_of_found (cur_of_calls called) found)
  | attach i =>
    obtain rfl := Option.some.inj space
    exact live (heads _ edits.1)
  | close i =>
    obtain rfl := Option.some.inj space
    exact stranger (controls_of_destroyed edits)

theorem Foreign.pte (foreign : x.Foreign e) (heads : ∀ e, x.s.envFreeList = some e → x.s.status e = .free)
    {m : Memory} (moves : x.s.memory.Moves managed x.Edits m) : m.pte e = x.s.memory.pte e := by
  refine moves.invariant
    (motive := fun m => m.pte e = x.s.memory.pte e) rfl fun _ _ _ same edits edited => ?_
  exact (edited.does.pte_other (foreign.edits heads edits)).trans same

theorem Foreign.path (foreign : x.Foreign e) (asked : x.request = .call no a)
    (heads : ∀ e, x.s.envFreeList = some e → x.s.status e = .free)
    (path : Table.Path x.Inner x.s.toTable t) : t.envs e = x.s.envs e ∧
    (t.curenv x.c = x.s.curenv x.c ∨ t.curenv x.c = none) := by
  refine path.invariant (motive := fun t => t.envs e = x.s.envs e ∧
    (t.curenv x.c = x.s.curenv x.c ∨ t.curenv x.c = none)) ⟨rfl, .inl rfl⟩ ?_
  rintro t act ⟨same, current⟩ inner
  refine ⟨?_, ?_⟩
  · refine (Table.act_envs ?_ (foreign.changes asked heads inner)).trans same
    rintro c e rfl
    exact inner
  · cases act with
    | run | halt => exact inner.elim
    | clear c =>
      obtain rfl : c = x.c := inner
      exact .inr (by simp [Table.act, Table.setCpu, Table.curenv])
    | fork e' g parent =>
      rw [Table.act_fork]
      exact current
    | _ => exact current

theorem Foreign.left (foreign : x.Foreign e) (here : x.cur = some cur) (asked : x.request = .call no a)
    (current : x.s.curenv x.c = some cur) (heads : ∀ e, x.s.envFreeList = some e → x.s.status e = .free)
    (left : x.Left x.s.toTable u) : Env.Resumed x.c (x.s.envs e) (u.envs e) := by
  obtain ⟨t, path, last⟩ := left
  obtain ⟨same, stays⟩ := foreign.path asked heads path
  have other : t.curenv x.c ≠ some e := by
    intro runs
    rcases stays with stays | stays <;> rw [runs] at stays
    · rw [current] at stays
      exact foreign.2.1 (controls_cur (here.trans stays.symm))
    · cases stays
  -- Whoever ran on this CPU before is not foreign, so stepping aside changes no foreign
  -- environment.
  have aside : (t.yieldCpu x.c).envs e = t.envs e := by
    unfold Table.yieldCpu
    split
    next cur' runs =>
      split
      · exact Table.envs_setEnv_of_ne t _ fun own => other (own ▸ runs)
      · rfl
    · rfl
  rcases last with rfl | ⟨c, e', ⟨rfl, -, chosen⟩, rfl⟩ | ⟨c, -, rfl⟩
  · exact .inl same
  · by_cases picked : e = e'
    · subst picked
      have runnable : t.status e = .runnable := chosen.resolve_right fun ran => other ran.1
      refine .inr ⟨(congrArg Env.envStatus same).symm.trans runnable, ?_⟩
      rw [← same, ← aside]
      simp [Table.act, Table.runOn, Table.leave, Table.setCpu, Table.setEnv]
    · refine .inl ?_
      rw [← same, ← aside]
      simp [Table.act, Table.runOn, Table.leave, Table.setCpu, Table.setEnv, picked]
  · exact .inl same

end Entry

namespace Kernel

variable {managed : Nat → Prop} {x : Entry} {cur : Slot} {no : Word} {a : Args} {call : SyscallNo}

def Delivers (x : Entry) (edit : Edit) : Prop :=
  ∃ e pp perm j d t, x.addressee = some e ∧ (x.s.envs e).envIpcRecving = true ∧
    (x.s.envs e).envIpcDstva < utop ∧
    edit = .copy e (pdx (x.s.envs e).envIpcDstva) (ptx (x.s.envs e).envIpcDstva) pp perm j d t

theorem spares_of_moves {m : Memory} (moves : x.s.memory.Moves managed (fun _ => Delivers x) m) :
    x.Spares m := by
  refine moves.invariant (motive := x.Spares) (fun _ _ _ _ changed => absurd rfl changed) ?_
  rintro m m' edit spares ⟨e, pp, perm, j, d, t, named, waits, user, rfl⟩ edited e' d' t' named' changed
  obtain rfl := Option.some.inj (named.symm.trans named')
  by_cases here : d' = pdx (x.s.envs e).envIpcDstva ∧ t' = ptx (x.s.envs e).envIpcDstva
  · exact ⟨waits, user, here⟩
  · refine spares e d' t' named fun same => changed ?_
    rw [← same, edited.does.2.2.pte, if_neg fun there => here there.2]

theorem syscall_spares (here : x.cur = some cur) (asked : x.request = .call no a)
    (number : syscalls[no.toNat]? = some call) (ready : x.s.Ready managed) (hw : Inputs) :
    Ends (x.s.syscall x.c cur hw no a) (Exit.Leaves True fun s' => x.Spares s'.memory) fun r =>
    x.Spares r.1.memory := by
  by_cases sends : call = .ipcTrySend
  · subst sends
    have called : x.calls .ipcTrySend = some (cur, a) := by simp [Entry.calls, here, asked, number]
    unfold syscall
    rw [number]
    have moves : Ends (x.s.sysIpcTrySend cur a.a1 a.a2 a.a3 a.a4)
        (Exit.Leaves (¬x.s.Calm cur) fun s' => x.s.memory.Moves managed (fun _ => Delivers x) s'.memory)
        fun r => x.s.memory.Moves managed (fun _ => Delivers x) r.1.memory :=
      sysIpcTrySend_memory cur a.a1 a.a2 a.a3 a.a4 ready fun e pp found waits _ user _ _ =>
        ⟨e, pp, _, _, _, _, by simp [Entry.addressee, called, found], waits, user, rfl⟩
    exact moves.mono (fun exit leaves => leaves.mono (fun _ => trivial) fun s' => spares_of_moves)
      fun r => spares_of_moves
  · have silent : x.addressee = none := by
      have other : x.calls .ipcTrySend = none :=
        Entry.calls_other (show x.calls call =
          some (cur, a) by simp [Entry.calls, here, asked, number]) (Ne.symm sends)
      simp [Entry.addressee, other]
    have spares : ∀ m, x.Spares m := fun m e d t named => by simp [silent] at named
    cases done : x.s.syscall x.c cur hw no a with
    | ok r => exact spares _
    | error exit =>
      cases exit with
      | user s | halted s | monitor s => exact spares _
      | panic => trivial

theorem syscall_confines {s : Kernel} {c : Nat} (sound : s.Sound managed)
    (current : s.curenv c = some cur) (number : syscalls[no.toNat]? = some call)
    (member : call ∈ envCalls) (hw : Inputs) : Ends (s.syscall c cur hw no a)
      (Exit.Leaves (s.status cur = .free) (Entry.Confines ⟨s, c, some cur, .call no a⟩ (Env.Resumed c)))
      fun r => Entry.Confines ⟨s, c, some cur, .call no a⟩ Eq r.1 := by
  let x : Entry := ⟨s, c, some cur, .call no a⟩
  have heads : ∀ e, x.s.envFreeList = some e → x.s.status e = .free :=
    fun e head => sound.ok.head_free head
  have moves := envCall_moves (x := x) rfl rfl number member sound.ready (Op.ok_vacant sound.ok) hw
  have spares := syscall_spares (x := x) rfl rfl number sound.ready hw
  have path := syscall_path x cur no a rfl rfl current hw
  refine (moves.and (spares.and path)).mono ?_ ?_
  · rintro exit ⟨leaves, spare, lands, -⟩
    have confines : ∀ s' : Kernel, s.memory.Moves managed x.Edits s'.memory → x.Spares s'.memory →
        x.Went s.toTable s'.toTable → x.Confines (Env.Resumed c) s' := fun s' moves spare went =>
      ⟨fun e foreign => (foreign.left rfl rfl current heads went.left),
        fun e foreign => foreign.pte heads moves, spare⟩
    cases exit with
    | user s' | halted s' | monitor s' => exact confines s' leaves spare lands
    | panic =>
      by_contra live
      exact leaves ⟨Op.ok_rooted sound.ok, Op.ok_rooted sound.ok cur live⟩
  · rintro r ⟨moves, spare, path⟩
    exact ⟨fun e foreign => (foreign.path rfl heads path).1.symm,
      fun e foreign => foreign.pte heads moves, spare⟩

def secondCpu : List Event := [.create .user [] 0x800020, .create .user [] 0x800020, .start 1]

def receiving (s : Kernel) : Entry := s.entry 1 (callFrame 13 utop 0 0 0) idleInputs

def receivedArgs : Args := ⟨utop, 0, 0, 0, 0⟩

theorem secondCpu_runs : ∃ s, Run step (fun _ _ => True) demo secondCpu s ∧
    (receiving s).s.Sound (· ∈ demoFree) ∧ (receiving s).s.curenv 1 = some 0 ∧
    ((receiving s).s.status 1 = .runnable ∧
    ¬Entry.Controls ⟨(receiving s).s, 1, some 0, .call 13 receivedArgs⟩ 1) ∧
    ∃ s', (receiving s).s.syscall 1 0 idleInputs 13 receivedArgs = .error (.user s') ∧
      ((receiving s).s.envs 1).envCpunum = 0 ∧ (s'.envs 1).envCpunum = 1 := by
  let outcome (s : Kernel) : Option Nat :=
    match (receiving s).s.syscall 1 0 idleInputs 13 receivedArgs with
    | .error (.user s') => some (s'.envs 1).envCpunum
    | _ => none
  obtain ⟨s, run, known⟩ : ∃ s, Run step (Within fun x => x.Unsaturated ∧ x.Live) demo secondCpu s ∧
      (receiving s).s.curenv 1 = some 0 ∧ (receiving s).s.status 1 = .runnable ∧
        ((receiving s).s.envs 1).envParentId ≠ ((receiving s).s.envs 0).envId ∧
        ((receiving s).s.envs 1).envCpunum = 0 ∧ outcome s = some 1 :=
    Run.of_exec_any (by decide +kernel)
  obtain ⟨current, runnable, foreign, before, ended⟩ := known
  have kept : s.Kept (· ∈ demoFree) := run.invariant demo_booted.kept fun _ _ _ holds allowed =>
    step_kept holds ⟨allowed.1, fun x entered => (allowed.2 x entered).1⟩
  have ok : s.Ok := run.invariant (demo_booted.table ▸ bootTable_ok _) fun _ _ _ holds allowed =>
    step_ok holds fun x entered => (allowed.2 x entered).2
  have ready : (receiving s).s.Ready (· ∈ demoFree) := by
    rw [Ready, receiving, entry_memory]
    exact kept.ready
  have entered : s.entryOf (sys 1 13 utop 0 0 0) = some (receiving s) := rfl
  have sound : (receiving s).s.Sound (· ∈ demoFree) := ⟨ready, entryOf_ok ok entered⟩
  refine ⟨s, run.mono fun _ _ _ => trivial, sound, current, ⟨runnable, ?_⟩, ?_⟩
  · rintro ⟨cur, here, same | child⟩
    · obtain rfl := Option.some.inj here
      cases same
    · obtain rfl := Option.some.inj here
      exact foreign child
  · simp only [outcome] at ended
    split at ended
    next s' done => exact ⟨s', done, before, Option.some.inj ended⟩
    · cases ended

theorem syscall_confines_receive : ∃ s, Run step (fun _ _ => True) demo secondCpu s ∧
    Ends ((receiving s).s.syscall 1 0 idleInputs 13 receivedArgs)
      (Exit.Leaves ((receiving s).s.status 0 = .free)
        (Entry.Confines ⟨(receiving s).s, 1, some 0, .call 13 receivedArgs⟩ (Env.Resumed 1)))
      fun r => Entry.Confines ⟨(receiving s).s, 1, some 0, .call 13 receivedArgs⟩ Eq r.1 := by
  obtain ⟨s, run, sound, current, -⟩ := secondCpu_runs
  have number : syscalls[(13 : Word).toNat]? = some .ipcRecv := rfl
  exact ⟨s, run, syscall_confines sound current number (by decide) idleInputs⟩

-- The CPU number of an environment that `sched_yield` picks is new as well.
theorem syscall_confines_fails : demo.Booted demoFree ∧ ∃ s, Run step (fun _ _ => True) demo secondCpu s ∧
    (receiving s).s.Sound (· ∈ demoFree) ∧ (receiving s).s.curenv 1 = some 0 ∧
    ¬Ends ((receiving s).s.syscall 1 0 idleInputs 13 receivedArgs)
      (Exit.Leaves True (Entry.Confines ⟨(receiving s).s, 1, some 0, .call 13 receivedArgs⟩ Env.Adjusted))
      fun r => Entry.Confines ⟨(receiving s).s, 1, some 0, .call 13 receivedArgs⟩ Env.Adjusted r.1 := by
  obtain ⟨s, run, sound, current, ⟨runnable, foreign⟩, s', ended, before, after⟩ := secondCpu_runs
  refine ⟨demo_booted, s, run, sound, current, fun ends => ?_⟩
  rw [ended] at ends
  have silent : Entry.addressee ⟨(receiving s).s, 1, some 0, .call 13 receivedArgs⟩ ≠ some 1 := by
    simp [Entry.addressee, Entry.calls, syscalls]
  obtain ⟨status, runs, same⟩ := Entry.Confines.envs ends 1 ⟨by rw [runnable]; decide, foreign, silent⟩
  rw [same] at after
  exact absurd (before.symm.trans after) (by decide)

end Kernel

end Jos.Kern
