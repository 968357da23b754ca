import Jos.Shared.RoundRobin
import Jos.Shared.Run
import Jos.Kern.Machine

namespace Jos.Kern

open Jos.Shared

inductive Action where
  | create (e : Slot) (g : Nat) (type : EnvType) (entry : Word)
  | alloc (e : Slot) (g : Nat) (parentId : Word)
  | fork (e : Slot) (g : Nat) (parent : Slot)
  | free (e : Slot)
  | dying (e : Slot)
  | setStatus (e : Slot) (status : EnvStatus)
  | wake (e : Slot)
  | frame (e : Slot) (tf : Trapframe)
  | edit (e : Slot) (type : EnvType) (upcall : Word) (priority : Byte)
  | block (e : Slot) (dstva : Word)
  | deliver (e : Slot) (source value perm : Word)
  | clear (c : Nat)
  | run (c : Nat) (e : Slot)
  | halt (c : Nat)

def Action.changes : Action → Option Slot
  | .create e _ _ _ | .alloc e _ _ | .fork e _ _ | .free e | .dying e | .setStatus e _ | .wake e |
    .frame e _
  | .edit e _ _ _ | .block e _ | .deliver e _ _ _ => some e
  | .clear _ | .run _ _ | .halt _ => none

namespace Table

def take (t : Table) (e : Slot) (env : Env) : Table :=
  { t.setEnv e env with envFreeList := (t.envs e).envLink }

def createdEnv (old : Env) (e : Slot) (g : Nat) (type : EnvType) (entry : Word) : Env :=
  let env := Kernel.freshEnv { old with envPgdir := some g } e 0
  { env with
    envType := type
    envTf := { env.envTf with
      tfEflags := if type = .fs then env.envTf.tfEflags ||| flIOPL3 else env.envTf.tfEflags
      tfEip := entry } }

def forked (t : Table) (e parent : Slot) : Table :=
  let t := t.setStatus e .notRunnable
  t.setTf e ((t.envs parent).envTf.setEax 0)

def act (t : Table) : Action → Table
  | .create e g type entry => t.take e (createdEnv (t.envs e) e g type entry)
  | .alloc e g parentId => t.take e (Kernel.freshEnv { t.envs e with envPgdir := some g } e parentId)
  | .fork e g parent =>
    (t.take e (Kernel.freshEnv { t.envs e with envPgdir := some g } e (t.envs parent).envId)).forked
      e parent
  | .free e => t.release e
  | .dying e => t.setStatus e .dying
  | .setStatus e status => t.setStatus e status
  | .wake e => t.setStatus e .runnable
  | .frame e tf => t.setTf e tf
  | .edit e type upcall priority => t.setEnv e { t.envs e with
      envType := type, envPgfaultUpcall := upcall, envPriority := priority }
  | .block e dstva => t.setEnv e { t.envs e with
      envIpcDstva := dstva, envIpcRecving := true, envStatus := .notRunnable }
  | .deliver e source value perm => t.setEnv e (Kernel.received (t.envs e) source value perm)
  | .clear c => t.setCpu c { t.cpus c with cpuEnv := none }
  | .run c e => (t.yieldCpu c).runOn c e
  | .halt c => t.leave c ⟨.halted, none⟩

def forkedEnv (t : Table) (e : Slot) (g : Nat) (parent : Slot) : Env :=
  let child := Kernel.freshEnv { t.envs e with envPgdir := some g } e (t.envs parent).envId
  { child with
    envStatus := .notRunnable
    envTf := (Function.update t.envs e child parent).envTf.setEax 0 }

theorem act_fork (t : Table) (e : Slot) (g : Nat) (parent : Slot) :
    t.act (.fork e g parent) = t.take e (t.forkedEnv e g parent) := by
  by_cases same : parent = e <;>
    simp [act, take, forked, forkedEnv, setStatus, setTf, setEnv, same]

theorem envs_setEnv_of_ne (t : Table) {e e' : Slot} (env : Env) (other : e' ≠ e) :
    (t.setEnv e env).envs e' = t.envs e' := by
  simp [setEnv, other]

theorem act_envs {t : Table} {a : Action} {e : Slot} (stays : ∀ c e, a ≠ .run c e)
    (other : a.changes ≠ some e) : (t.act a).envs e = t.envs e := by
  have apart : ∀ e', some e' ≠ some e → e ≠ e' := fun e' ne same => ne (congrArg some same.symm)
  cases a with
  | fork e' g parent =>
    rw [act_fork]
    exact envs_setEnv_of_ne t _ (apart e' other)
  | create e' | alloc e' | free e' | dying e' | setStatus e' | wake e' | frame e' | edit e'
  | block e' | deliver e' =>
    exact envs_setEnv_of_ne t _ (apart e' other)
  | clear | halt => rfl
  | run c e' => exact absurd rfl (stays c e')

def Path (ok : Table → Action → Prop) (t u : Table) : Prop :=
  ∃ acts, Run (fun t a => some (t.act a)) ok t acts u

namespace Path

variable {ok ok' : Table → Action → Prop} {t u v : Table}

theorem refl (t : Table) : Path ok t t := ⟨[], .nil t⟩

theorem one {a : Action} (allowed : ok t a) : Path ok t (t.act a) := ⟨[a], .single allowed rfl⟩

theorem trans (first : Path ok t u) (second : Path ok u v) : Path ok t v := by
  obtain ⟨as, first⟩ := first
  obtain ⟨bs, second⟩ := second
  exact ⟨as ++ bs, first.trans second⟩

theorem mono (path : Path ok t u) (weaker : ∀ t a, ok t a → ok' t a) : Path ok' t u := by
  obtain ⟨as, run⟩ := path
  exact ⟨as, run.mono weaker⟩

theorem invariant {motive : Table → Prop} (path : Path ok t u) (start : motive t)
    (keep : ∀ t a, motive t → ok t a → motive (t.act a)) : motive u := by
  obtain ⟨as, run⟩ := path
  refine run.invariant start fun t a u holds allowed next => ?_
  obtain rfl := Option.some.inj next
  exact keep t a holds allowed

end Path

section Scheduling

@[irreducible]
def firstRunnable (t : Table) (start : Nat) : Option Slot :=
  firstFrom (fun i => decide (t.status i = .runnable)) start

def schedStart (t : Table) (c : Nat) : Nat :=
  match t.curenv c with
  | some idle => (envx (t.envs idle).envId).val + 1
  | none => 0

def choice (t : Table) (c : Nat) : Option Slot :=
  (t.firstRunnable (t.schedStart c)).or ((t.curenv c).filter fun idle => t.status idle = .running)

def Yielded (t : Table) (c : Nat) (u : Table) : Prop :=
  match t.choice c with
  | some e => (t.envs e).envPgdir ≠ none ∧ u = t.act (.run c e)
  | none => u = t.act (.halt c) ∨ u = t

end Scheduling

end Table

def Exit.Lands (P : Table → Prop) : Exit → Prop
  | .user s | .halted s | .monitor s => P s.toTable
  | .panic _ _ => True

theorem Exit.Lands.mono {P Q : Table → Prop} {exit : Exit} (lands : exit.Lands P)
    (weaker : ∀ t, P t → Q t) : exit.Lands Q := by
  cases exit with
  | user s | halted s | monitor s => exact weaker _ lands
  | panic => trivial

class Exit.Lax (E : Exit → Prop) : Prop where
  panic : ∀ why s, E (.panic why s)

instance (P : Table → Prop) : Exit.Lax (Exit.Lands P) := ⟨fun _ _ => trivial⟩

def Table.lock (t : Table) : Option Nat × List LockOp := (t.kernelLock, t.lockOps)

def Exit.Unlocks (c : Nat) (lock : Option Nat × List LockOp) : Exit → Prop
  | .user s | .halted s => s.lock = (none, .release c :: lock.2)
  | .monitor s => s.lock = lock
  | .panic _ _ => True

/-- Why the kernel runs on behalf of CPU `c`: the state it finds once a user frame has been saved,
the environment that trapped, and what is asked of it. -/
inductive Request where
  | call (no : Word) (a : Args)
  | fault
  | interrupt (icr : Word)
  | other

structure Entry where
  s : Kernel
  c : Nat
  cur : Option Slot
  request : Request

namespace Entry

def calls (x : Entry) (call : SyscallNo) : Option (Slot × Args) :=
  match x.cur, x.request with
  | some cur, .call no a => if syscalls[no.toNat]? = some call then some (cur, a) else none
  | _, _ => none

def statusSet (x : Entry) : Option (Slot × EnvStatus) := do
  let (cur, a) ← x.calls .envSetStatus
  let status ← Kernel.statusArg a.a2
  let e ← x.s.envid2env cur a.a1 true
  some (e, status)

def typeSet (x : Entry) : Option (Slot × EnvType) := do
  let (cur, a) ← x.calls .envSetType
  let type ← Kernel.typeArg a.a1
  if slots.any fun i => decide ((x.s.envs i).envType = type) then none else some (cur, type)

def receiver (x : Entry) : Option Slot := do
  let (cur, a) ← x.calls .ipcTrySend
  let e ← x.s.envid2env cur a.a1 false
  if (x.s.envs e).envIpcRecving then some e else none

def woken (x : Entry) : List Slot :=
  match x.request with
  | .interrupt icr => (Kernel.wokenBy x.s.helpers.1 icr Kernel.icrTXDW).toList ++
      (Kernel.wokenBy x.s.helpers.2 icr Kernel.icrRXT0).toList
  | _ => []

def named (x : Entry) : Option Slot := do
  let (cur, a) ← (x.calls .envDestroy).or (x.calls .envSetTrapframe)
  x.s.envid2env cur a.a1 true

def buffer (x : Entry) : Option (Word × Nat) :=
  ((x.calls .receive).map fun call => (call.2.a1, 4)).or <|
    ((x.calls .getMacAddr).map fun call => (call.2.a1, 6)).or <|
      (x.calls .mouseGetp).map fun call => (call.2.a1, 12)

def Controls (x : Entry) (e : Slot) : Prop :=
  ∃ cur, x.cur = some cur ∧ (e = cur ∨ (x.s.envs e).envParentId = (x.s.envs cur).envId)

def copiedFrame (x : Entry) : Option (Slot × Trapframe) := do
  let (cur, a) ← x.calls .envSetTrapframe
  let e ← x.s.envid2env cur a.a1 true
  let s ← (x.s.userMemAssert x.c e a.a2 68 pteW).toOption
  let (_, words) ← (s.loadWords cur a.a2 17).toOption
  some (e, Kernel.trapframeOf words)

def Cause (x : Entry) (t : Table) : Action → Prop
  | .create _ _ _ _ | .alloc _ _ _ => False
  | .fork e _ parent =>
    t = x.s.toTable ∧ t.envFreeList = some e ∧ ∃ a, x.calls .exofork = some (parent, a)
  | .free e => t = x.s.toTable ∧ (t.envs e).envPgdir ≠ none ∧
      ¬(t.status e = .running ∧ t.curenv x.c ≠ some e) ∧ (x.cur = some e ∨ x.named = some e)
  | .dying e => t = x.s.toTable ∧ (t.status e = .running ∧ t.curenv x.c ≠ some e) ∧
      (x.cur = some e ∨ x.named = some e)
  | .setStatus e status => t = x.s.toTable ∧ x.statusSet = some (e, status)
  | .wake e => e ∈ x.woken ∧ (t = x.s.toTable ∨ ∃ other, t = x.s.toTable.setStatus other .runnable)
  | .frame e tf => x.cur = some e ∧ (∃ value, tf = (t.envs e).envTf.setEax value) ∨
      x.cur = some e ∧ x.request = .fault ∧
        (∃ eip esp, tf = { (t.envs e).envTf with tfEip := eip, tfEsp := esp }) ∨
      ∃ source, x.copiedFrame = some (e, source) ∧ tf = Kernel.maskFrame source
  | .edit e type _ _ =>
    x.Controls e ∧ (type = (t.envs e).envType ∨ t = x.s.toTable ∧ x.typeSet = some (e, type))
  | .block e dstva => t = x.s.toTable ∧ ∃ a, x.calls .ipcRecv = some (e, a) ∧ dstva = a.a1
  | .deliver e source _ _ => t = x.s.toTable ∧ x.receiver = some e ∧
      ∃ cur, x.cur = some cur ∧ source = (t.envs cur).envId
  | .clear c => c = x.c
  | .run c e => c = x.c ∧ (t.envs e).envPgdir ≠ none ∧ (t.status e = .runnable ∨
      t.curenv c = some e ∧
        (t.status e = .running ∨ x.request = .fault ∧ x.cur = some e ∧ t.status e = x.s.status e))
  | .halt c => c = x.c

def Inner (x : Entry) (t : Table) : Action → Prop
  | .run _ _ | .halt _ => False
  | a => x.Cause t a

def Left (x : Entry) (t u : Table) : Prop :=
  ∃ t', Table.Path x.Inner t t' ∧
    (u = t' ∨ (∃ c e, x.Cause t' (.run c e) ∧ u = t'.act (.run c e)) ∨ ∃ c, x.Cause t' (.halt c) ∧
      u = t'.act (.halt c))

variable {x : Entry} {t u v : Table}

theorem Inner.cause {a : Action} (inner : x.Inner t a) : x.Cause t a := by
  cases a <;> first | exact inner | exact inner.elim

namespace Left

theorem run {c : Nat} {e : Slot} (cause : x.Cause t (.run c e)) : x.Left t (t.act (.run c e)) :=
  ⟨t, .refl t, .inr (.inl ⟨c, e, cause, rfl⟩)⟩

theorem after (left : x.Left u v) (first : Table.Path x.Inner t u) : x.Left t v := by
  obtain ⟨t', path, last⟩ := left
  exact ⟨t', first.trans path, last⟩

theorem path (left : x.Left t u) : Table.Path x.Cause t u := by
  obtain ⟨t', path, last⟩ := left
  have inside : Table.Path x.Cause t t' := path.mono fun _ _ => Inner.cause
  rcases last with rfl | ⟨c, e, cause, rfl⟩ | ⟨c, cause, rfl⟩
  · exact inside
  · exact inside.trans (.one cause)
  · exact inside.trans (.one cause)

end Left

def Went (x : Entry) (t u : Table) : Prop :=
  ∃ t', Table.Path x.Inner t t' ∧ (t'.Yielded x.c u ∨
    ∃ e, x.Cause t' (.run x.c e) ∧ t'.curenv x.c = some e ∧ u = t'.act (.run x.c e))

namespace Went

theorem yield (yielded : t.Yielded x.c u) : x.Went t u := ⟨t, .refl t, .inl yielded⟩

theorem resume {e : Slot} (cause : x.Cause t (.run x.c e)) (current : t.curenv x.c = some e) :
    x.Went t (t.act (.run x.c e)) := ⟨t, .refl t, .inr ⟨e, cause, current, rfl⟩⟩

theorem after (went : x.Went u v) (first : Table.Path x.Inner t u) : x.Went t v := by
  obtain ⟨t', path, last⟩ := went
  exact ⟨t', first.trans path, last⟩

theorem left (went : x.Went t u) : x.Left t u := by
  obtain ⟨t', path, yielded | ⟨e, cause, -, rfl⟩⟩ := went
  · refine ⟨t', path, ?_⟩
    unfold Table.Yielded at yielded
    split at yielded
    next e chosen =>
      refine .inr (.inl ⟨x.c, e, ⟨rfl, yielded.1, ?_⟩, yielded.2⟩)
      rw [Table.choice, Option.or_eq_some_iff] at chosen
      rcases chosen with found | ⟨-, idle⟩
      · unfold Table.firstRunnable at found
        exact .inl (by simpa using (firstFrom_spec.mp found).1)
      · obtain ⟨current, running⟩ := Option.filter_eq_some_iff.mp idle
        exact .inr ⟨current, .inl (by simpa using running)⟩
    · rcases yielded with rfl | rfl
      · exact .inr (.inr ⟨x.c, rfl, rfl⟩)
      · exact .inl rfl
  · exact (Left.run cause).after path

theorem path (went : x.Went t u) : Table.Path x.Cause t u := went.left.path

end Went

theorem inner_lock (path : Table.Path x.Inner t u) : u.lock = t.lock := by
  refine path.invariant (motive := fun u => u.lock = t.lock) rfl fun u a kept inner => ?_
  cases a with
  | run | halt => exact inner.elim
  | _ => exact kept

def Exits (x : Entry) (t : Table) (exit : Exit) : Prop := exit.Lands (x.Went t) ∧ exit.Unlocks x.c t.lock

instance (x : Entry) (t : Table) : Exit.Lax (x.Exits t) := ⟨fun _ _ => ⟨trivial, trivial⟩⟩

theorem Exits.after {exit : Exit} (exits : x.Exits u exit) (first : Table.Path x.Inner t u) :
    x.Exits t exit :=
  ⟨exits.1.mono fun _ rest => rest.after first, inner_lock first ▸ exits.2⟩

end Entry

end Jos.Kern
