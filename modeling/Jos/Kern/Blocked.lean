import Jos.Kern.Exclusive

namespace Jos.Kern

open Jos.Shared

def Table.Blocked (t : Table) : Prop :=
  ∀ e, (t.envs e).envIpcRecving = true → t.status e ≠ .runnable ∧ t.status e ≠ .running

namespace Table.Blocked

variable {t : Table}

theorem setEnv (blocked : t.Blocked) (e : Slot) (env : Env)
    (waits : env.envIpcRecving = true → env.envStatus ≠ .runnable ∧ env.envStatus ≠ .running) :
    (t.setEnv e env).Blocked := by
  intro e'
  by_cases same : e' = e
  · subst same
    simpa [Table.setEnv, status] using waits
  · simpa [Table.setEnv, status, same] using blocked e'

theorem list (blocked : t.Blocked) (head : Option Slot) : Blocked { t with envFreeList := head } :=
  blocked

theorem leave (blocked : t.Blocked) (c : Nat) (info : CpuInfo) : (t.leave c info).Blocked := blocked

theorem idle_of_ready (blocked : t.Blocked) {e : Slot}
    (ready : t.status e = .runnable ∨ t.status e = .running) :
    (t.envs e).envIpcRecving = false := by
  cases waits : (t.envs e).envIpcRecving with
  | false => rfl
  | true => exact absurd ready (not_or.mpr (blocked e waits))

theorem yieldCpu (blocked : t.Blocked) (c : Nat) : (t.yieldCpu c).Blocked := by
  unfold Table.yieldCpu
  split
  next cur _ =>
    split
    next running =>
      have idle := blocked.idle_of_ready (.inr running)
      exact blocked.setEnv cur _ (by simp [idle])
    · exact blocked
  · exact blocked

theorem yieldCpu_recving (t : Table) (c : Nat) (e : Slot) :
    ((t.yieldCpu c).envs e).envIpcRecving = (t.envs e).envIpcRecving := by
  unfold Table.yieldCpu
  split
  next cur _ =>
    split
    · by_cases same : e = cur <;> simp [setStatus, Table.setEnv, same]
    · rfl
  · rfl

theorem run (blocked : t.Blocked) (c : Nat) (e : Slot) (idle : (t.envs e).envIpcRecving = false) :
    (t.act (.run c e)).Blocked := by
  refine ((blocked.yieldCpu c).setEnv e _ ?_).leave c _
  simp [yieldCpu_recving, idle]

end Table.Blocked

namespace Entry

def faulting (x : Entry) : Option Slot :=
  match x.request with
  | .fault => x.cur
  | _ => none

/-- Nothing but a message is about to resume an environment that waits for one: `sys_env_set_status`
does not make it runnable, no interrupt wakes it, and no page fault of its own is handled. -/
structure Undisturbed (x : Entry) : Prop where
  status : ∀ e, x.statusSet = some (e, .runnable) → (x.s.envs e).envIpcRecving = false
  woken : ∀ e ∈ x.woken, (x.s.envs e).envIpcRecving = false
  faulting : ∀ e ∈ x.faulting, (x.s.envs e).envIpcRecving = false

instance (x : Entry) : Decidable x.Undisturbed :=
  decidable_of_iff (x.statusSet.all (fun set => set.2 = .runnable →
    (x.s.envs set.1).envIpcRecving = false) ∧
      x.woken.all (fun e => (x.s.envs e).envIpcRecving = false) ∧
      x.faulting.all (fun e => (x.s.envs e).envIpcRecving = false)) <| by
    constructor
    · rintro ⟨status, woken, faulting⟩
      refine ⟨fun e sets => ?_, by simpa using woken, by simpa [Option.all_eq_true] using faulting⟩
      simpa [sets] using status
    · rintro ⟨status, woken, faulting⟩
      refine ⟨?_, by simpa using woken, by simpa [Option.all_eq_true] using faulting⟩
      simp only [Option.all_eq_true, decide_eq_true_eq]
      rintro ⟨e, st⟩ sets rfl
      exact status e sets

structure Waits (x : Entry) (t : Table) : Prop where
  blocked : t.Blocked
  faulting : ∀ e ∈ x.faulting, (t.envs e).envIpcRecving = false

theorem faulting_eq {x : Entry} {e : Slot} (fault : x.request = .fault) (trapped : x.cur = some e) :
    x.faulting = some e := by
  simp [faulting, fault, trapped]

theorem calls_of_faulting {x : Entry} {e : Slot} (faults : x.faulting = some e) (call : SyscallNo) :
    x.calls call = none := by
  unfold faulting at faults
  split at faults
  next fault => simp [calls, fault]
  · cases faults

theorem recving_act {x : Entry} {t : Table} {a : Action} (cause : x.Cause t a) {e : Slot}
    (idle : (t.envs e).envIpcRecving = false) (called : x.calls .ipcRecv = none) :
    ((t.act a).envs e).envIpcRecving = false := by
  cases a with
  | create | alloc => exact cause.elim
  | block e' dstva =>
    obtain ⟨-, a, calls, -⟩ := cause
    exact absurd (called.symm.trans calls) nofun
  | run c e' =>
    by_cases same : e = e' <;>
      simp [Table.act, Table.runOn, Table.leave, Table.setCpu, Table.setEnv,
        Table.Blocked.yieldCpu_recving, same]
    · exact same ▸ idle
    · exact idle
  | clear | halt => exact idle
  | fork e' | free e' | dying e' | setStatus e' | wake e' | frame e' | edit e' | deliver e' =>
    by_cases same : e = e' <;>
      simp_all [Table.act, Table.take, Table.forked, Table.setStatus, Table.setTf, Table.setEnv,
        Table.release, Kernel.freshEnv, Kernel.received]

theorem Undisturbed.act {x : Entry} (undisturbed : x.Undisturbed) {t : Table} {a : Action}
    (waits : x.Waits t) (cause : x.Cause t a) : x.Waits (t.act a) := by
  have faulting : ∀ e ∈ x.faulting, ((t.act a).envs e).envIpcRecving = false := fun e faults =>
    recving_act cause (waits.faulting e faults) (calls_of_faulting faults _)
  refine ⟨?_, faulting⟩
  have blocked := waits.blocked
  cases a with
  | create | alloc => exact cause.elim
  | fork e g parent =>
    rw [Table.act_fork]
    exact (blocked.setEnv e _ (by simp [Table.forkedEnv])).list _
  | free e => exact (blocked.setEnv e _ (by simp)).list _
  | dying e => exact blocked.setEnv e _ (by simp)
  | setStatus e status =>
    obtain ⟨rfl, sets⟩ := cause
    refine blocked.setEnv e _ fun waiting => ?_
    rcases (statusSet_spec sets).2 with rfl | rfl
    · exact absurd ((undisturbed.status e sets).symm.trans waiting) (by decide)
    · simp
  | wake e =>
    have idle : (t.envs e).envIpcRecving = false := by
      have found := undisturbed.woken e cause.1
      rcases cause.2 with rfl | ⟨other, rfl⟩
      · exact found
      · by_cases same : e = other <;> simp_all [Table.setStatus, Table.setEnv]
    exact blocked.setEnv e _ (by simp [idle])
  | frame e tf | edit e type upcall priority => exact blocked.setEnv e _ (blocked e)
  | block e dstva => exact blocked.setEnv e _ (by simp)
  | deliver e source value perm => exact blocked.setEnv e _ (by simp [Kernel.received])
  | clear c => exact blocked
  | run c e =>
    refine blocked.run c e ?_
    rcases cause.2.2 with runnable | ⟨-, running | ⟨fault, trapped, -⟩⟩
    · exact blocked.idle_of_ready (.inl runnable)
    · exact blocked.idle_of_ready (.inr running)
    · exact waits.faulting e (faulting_eq fault trapped)
  | halt c => exact blocked.leave c _

end Entry

namespace Kernel

end Kernel

end Jos.Kern
