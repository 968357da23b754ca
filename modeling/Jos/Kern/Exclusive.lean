import Jos.Kern.Integrity

namespace Jos.Kern

open Jos.Shared

namespace Table

theorem yieldCpu_cpus (t : Table) (c : Nat) : (t.yieldCpu c).cpus = t.cpus := by
  unfold yieldCpu
  repeat' split
  all_goals rfl

theorem yieldCpu_ncpu (t : Table) (c : Nat) : (t.yieldCpu c).ncpu = t.ncpu := by
  unfold yieldCpu
  repeat' split
  all_goals rfl

theorem act_ncpu (t : Table) (a : Action) : (t.act a).ncpu = t.ncpu := by
  cases a with
  | run c e => exact yieldCpu_ncpu t c
  | _ => rfl

theorem act_lock (t : Table) (a : Action) :
    (t.act a).kernelLock = none ∨ (t.act a).kernelLock = t.kernelLock := by
  cases a with
  | run | halt => exact .inl rfl
  | _ => exact .inr rfl

def Claimed (t : Table) (e : Slot) : Prop := t.status e = .running ∨ t.status e = .dying

theorem Claimed.live {t : Table} {e : Slot} (claimed : t.Claimed e) : t.status e ≠ .free := by
  rcases claimed with status | status <;> exact fun free => absurd (status.symm.trans free) (by decide)

structure Exclusive (t : Table) (inside : Option Nat) : Prop where
  unique : ∀ c c' e, t.curenv c = some e → t.curenv c' = some e → c = c'
  claimed : ∀ c e, t.curenv c = some e → inside ≠ some c → t.Claimed e
  offline : ∀ c, t.ncpu ≤ c → (t.cpus c).cpuMode = .unused ∧ t.curenv c = none

namespace Exclusive

variable {t : Table} {inside : Option Nat}

theorem enter (exclusive : t.Exclusive none) (c : Nat) : t.Exclusive (some c) :=
  ⟨exclusive.unique, fun c' e current _ => exclusive.claimed c' e current nofun, exclusive.offline⟩

theorem setEnv (exclusive : t.Exclusive inside) (e : Slot) (env : Env)
    (keeps : ∀ c, t.curenv c = some e → inside ≠ some c →
      env.envStatus = .running ∨ env.envStatus = .dying) : (t.setEnv e env).Exclusive inside := by
  refine ⟨exclusive.unique, fun c e' current outside => ?_, exclusive.offline⟩
  by_cases same : e' = e
  · subst same
    simpa [Claimed, Table.setEnv, status] using keeps c current outside
  · simpa [Claimed, Table.setEnv, status, same] using exclusive.claimed c e' current outside

theorem idle (exclusive : t.Exclusive inside) (e : Slot) (env : Env)
    (idle : ∀ c, inside ≠ some c → t.curenv c ≠ some e) : (t.setEnv e env).Exclusive inside :=
  exclusive.setEnv e env fun c current outside => absurd current (idle c outside)

theorem edit (exclusive : t.Exclusive inside) (e : Slot) (env : Env) (same : env.envStatus = t.status e) :
    (t.setEnv e env).Exclusive inside :=
  exclusive.setEnv e env fun c current outside => same ▸ exclusive.claimed c e current outside

theorem list (exclusive : t.Exclusive inside) (head : Option Slot) :
    Exclusive { t with envFreeList := head } inside :=
  ⟨exclusive.unique, exclusive.claimed, exclusive.offline⟩

theorem not_unclaimed (exclusive : t.Exclusive inside) {e : Slot} (unclaimed : ¬t.Claimed e) :
    ∀ c, inside ≠ some c → t.curenv c ≠ some e :=
  fun c outside current => unclaimed (exclusive.claimed c e current outside)

theorem not_others (exclusive : t.Exclusive inside) {c : Nat} {e : Slot} (current : t.curenv c = some e) :
    ∀ c', some c ≠ some c' → t.curenv c' ≠ some e :=
  fun c' other here => other (congrArg some (exclusive.unique c c' e current here))

theorem clear (exclusive : t.Exclusive inside) (c : Nat) : (t.act (.clear c)).Exclusive inside := by
  have fewer : ∀ c' e, (t.act (.clear c)).curenv c' = some e → t.curenv c' = some e := by
    intro c' e current
    by_cases same : c' = c <;> simp_all [Table.act, setCpu, curenv]
  refine ⟨fun c₁ c₂ e first second => exclusive.unique c₁ c₂ e (fewer c₁ e first) (fewer c₂ e second),
    fun c' e current => exclusive.claimed c' e (fewer c' e current), fun c' above => ?_⟩
  obtain ⟨unused, none⟩ := exclusive.offline c' above
  by_cases same : c' = c <;> simp_all [Table.act, setCpu, curenv]

theorem leave {c : Nat} (exclusive : t.Exclusive (some c)) (online : c < t.ncpu) (info : CpuInfo)
    (mine : ∀ e, info.cpuEnv = some e → t.Claimed e ∧ ∀ c', some c ≠ some c' → t.curenv c' ≠ some e) :
    (t.leave c info).Exclusive none := by
  have others : ∀ c', c' ≠ c → (t.leave c info).cpus c' = t.cpus c' := fun c' other => by
    simp [Table.leave, setCpu, other]
  have here : (t.leave c info).curenv c = info.cpuEnv := by simp [Table.leave, setCpu, curenv]
  have there : ∀ c', c' ≠ c → (t.leave c info).curenv c' = t.curenv c' := fun c' other => by
    rw [curenv, others c' other, curenv]
  have apart : ∀ c', c' ≠ c → some c ≠ some c' := fun c' other same => other (Option.some.inj same).symm
  refine ⟨fun c₁ c₂ e first second => ?_, fun c' e current _ => ?_, fun c' above => ?_⟩
  · by_cases one : c₁ = c <;> by_cases two : c₂ = c
    · rw [one, two]
    · rw [one, here] at first
      rw [there c₂ two] at second
      exact absurd second ((mine e first).2 c₂ (apart c₂ two))
    · rw [two, here] at second
      rw [there c₁ one] at first
      exact absurd first ((mine e second).2 c₁ (apart c₁ one))
    · rw [there c₁ one] at first
      rw [there c₂ two] at second
      exact exclusive.unique c₁ c₂ e first second
  · by_cases same : c' = c
    · rw [same, here] at current
      exact (mine e current).1
    · rw [there c' same] at current
      exact exclusive.claimed c' e current (apart c' same)
  · have other : c' ≠ c := fun same => absurd online (not_lt.mpr (same ▸ above))
    rw [others c' other, there c' other]
    exact exclusive.offline c' above

theorem yieldCpu {c : Nat} (exclusive : t.Exclusive (some c)) : (t.yieldCpu c).Exclusive (some c) := by
  unfold Table.yieldCpu
  split
  next cur current =>
    split
    · exact exclusive.idle cur _ (exclusive.not_others current)
    · exact exclusive
  · exact exclusive

theorem run {c : Nat} {e : Slot} (exclusive : t.Exclusive (some c)) (online : c < t.ncpu)
    (mine : ∀ c', some c ≠ some c' → t.curenv c' ≠ some e) : (t.act (.run c e)).Exclusive none := by
  have mine' : ∀ c', some c ≠ some c' → (t.yieldCpu c).curenv c' ≠ some e := fun c' other => by
    rw [curenv, yieldCpu_cpus]
    exact mine c' other
  have online' : c < (t.yieldCpu c).ncpu := (yieldCpu_ncpu t c).symm ▸ online
  refine (exclusive.yieldCpu.idle e _ mine').leave online' ⟨.user, some e⟩ fun e' same => ?_
  obtain rfl := Option.some.inj same
  exact ⟨.inl (by simp [Table.setEnv, status]), mine'⟩

end Exclusive

end Table

namespace Entry

-- The entry takes the status of `e` out of the hands of a CPU that runs it: it sets it, delivers a
-- message to `e`, wakes `e`, or frees it although it is dying already.
def Touches (x : Entry) (e : Slot) : Prop :=
  x.statusSet.map Prod.fst = some e ∨ x.receiver = some e ∨ e ∈ x.woken ∨
    x.named = some e ∧ x.s.status e = .dying

instance (x : Entry) (e : Slot) : Decidable (x.Touches e) :=
  inferInstanceAs (Decidable (_ ∨ _ ∨ _ ∨ _ ∧ _))

structure Considerate (x : Entry) : Prop where
  woken : ∀ e ∈ x.woken, x.s.status e ≠ .free
  others : ∀ c < x.s.ncpu, c ≠ x.c → ∀ e ∈ x.s.curenv c, ¬x.Touches e

instance (x : Entry) : Decidable x.Considerate :=
  decidable_of_iff (x.woken.all (x.s.status · ≠ .free) ∧
      ∀ c < x.s.ncpu, c ≠ x.c → (x.s.curenv c).all (¬x.Touches ·)) <| by
    constructor
    · intro both
      exact ⟨by simpa using both.1, by simpa [Option.all_eq_true] using both.2⟩
    · intro considerate
      exact ⟨by simpa using considerate.woken, by simpa [Option.all_eq_true] using considerate.others⟩

structure Orderly (x : Entry) (t : Table) : Prop where
  ok : t.Ok
  exclusive : t.Exclusive t.kernelLock
  lock : t.kernelLock = none ∨ t.kernelLock = some x.c
  ncpu : t.ncpu = x.s.ncpu

namespace Orderly

variable {x : Entry} {t : Table}

theorem inside (orderly : x.Orderly t) : t.Exclusive (some x.c) := by
  rcases orderly.lock with lock | lock
  · exact (lock ▸ orderly.exclusive).enter x.c
  · exact lock ▸ orderly.exclusive

end Orderly

structure Proper (x : Entry) : Prop extends x.Considerate, x.Orderly x.s.toTable where
  locked : x.s.kernelLock = some x.c
  online : x.c < x.s.ncpu
  cur : ∀ cur ∈ x.cur, x.s.curenv x.c = some cur
  current : ∀ cur ∈ x.cur, x.s.status cur ≠ .free

namespace Proper

variable {x : Entry} {t : Table}

theorem live (proper : x.Proper) : x.Live := ⟨proper.woken, proper.current⟩

theorem mine (proper : x.Proper) {e : Slot} (touches : x.cur = some e ∨ x.Touches e) :
    ∀ c, some x.c ≠ some c → x.s.curenv c ≠ some e := by
  intro c other here
  rcases touches with trapped | touches
  · exact proper.inside.not_others (proper.cur e trapped) c other here
  · by_cases below : c < x.s.ncpu
    · exact proper.others c below (fun same => other (congrArg some same.symm)) e here touches
    · have offline := (proper.exclusive.offline c (not_lt.mp below)).2
      exact absurd (offline.symm.trans here) nofun

theorem exclusive_act (proper : x.Proper) (orderly : x.Orderly t) {a : Action} (cause : x.Cause t a) :
    (t.act a).Exclusive (t.act a).kernelLock := by
  have locked := proper.locked
  cases a with
  | create | alloc => exact cause.elim
  | fork e g parent =>
    have free : ¬t.Claimed e := fun claimed => claimed.live (orderly.ok.head_free cause.2.1)
    rw [Table.act_fork]
    exact (orderly.exclusive.idle e _ (orderly.exclusive.not_unclaimed free)).list _
  | free e =>
    obtain ⟨rfl, -, unclaimed, named⟩ := cause
    refine (orderly.exclusive.idle e _ fun c outside here => ?_).list _
    have other : x.c ≠ c := fun same => outside (same ▸ locked)
    have elsewhere : x.s.curenv x.c ≠ some e := fun current =>
      other (orderly.exclusive.unique x.c c e current here)
    rcases orderly.exclusive.claimed c e here outside with running | dying
    · exact unclaimed ⟨running, elsewhere⟩
    · rcases named with trapped | named
      · exact elsewhere (proper.cur e trapped)
      · exact proper.mine (.inr (.inr (.inr (.inr ⟨named, dying⟩)))) c (mt Option.some.inj other) here
  | dying e => exact orderly.exclusive.setEnv e _ fun _ _ _ => .inr rfl
  | setStatus e status =>
    obtain ⟨rfl, sets⟩ := cause
    have touches : x.Touches e := .inl (by simp [sets])
    exact orderly.exclusive.idle e _ (locked ▸ proper.mine (.inr touches))
  | wake e =>
    have touches : x.Touches e := .inr (.inr (.inl cause.1))
    have idle := locked ▸ proper.mine (.inr touches)
    rcases cause.2 with rfl | ⟨other, rfl⟩ <;> exact orderly.exclusive.idle e _ idle
  | frame e tf | edit e type upcall priority => exact orderly.exclusive.edit e _ rfl
  | block e dstva =>
    obtain ⟨rfl, a, called, -⟩ := cause
    exact orderly.exclusive.idle e _ (locked ▸ proper.mine (.inl (cur_of_calls called)))
  | deliver e source value perm =>
    obtain ⟨rfl, receives, -⟩ := cause
    exact orderly.exclusive.idle e _ (locked ▸ proper.mine (.inr (.inr (.inl receives))))
  | clear c => exact orderly.exclusive.clear c
  | run c e =>
    obtain ⟨rfl, -, ready⟩ := cause
    refine orderly.inside.run (orderly.ncpu ▸ proper.online) ?_
    rcases ready with runnable | ⟨current, -⟩
    · refine orderly.inside.not_unclaimed ?_
      rintro (running | dying)
      · exact absurd (runnable.symm.trans running) (by decide)
      · exact absurd (runnable.symm.trans dying) (by decide)
    · exact orderly.inside.not_others current
  | halt c =>
    obtain rfl := cause
    exact orderly.inside.leave (orderly.ncpu ▸ proper.online) _ nofun

theorem act (proper : x.Proper) (orderly : x.Orderly t) {a : Action} (cause : x.Cause t a) :
    x.Orderly (t.act a) where
  ok := orderly.ok.act (proper.live.sound cause)
  exclusive := proper.exclusive_act orderly cause
  lock := (Table.act_lock t a).elim .inl fun same => same ▸ orderly.lock
  ncpu := (Table.act_ncpu t a).trans orderly.ncpu

end Proper

end Entry

namespace Kernel

def Orderly (s : Kernel) : Prop := s.Ok ∧ s.Exclusive s.kernelLock

theorem Orderly.proper {s : Kernel} (orderly : s.Orderly) {ev : Event} {x : Entry}
    (unlocked : s.kernelLock = none) (entered : s.entryOf ev = some x)
    (awake : x.c < s.ncpu ∨ (s.cpus x.c).cpuMode ≠ .unused) (considerate : x.Considerate) :
    x.Proper := by
  have finds := entryOf_finds s entered
  have exclusive : s.Exclusive none := unlocked ▸ orderly.2
  have status : ∀ e, x.s.status e = s.status e := fun e => by
    obtain ⟨tf, env⟩ := finds.envs e
    simp [Table.status, env]
  have curenv : ∀ c, x.s.curenv c = s.curenv c := fun c => by rw [Table.curenv, finds.cpus, Table.curenv]
  have online : x.c < s.ncpu := by
    rcases awake with below | awake
    · exact below
    · by_contra above
      exact awake (exclusive.offline x.c (not_lt.mp above)).1
  have found : x.s.Exclusive x.s.kernelLock := by
    rw [finds.locked]
    refine ⟨fun c c' e => ?_, fun c e here _ => ?_, fun c above => ?_⟩
    · rw [curenv, curenv]
      exact exclusive.unique c c' e
    · rw [curenv] at here
      rw [Table.Claimed, status]
      exact exclusive.claimed c e here (by rintro ⟨⟩)
    · rw [finds.ncpu] at above
      rw [finds.cpus, curenv]
      exact exclusive.offline c above
  refine ⟨considerate, ⟨entryOf_ok orderly.1 entered, found, .inr finds.locked, rfl⟩, finds.locked,
    finds.ncpu ▸ online, fun cur trapped => curenv x.c ▸ finds.cur cur trapped, fun cur trapped => ?_⟩
  rw [status]
  exact (exclusive.claimed x.c cur (finds.cur cur trapped) (by rintro ⟨⟩)).live

theorem step_orderly {s s' : Kernel} {ev : Event} (orderly : s.Orderly)
    (considerate : ∀ x ∈ s.entryOf ev, x.Considerate) (stepped : s.step ev = some s') : s'.Orderly := by
  rcases step_table s stepped with ⟨x, entered, ready, left⟩ |
    ⟨e, g, type, segments, entry, -, unlocked, head, table⟩ | ⟨-, same⟩
  · have proper := orderly.proper ready.1 entered ready.2 (considerate x entered)
    have after : x.Orderly s'.toTable := left.path.invariant proper.toOrderly fun _ _ holds cause =>
      proper.act holds cause
    exact ⟨after.ok, after.exclusive⟩
  · have free : ¬s.Claimed e := fun claimed => claimed.live (orderly.1.head_free head)
    have created := (orderly.2.idle e (Table.createdEnv (s.envs e) e g type entry)
      (orderly.2.not_unclaimed free)).list (s.envs e).envLink
    rw [Orderly, table]
    exact ⟨orderly.1.act head, created⟩
  · rw [Orderly, same]
    exact orderly

theorem Booted.orderly {s : Kernel} {free : List Nat} (booted : s.Booted free) : s.Orderly := by
  rw [Orderly, booted.table]
  exact ⟨bootTable_ok _, nofun, nofun, fun _ _ => ⟨rfl, rfl⟩⟩

end Kernel

end Jos.Kern
