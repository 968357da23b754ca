import Jos.Kern.EnvIds
import Jos.Kern.Exclusive

namespace Jos.Kern

open Jos.Shared

theorem envx_nextId (old : Word) (e : Slot) : envx (Kernel.nextId old e) = e := by
  have inside := e.isLt
  have place : ∀ v : Word, v.toNat % 1024 = 0 → envx (v ||| BitVec.ofNat 32 e.val) = e := by
    intro v aligned
    apply Fin.ext
    rw [envx, toNat_or_slot aligned, Fin.val_ofNat]
    omega
  unfold Kernel.nextId
  dsimp only
  split
  · exact place _ (by decide)
  · refine place _ ?_
    rw [toNat_and_not_1023]
    omega

namespace Table

variable {t u : Table} {a : Action} {c : Nat} {e : Slot}

structure Numbered (t : Table) : Prop where
  issued : ∀ e, (t.envs e).envPgdir ≠ none → envx (t.envs e).envId = e
  current : ∀ c e, t.curenv c = some e → envx (t.envs e).envId = e

theorem yieldCpu_id (t : Table) (c : Nat) (e : Slot) :
    ((t.yieldCpu c).envs e).envId = (t.envs e).envId := by
  unfold yieldCpu
  repeat' split
  next cur _ _ => by_cases same : e = cur <;> simp [setStatus, setEnv, same]
  all_goals rfl

theorem act_id (t : Table) (a : Action) (e : Slot) : envx ((t.act a).envs e).envId = e ∨
    ((t.act a).envs e).envId = (t.envs e).envId ∧
      (((t.act a).envs e).envPgdir ≠ none → (t.envs e).envPgdir ≠ none) := by
  cases a with
  | create e' g type entry =>
    by_cases same : e = e'
    · subst same
      exact .inl (by simpa [act, take, setEnv, createdEnv, Kernel.freshEnv] using envx_nextId _ e)
    · exact .inr (by simp [act, take, setEnv, same])
  | alloc e' g parentId =>
    by_cases same : e = e'
    · subst same
      exact .inl (by simpa [act, take, setEnv, Kernel.freshEnv] using envx_nextId _ e)
    · exact .inr (by simp [act, take, setEnv, same])
  | fork e' g parent =>
    rw [act_fork]
    by_cases same : e = e'
    · subst same
      exact .inl (by simpa [take, setEnv, forkedEnv, Kernel.freshEnv] using envx_nextId _ e)
    · exact .inr (by simp [take, setEnv, same])
  | free e' | dying e' | setStatus e' | wake e' | frame e' | edit e' | block e' | deliver e' =>
    by_cases same : e = e'
    · subst same
      exact .inr (by simp [act, release, Table.setStatus, setTf, setEnv, Kernel.received])
    · exact .inr (by simp [act, release, Table.setStatus, setTf, setEnv, same])
  | clear | halt => exact .inr ⟨rfl, id⟩
  | run c e' =>
    refine .inr ?_
    have kept := yieldCpu_id t c e
    have space := Kernel.yieldCpu_pgdir t c e
    by_cases same : e = e'
    · subst same
      simp [act, runOn, leave, setCpu, setEnv, kept, space]
    · simp [act, runOn, leave, setCpu, setEnv, same, kept, space]

theorem act_curenv (current : (t.act a).curenv c = some e) : t.curenv c = some e ∨ a = .run c e := by
  cases a with
  | clear c' =>
    by_cases same : c = c' <;> simp_all [act, setCpu, curenv]
  | halt c' =>
    by_cases same : c = c' <;> simp_all [act, leave, setCpu, curenv]
  | run c' e' =>
    by_cases same : c = c'
    · subst same
      exact .inr (by simpa [act, runOn, leave, setCpu, curenv, eq_comm] using current)
    · simp only [act, runOn, leave, setCpu, setEnv, curenv, Function.update_of_ne same,
        yieldCpu_cpus] at current
      exact .inl current
  | _ => exact .inl current

theorem curenv_run (t : Table) (c : Nat) (e : Slot) : (t.act (.run c e)).curenv c = some e := by
  simp [act, runOn, leave, setCpu, curenv]

theorem curenv_halt (t : Table) (c : Nat) : (t.act (.halt c)).curenv c = none := by
  simp [act, leave, setCpu, curenv]

theorem Numbered.act (numbered : t.Numbered) (runs : ∀ c e, a = .run c e → (t.envs e).envPgdir ≠ none) :
    (t.act a).Numbered := by
  refine ⟨fun e own => ?_, fun c e here => ?_⟩
  · rcases act_id t a e with new | ⟨same, before⟩
    · exact new
    · rw [same]
      exact numbered.issued e (before own)
  · rcases act_id t a e with new | ⟨same, -⟩
    · exact new
    · rw [same]
      rcases act_curenv here with before | run
      · exact numbered.current c e before
      · exact numbered.issued e (runs c e run)

end Table

namespace Entry

variable {x : Entry} {t u : Table}

theorem curenv_path (path : Table.Path x.Cause t u) {c : Nat} (other : x.c ≠ c) {e : Slot}
    (current : u.curenv c = some e) : t.curenv c = some e := by
  refine path.invariant (motive := fun u => u.curenv c = some e → t.curenv c = some e) id
    (fun u a before cause current => ?_) current
  rcases Table.act_curenv current with earlier | run
  · exact before earlier
  · subst run
    exact absurd cause.1.symm other

theorem curenv_inner (path : Table.Path x.Inner t u) {c : Nat} {e : Slot}
    (current : u.curenv c = some e) : t.curenv c = some e := by
  refine path.invariant (motive := fun u => u.curenv c = some e → t.curenv c = some e) id
    (fun u a before inner current => ?_) current
  rcases Table.act_curenv current with earlier | run
  · exact before earlier
  · subst run
    exact inner.elim

end Entry

structure Decision where
  last : Option Slot
  table : Table

namespace Decision

variable (c : Nat) (d : Decision)

def next : Nat :=
  match d.last with
  | some last => last.val + 1
  | none => 0

structure Sound : Prop where
  last : ∀ e, d.table.curenv c = some e → d.last = some e
  numbered : d.table.Numbered

def turn : Turn 1024 := ⟨d.next, fun i => decide (d.table.status i = .runnable)⟩

variable {c d}

end Decision

/-- The calls of `sched_yield` on CPU `c` along a run, the last one at the end of `log`. `last` is
the environment that the CPU has last run. -/
inductive Watched (c : Nat) (s₀ : Kernel) : List Event → Kernel → Option Slot → List Decision → Prop where
  | boot : Watched c s₀ [] s₀ none []
  | yield {events : List Event} {ev : Event} {s s' : Kernel} {last : Option Slot}
    {log : List Decision} {x : Entry}
      {t : Table} (before : Watched c s₀ events s last log) (stepped : s.step ev = some s')
      (entered : s.entryOf ev = some x) (here : x.c = c) (path : Table.Path x.Inner x.s.toTable t)
      (yielded : t.Yielded c s'.toTable) :
      Watched c s₀ (events ++ [ev]) s' ((t.choice c).or last) (log ++ [⟨last, t⟩])
  | resume {events : List Event} {ev : Event} {s s' : Kernel} {last : Option Slot}
    {log : List Decision} {x : Entry}
      {t : Table} {e : Slot} (before : Watched c s₀ events s last log) (stepped : s.step ev = some s')
      (entered : s.entryOf ev = some x) (here : x.c = c) (path : Table.Path x.Inner x.s.toTable t)
      (current : t.curenv c = some e) (resumed : s'.toTable = t.act (.run c e)) :
      Watched c s₀ (events ++ [ev]) s' last log
  | elsewhere {events : List Event} {ev : Event} {s s' : Kernel} {last : Option Slot}
    {log : List Decision}
      (before : Watched c s₀ events s last log) (stepped : s.step ev = some s')
      (other : ∀ x, s.entryOf ev = some x → x.c ≠ c) : Watched c s₀ (events ++ [ev]) s' last log

namespace Watched

variable {c : Nat} {s₀ s s' : Kernel} {events : List Event} {ev : Event} {last : Option Slot}
    {log : List Decision}

theorem curenv_elsewhere (stepped : s.step ev = some s')
    (other : ∀ x, s.entryOf ev = some x → x.c ≠ c) {e : Slot} (current : s'.curenv c = some e) :
    s.curenv c = some e := by
  rcases Kernel.step_table s stepped with ⟨x, entered, -, went⟩ |
    ⟨e, g, type, segments, entry, -, -, -, table⟩ | ⟨-, same⟩
  · have before := Entry.curenv_path went.path (other x entered) current
    rwa [Table.curenv, (Kernel.entryOf_finds s entered).cpus] at before
  · rw [table] at current
    exact current
  · rw [same] at current
    exact current

theorem curenv_found {x : Entry} {t : Table} (entered : s.entryOf ev = some x)
    (path : Table.Path x.Inner x.s.toTable t) {e : Slot} (current : t.curenv c = some e) :
    s.curenv c = some e := by
  have before := Entry.curenv_inner path current
  rwa [Table.curenv, (Kernel.entryOf_finds s entered).cpus] at before

theorem switch {e : Slot} (before : Watched c s₀ events s last log) (stepped : s.step ev = some s')
    (current : s'.curenv c = some e) (other : s.curenv c ≠ some e) :
    ∃ t, Watched c s₀ (events ++ [ev]) s' (some e) (log ++ [⟨last, t⟩]) ∧ t.choice c = some e ∧
      s'.toTable = t.act (.run c e) ∧ ∀ i, t.curenv c = some i → s.curenv c = some i := by
  rcases Kernel.step_table s stepped with ⟨x, entered, -, t, path, done⟩ |
    ⟨_, _, _, _, _, -, -, -, table⟩ | ⟨-, same⟩
  · have here : x.c = c := by
      by_contra elsewhere
      exact other
        (curenv_elsewhere stepped (fun x' entered' => Option.some.inj (entered.symm.trans entered')
        ▸ elsewhere) current)
    have kept : ∀ i, t.curenv c = some i → s.curenv c = some i := fun i => curenv_found entered path
    rw [here] at done
    rcases done with yielded | ⟨i, -, resumes, resumed⟩
    · have watched := Watched.yield before stepped entered here path yielded
      unfold Table.Yielded at yielded
      split at yielded
      next i chosen =>
        rw [yielded.2, Table.curenv_run] at current
        rw [chosen, Option.some_or, current] at watched
        rw [current] at chosen
        exact ⟨t, watched, chosen, Option.some.inj current ▸ yielded.2, kept⟩
      · rcases yielded with halted | stopped
        · rw [halted, Table.curenv_halt] at current
          cases current
        · rw [stopped] at current
          exact absurd (kept e current) other
    · rw [resumed, Table.curenv_run] at current
      exact absurd (current ▸ kept i resumes) other
  · rw [table] at current
    exact absurd current other
  · rw [same] at current
    exact absurd current other

def timer (c : Nat) : Event := .trap c (userFrame 32 0 0 0 0 0) idleInputs

end Watched

end Jos.Kern
