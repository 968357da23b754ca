import Jos.Kern.Blocked

namespace Jos.Kern

open Jos.Shared

def dataSelector (sel : BitVec 16) : Prop := sel = gdUD ||| 3 ∨ sel &&& ~~~3 = 0

instance (sel : BitVec 16) : Decidable (dataSelector sel) := inferInstanceAs (Decidable (_ ∨ _))

structure Trapframe.Confined (tf : Trapframe) (type : EnvType) : Prop where
  cs : tf.tfCs = gdUT ||| 3
  ds : dataSelector tf.tfDs
  es : dataSelector tf.tfEs
  ss : tf.tfSs = gdUD ||| 3
  interrupts : tf.tfEflags &&& flIF ≠ 0
  virtual : tf.tfEflags &&& flVM = 0
  iopl : tf.tfEflags &&& flIOPL3 = 0 ∨ type = .fs

instance (tf : Trapframe) (type : EnvType) : Decidable (tf.Confined type) :=
  decidable_of_iff (tf.tfCs = gdUT ||| 3 ∧ dataSelector tf.tfDs ∧ dataSelector tf.tfEs ∧
    tf.tfSs = gdUD ||| 3 ∧
      tf.tfEflags &&& flIF ≠ 0 ∧ tf.tfEflags &&& flVM = 0 ∧ (tf.tfEflags &&& flIOPL3 = 0 ∨ type = .fs))
    ⟨fun ⟨cs, ds, es, ss, interrupts, virtual, iopl⟩ => ⟨cs, ds, es, ss, interrupts, virtual, iopl⟩,
      fun ⟨cs, ds, es, ss, interrupts, virtual, iopl⟩ => ⟨cs, ds, es, ss, interrupts, virtual, iopl⟩⟩

namespace Trapframe

variable {tf tf' : Trapframe} {type type' : EnvType}

theorem Confined.congr (confined : tf.Confined type) (cs : tf'.tfCs = tf.tfCs) (ds : tf'.tfDs = tf.tfDs)
    (es : tf'.tfEs = tf.tfEs) (ss : tf'.tfSs = tf.tfSs) (flags : tf'.tfEflags = tf.tfEflags) :
    tf'.Confined type :=
  ⟨cs ▸ confined.cs, ds ▸ confined.ds, es ▸ confined.es, ss ▸ confined.ss, flags ▸ confined.interrupts,
    flags ▸ confined.virtual, flags ▸ confined.iopl⟩

theorem Confined.setEax (confined : tf.Confined type) (value : Word) : (tf.setEax value).Confined type :=
  confined.congr rfl rfl rfl rfl rfl

theorem Confined.retype (confined : tf.Confined type) (iopl : tf.tfEflags &&& flIOPL3 = 0) :
    tf.Confined type' :=
  ⟨confined.cs, confined.ds, confined.es, confined.ss, confined.interrupts, confined.virtual, .inl iopl⟩

structure Maskable (tf : Trapframe) : Prop where
  cs : tf.tfCs ||| 3 = gdUT ||| 3
  ds : dataSelector tf.tfDs
  es : dataSelector tf.tfEs
  ss : tf.tfSs = gdUD ||| 3
  virtual : tf.tfEflags &&& flVM = 0

instance (tf : Trapframe) : Decidable tf.Maskable :=
  decidable_of_iff (tf.tfCs ||| 3 = gdUT ||| 3 ∧ dataSelector tf.tfDs ∧ dataSelector tf.tfEs ∧
      tf.tfSs = gdUD ||| 3 ∧ tf.tfEflags &&& flVM = 0)
    ⟨fun ⟨cs, ds, es, ss, virtual⟩ => ⟨cs, ds, es, ss, virtual⟩,
      fun ⟨cs, ds, es, ss, virtual⟩ => ⟨cs, ds, es, ss, virtual⟩⟩

theorem maskFrame_confined : (Kernel.maskFrame tf).Confined type ↔ tf.Maskable := by
  have seen : ∀ mask, (Kernel.maskFrame tf).tfEflags &&& mask =
      (tf.tfEflags &&& (~~~flIOPL3 &&& mask)) ||| (flIF &&& (~~~flIOPL3 &&& mask)) :=
    set_clear_and tf.tfEflags flIF flIOPL3
  have interrupts : (Kernel.maskFrame tf).tfEflags &&& flIF ≠ 0 := by
    rw [seen]
    exact fun zero => absurd (BitVec.or_eq_zero_iff.mp zero).2 (by decide)
  have iopl : (Kernel.maskFrame tf).tfEflags &&& flIOPL3 = 0 := by
    rw [seen, show ~~~flIOPL3 &&& flIOPL3 = 0 by decide]
    simp
  have virtual : (Kernel.maskFrame tf).tfEflags &&& flVM = tf.tfEflags &&& flVM := by
    rw [seen, show ~~~flIOPL3 &&& flVM = flVM by decide, show flIF &&& flVM = 0 by decide]
    simp
  constructor
  · intro confined
    exact ⟨confined.cs, confined.ds, confined.es, confined.ss, virtual ▸ confined.virtual⟩
  · intro maskable
    exact ⟨maskable.cs, maskable.ds, maskable.es, maskable.ss, interrupts,
      virtual ▸ maskable.virtual, .inl iopl⟩

end Trapframe

def Table.Confined (t : Table) : Prop :=
  ∀ e, t.status e ≠ .free → (t.envs e).envTf.Confined (t.envs e).envType

namespace Table.Confined

variable {t : Table}

theorem setEnv (confined : t.Confined) (e : Slot) (env : Env)
    (new : env.envStatus ≠ .free → env.envTf.Confined env.envType) : (t.setEnv e env).Confined := by
  intro e'
  by_cases same : e' = e
  · subst same
    simpa [Table.setEnv, status] using new
  · simpa [Table.setEnv, status, same] using confined e'

theorem keep (confined : t.Confined) (e : Slot) (env : Env) (live : t.status e ≠ .free)
    (tf : env.envTf = (t.envs e).envTf) (type : env.envType = (t.envs e).envType) :
    (t.setEnv e env).Confined :=
  confined.setEnv e env fun _ => tf ▸ type ▸ confined e live

theorem yieldCpu (confined : t.Confined) (c : Nat) : (t.yieldCpu c).Confined := by
  unfold Table.yieldCpu
  split
  next cur _ =>
    split
    next running =>
      exact confined.keep cur _ (fun free => absurd (running.symm.trans free) (by decide)) rfl rfl
    · exact confined
  · exact confined

theorem freshEnv (old : Env) (e : Slot) (parentId : Word) :
    (Kernel.freshEnv old e parentId).envTf.Confined .user := by
  show Trapframe.Confined { Trapframe.zero with
    tfDs := gdUD ||| 3, tfEs := gdUD ||| 3, tfSs := gdUD ||| 3, tfEsp := ustacktop
    tfCs := gdUT ||| 3, tfEflags := flIF } .user
  decide

theorem createdEnv (old : Env) (e : Slot) (g : Nat) (type : EnvType) (entry : Word) :
    (createdEnv old e g type entry).envTf.Confined (createdEnv old e g type entry).envType := by
  have fresh := freshEnv { old with envPgdir := some g } e 0
  have flags : (Table.createdEnv old e g type entry).envTf.tfEflags =
      if type = .fs then flIF ||| flIOPL3 else flIF := rfl
  have kind : (Table.createdEnv old e g type entry).envType = type := rfl
  refine ⟨fresh.cs, fresh.ds, fresh.es, fresh.ss, ?_, ?_, ?_⟩ <;> rw [flags] <;> try rw [kind]
  all_goals cases type <;> decide

end Table.Confined

namespace Entry

def lowIopl (x : Entry) (e : Slot) : Prop := (x.s.envs e).envTf.tfEflags &&& flIOPL3 = 0

instance (x : Entry) (e : Slot) : Decidable (x.lowIopl e) :=
  inferInstanceAs (Decidable ((x.s.envs e).envTf.tfEflags &&& flIOPL3 = 0))

/-- The frames that reach the table at this entry are in order: the one that the hardware pushed and
the one that `sys_env_set_trapframe` copies. An environment with access to ports neither forks nor
becomes a network helper. -/
structure Frames (x : Entry) : Prop extends x.Live where
  saved : ∀ cur ∈ x.cur, (x.s.envs cur).envTf.Confined (x.s.envs cur).envType
  copied : ∀ frame ∈ x.copiedFrame, frame.2.Maskable
  forks : ∀ call ∈ x.calls .exofork, x.lowIopl call.1
  retyped : ∀ set ∈ x.typeSet, x.lowIopl set.1

instance (x : Entry) : Decidable x.Frames :=
  decidable_of_iff (x.Live ∧ x.cur.all (fun cur => (x.s.envs cur).envTf.Confined (x.s.envs cur).envType) ∧
      x.copiedFrame.all (·.2.Maskable) ∧ (x.calls .exofork).all (x.lowIopl ·.1) ∧
        x.typeSet.all (x.lowIopl ·.1)) <| by
    simp only [Option.all_eq_true, decide_eq_true_eq]
    constructor
    · rintro ⟨live, saved, copied, forks, retyped⟩
      exact ⟨live, saved, copied, forks, retyped⟩
    · intro frames
      exact ⟨frames.toLive, frames.saved, frames.copied, frames.forks, frames.retyped⟩

theorem Frames.act {x : Entry} (frames : x.Frames) {t : Table} {a : Action}
    (confined : t.Confined) (cause : x.Cause t a) : (t.act a).Confined := by
  have sound := frames.toLive.sound cause
  cases a with
  | create | alloc => exact cause.elim
  | fork e g parent =>
    obtain ⟨rfl, -, a, called⟩ := cause
    have copied : (x.s.envs parent).envTf.Confined .user :=
      (frames.saved parent (cur_of_calls called)).retype (frames.forks _ called)
    have fresh := Table.Confined.freshEnv { x.s.envs e with envPgdir := some g } e (x.s.envs parent).envId
    rw [Table.act_fork]
    refine confined.setEnv e _ fun _ => Trapframe.Confined.setEax ?_ 0
    show (Function.update x.s.envs e _ parent).envTf.Confined .user
    by_cases same : parent = e
    · subst same
      simpa using fresh
    · simpa [same] using copied
  | free e => exact confined.setEnv e _ (by simp)
  | dying e | wake e | block e dstva => exact confined.keep e _ sound rfl rfl
  | setStatus e status => exact confined.keep e _ sound.1 rfl rfl
  | run c e =>
    have live : (t.yieldCpu c).status e ≠ .free := Table.Ok.yieldCpu_live sound
    exact (confined.yieldCpu c).keep e _ live rfl rfl
  | frame e tf =>
    refine confined.setEnv e _ fun live => ?_
    rcases cause with ⟨-, value, rfl⟩ | ⟨-, -, eip, esp, rfl⟩ | ⟨source, copied, rfl⟩
    · exact (confined e live).setEax value
    · exact (confined e live).congr rfl rfl rfl rfl rfl
    · exact Trapframe.maskFrame_confined.mpr (frames.copied _ copied)
  | edit e type upcall priority =>
    refine confined.setEnv e _ fun live => ?_
    rcases cause.2 with rfl | ⟨rfl, sets⟩
    · exact confined e live
    · exact (confined e live).retype (frames.retyped _ sets)
  | deliver e source value perm => exact confined.setEnv e _ fun _ => (confined e sound).setEax 0
  | clear c | halt c => exact confined

end Entry

namespace Kernel

theorem step_confined {s s' : Kernel} {ev : Event} (confined : s.Confined)
    (frames : ∀ x ∈ s.entryOf ev, x.Frames) (stepped : s.step ev = some s') : s'.Confined := by
  rcases step_table s stepped with ⟨x, entered, -, left⟩ |
    ⟨e, g, type, segments, entry, -, -, -, table⟩ | ⟨-, same⟩
  · have finds := entryOf_finds s entered
    have start : x.s.Confined := by
      intro e live
      by_cases trapped : x.cur = some e
      · exact (frames x entered).saved e trapped
      · rw [Table.status, finds.others e trapped] at live
        rw [finds.others e trapped]
        exact confined e live
    exact left.path.invariant start fun _ _ holds cause => (frames x entered).act holds cause
  · rw [table]
    exact confined.setEnv e _ fun _ => Table.Confined.createdEnv (s.envs e) e g type entry
  · rw [same]
    exact confined

theorem confined_of_run {s₀ s : Kernel} {free : List Nat} {events : List Event} (booted : s₀.Booted free)
    (run : Run step (Within Entry.Frames) s₀ events s) :
    ∀ e, s.status e ≠ .free → (s.envs e).envTf.Confined (s.envs e).envType := by
  have start : s₀.Confined := by
    intro e live
    rw [Table.status, booted.table] at live
    exact absurd (bootTable_env _ e).1 live
  have confined : s.Confined :=
    run.invariant start fun _ _ _ holds allowed => step_confined holds allowed.2
  exact confined

def childPage : List Event :=
  [.create .user [] 0x800020, .start 0, sys 0 7 0 0 0 0, sys 0 4 0x1001 0x400000 7 0,
    sys 0 4 0 0x400000 7 0]

theorem confined_childPage : ∃ s, Run step (Within Entry.Frames) demo childPage s ∧
    s.status 1 ≠ .free ∧ (s.envs 1).envTf.Confined (s.envs 1).envType := by
  refine Run.of_exec_imp (p := fun s => s.status 1 = .notRunnable)
    (by decide +kernel) fun s run stopped => ?_
  have live : s.status 1 ≠ .free := fun free => absurd (stopped.symm.trans free) (by decide)
  exact ⟨live, confined_of_run demo_booted run 1 live⟩

def childFramed : List Event := childPage ++ [sys 0 9 0x1001 0x400000 0 0]

theorem confined_fails : demo.Booted demoFree ∧ ∃ s, Run step (fun _ _ => True) demo childFramed s ∧
    s.status 1 ≠ .free ∧ ¬(s.envs 1).envTf.Confined (s.envs 1).envType := by
  obtain ⟨s, run, framed⟩ : ∃ s, Run step (fun _ _ => True) demo childFramed s ∧
      (s.status 1, (s.envs 1).envTf.tfCs) = (EnvStatus.notRunnable, 3) :=
    Run.of_exec_any (by decide +kernel)
  obtain ⟨stopped, cs⟩ := Prod.mk.inj framed
  refine ⟨demo_booted, s, run, fun free => absurd (stopped.symm.trans free) (by decide),
    fun confined => ?_⟩
  exact absurd (cs.symm.trans confined.cs) (by decide)

end Kernel

end Jos.Kern
