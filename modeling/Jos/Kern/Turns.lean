import Jos.Kern.Counters

namespace Jos.Kern

open Jos.Shared

namespace EnvStatus

def Ready (status : EnvStatus) : Prop := status = .runnable ∨ status = .running

instance (status : EnvStatus) : Decidable status.Ready := inferInstanceAs (Decidable (_ ∨ _))

end EnvStatus

structure Env.Turned (old new : Env) : Prop where
  same : ∃ status runs cpu, new = { old with envStatus := status, envRuns := runs, envCpunum := cpu }
  status : new.envStatus = old.envStatus ∨ old.envStatus.Ready ∧ new.envStatus.Ready

namespace Env.Turned

variable {old mid new : Env}

theorem refl (env : Env) : env.Turned env := ⟨⟨_, _, _, rfl⟩, .inl rfl⟩

theorem trans (first : old.Turned mid) (second : mid.Turned new) : old.Turned new := by
  obtain ⟨⟨status, runs, cpu, rfl⟩, turn⟩ := first
  obtain ⟨⟨status', runs', cpu', rfl⟩, turn'⟩ := second
  refine ⟨⟨_, _, _, rfl⟩, ?_⟩
  obtain same | ⟨ready, ready'⟩ := turn'
  · exact same ▸ turn
  · obtain same | ⟨before, -⟩ := turn
    · exact .inr ⟨same ▸ ready, ready'⟩
    · exact .inr ⟨before, ready'⟩

theorem stays (turned : old.Turned new) (idle : ¬ old.envStatus.Ready) : new.envStatus = old.envStatus :=
  turned.status.resolve_right fun both => idle both.1

theorem ready (turned : old.Turned new) (ready : old.envStatus.Ready) : new.envStatus.Ready :=
  turned.status.elim (fun same => same ▸ ready) And.right

end Env.Turned

namespace Kernel

variable {s s' : Kernel}

structure Turns (s s' : Kernel) : Prop where
  vm : s'.vm = s.vm
  envs : ∀ e, (s.envs e).Turned (s'.envs e)

theorem Turns.memory (turns : s.Turns s') : s'.memory = s.memory := by
  have dirs : s'.dirs = s.dirs := by
    funext e
    obtain ⟨status, runs, cpu, same⟩ := (turns.envs e).same
    rw [Table.dirs, same]
    rfl
  rw [Kernel.memory, Kernel.memory, turns.vm, dirs]

theorem yieldCpu_turned (t : Table) (c : Nat) (e : Slot) : (t.envs e).Turned ((t.yieldCpu c).envs e) := by
  unfold Table.yieldCpu
  split
  next cur current =>
    split
    next running =>
      by_cases same : e = cur
      · subst same
        rw [Table.setStatus, envs_setEnv_self]
        exact ⟨⟨_, _, _, rfl⟩, .inr ⟨.inr running, .inl rfl⟩⟩
      · rw [Table.setStatus, Table.envs_setEnv_of_ne t _ same]
        exact .refl _
    · exact .refl _
  · exact .refl _

theorem envRun_turns {c : Nat} {e : Slot} (ready : (s.status e).Ready)
    (left : (s.envRun c e).state? = some s') : s.Turns s' := by
  have shape : s' = s.setTable ((s.yieldCpu c).runOn c e) := by
    unfold envRun at left
    dsimp only at left
    split at left
    · cases left
    · exact (Option.some.inj left).symm
  subst shape
  refine ⟨rfl, fun e' => (yieldCpu_turned s.toTable c e').trans ?_⟩
  by_cases same : e' = e
  · subst same
    have turned := yieldCpu_turned s.toTable c e'
    refine ⟨⟨.running, ((s.yieldCpu c).envs e').envRuns + 1, c, ?_⟩, .inr ⟨turned.ready ready, ?_⟩⟩
    · exact envs_setEnv_self ..
    · refine .inr ?_
      show (((s.yieldCpu c).setEnv e' _).envs e').envStatus = .running
      rw [envs_setEnv_self]
  · show ((s.yieldCpu c).envs e').Turned (((s.yieldCpu c).setEnv e _).envs e')
    rw [Table.envs_setEnv_of_ne _ _ same]
    exact .refl _

theorem schedHalt_turns {c : Nat} (left : (s.schedHalt c).state? = some s') : s.Turns s' := by
  unfold schedHalt at left
  split at left
  · obtain rfl := Option.some.inj left
    exact ⟨rfl, fun e => .refl _⟩
  · obtain rfl := Option.some.inj left
    exact ⟨rfl, fun e => .refl _⟩

theorem schedYield_turns {c : Nat} (left : (s.schedYield c).state? = some s') : s.Turns s' := by
  unfold schedYield at left
  dsimp only at left
  split at left
  next e _ found => exact envRun_turns (.inl (nextRunnable_status s found)) left
  next idle _ _ =>
    split at left
    next running => exact envRun_turns (.inr running) left
    · exact schedHalt_turns left
  · exact schedHalt_turns left

theorem trapReturn_turns {c : Nat} (left : (s.trapReturn c).state? = some s') : s.Turns s' := by
  unfold trapReturn at left
  split at left
  next cur _ =>
    split at left
    next running => exact envRun_turns (.inr running) left
    · exact schedYield_turns left
  · exact schedYield_turns left

end Kernel

end Jos.Kern
