import Jos.Kern.Boot

namespace Jos.Kern

open Jos.Shared

def Event.tame : Event → Bool
  | .create _ segments _ => segments.all fun ph => ph.pVa.toNat + ph.pMemsz.toNat ≤ utop.toNat
  | _ => true

def Entry.tame (x : Entry) : Bool := x.buffer.all fun range => range.1.toNat + range.2 ≤ utop.toNat

namespace Kernel

def Tame (s : Kernel) (ev : Event) : Prop := ev.tame ∧ ∀ x ∈ s.entryOf ev, x.tame

instance (s : Kernel) (ev : Event) : Decidable (s.Tame ev) :=
  inferInstanceAs (Decidable (ev.tame ∧ ∀ x ∈ s.entryOf ev, x.tame))

def Within (P : Entry → Prop) (s : Kernel) (ev : Event) : Prop := s.Tame ev ∧ ∀ x ∈ s.entryOf ev, P x

instance (P : Entry → Prop) [DecidablePred P] (s : Kernel) (ev : Event) : Decidable (Within P s ev) :=
  inferInstanceAs (Decidable (s.Tame ev ∧ ∀ x ∈ s.entryOf ev, P x))

theorem entryOf_ok {s : Kernel} (ok : s.Ok) {ev : Event} {x : Entry} (entered : s.entryOf ev = some x) :
    x.s.Ok := by
  have finds := entryOf_finds s entered
  refine ok.congr finds.head (fun e => ?_) (fun e => ?_) fun e => ?_ <;> obtain ⟨tf, env⟩ :=
    finds.envs e <;> simp [Table.status, env]

theorem step_ok {s s' : Kernel} {ev : Event} (ok : s.Ok) (live : ∀ x ∈ s.entryOf ev, x.Live)
    (stepped : s.step ev = some s') : s'.Ok := by
  rcases step_table s stepped with ⟨x, entered, -, left⟩ |
    ⟨e, g, type, segments, entry, -, -, head, table⟩ | ⟨-, same⟩
  · exact left.path.invariant (entryOf_ok ok entered) fun t a holds cause =>
      holds.act ((live x entered).sound cause)
  · rw [table]
    exact ok.act head
  · rw [same]
    exact ok

def TableIntegrity (s : Kernel) : Prop :=
  (∃ free, Chain (fun e => (s.envs e).envLink) s.envFreeList free ∧ free.Nodup ∧
    ∀ e, e ∈ free ↔ s.status e = .free) ∧
  ∀ e, s.status e = .runnable ∨ s.status e = .running ∨ s.status e = .notRunnable →
    (s.envs e).envPgdir ≠ none

theorem Ok.integrity {s : Kernel} (ok : s.Ok) : s.TableIntegrity := by
  obtain ⟨⟨free, chain, exact⟩, pgdir⟩ := ok
  refine ⟨⟨free, chain, chain.nodup, exact⟩, fun e alive absent => ?_⟩
  have free := (pgdir e).mpr absent
  rcases alive with status | status | status <;> exact absurd (status.symm.trans free) (by decide)

theorem tableIntegrity_of_run {s₀ s : Kernel} {free : List Nat} {events : List Event}
    (booted : s₀.Booted free) (run : Run step (Within Entry.Live) s₀ events s) : s.TableIntegrity := by
  have start : s₀.Ok := by
    rw [booted.table]
    exact bootTable_ok _
  have ok : s.Ok := run.invariant start fun _ _ _ holds allowed => step_ok holds allowed.2
  exact Ok.integrity ok

def helperWoken : List Event :=
  twoRunning ++ [sys 1 18 3 0 0 0, sys 1 13 utop 0 0 0,
    .trap 0 (userFrame 43 0 0 0 0 0) { idleInputs with icr := icrTXDW }]

theorem tableIntegrity_helperWoken :
    ∃ s, Run step (Within Entry.Live) demo helperWoken s ∧ s.status 1 = .runnable ∧ s.TableIntegrity := by
  refine Run.of_exec_imp (p := fun s => s.status 1 = .runnable)
    (by decide +kernel) fun s run woken => ?_
  exact ⟨woken, tableIntegrity_of_run demo_booted run⟩

def helperGone : List Event :=
  twoRunning ++ [sys 1 18 3 0 0 0, .trap 1 (userFrame 0 0 0 0 0 0) idleInputs,
    .trap 0 (userFrame 43 0 0 0 0 0) { idleInputs with icr := icrTXDW }]

theorem tableIntegrity_fails :
    demo.Booted demoFree ∧ ∃ s, Run step (fun _ _ => True) demo helperGone s ∧ ¬s.TableIntegrity := by
  obtain ⟨s, run, gone⟩ : ∃ s, Run step (fun _ _ => True) demo helperGone s ∧
      (s.status 1, (s.envs 1).envPgdir) = (EnvStatus.runnable, none) :=
    Run.of_exec_any (by decide +kernel)
  obtain ⟨runnable, absent⟩ := Prod.mk.inj gone
  exact ⟨demo_booted, s, run, fun integrity => integrity.2 1 (.inl runnable) absent⟩

end Kernel

end Jos.Kern
