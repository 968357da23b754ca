import Mathlib

namespace Jos.Shared

section Loop

variable {ε σ α : Type}

theorem foldlM_ok (body : σ → α → Except ε σ) (inv : List α → σ → Prop) (xs : List α) {s : σ}
    (start : inv [] s)
    (round : ∀ done x s, x ∈ xs → inv done s → ∃ s', body s x = .ok s' ∧ inv (done ++ [x]) s') :
    ∃ s', xs.foldlM body s = .ok s' ∧ inv xs s' := by
  suffices general : ∀ rest done s, (∀ x ∈ rest, x ∈ xs) → inv done s →
      ∃ s', rest.foldlM body s = .ok s' ∧ inv (done ++ rest) s' from
    general xs [] s (fun _ => id) start
  intro rest
  induction rest with
  | nil => exact fun done s _ holds => ⟨s, rfl, by simpa using holds⟩
  | cons x rest ih =>
    intro done s inside holds
    obtain ⟨next, once, kept⟩ := round done x s (inside x List.mem_cons_self) holds
    obtain ⟨last, finished, final⟩ :=
      ih (done ++ [x]) next (fun y member => inside y (List.mem_cons_of_mem x member)) kept
    refine ⟨last, ?_, by simpa using final⟩
    rw [List.foldlM_cons, once]
    exact finished

end Loop

section Ends

variable {ε α β : Type}

theorem ok_of_bind {first : Except ε α} {next : α → Except ε β} {value : β}
    (returned : first >>= next = .ok value) : ∃ between, first = .ok between ∧
    next between = .ok value := by
  cases first with
  | ok between => exact ⟨between, rfl, returned⟩
  | error exit => cases returned

def Ends (result : Except ε α) (onExit : ε → Prop) (onReturn : α → Prop) : Prop :=
  match result with
  | .ok value => onReturn value
  | .error exit => onExit exit

variable {onExit onExit' : ε → Prop} {onReturn onReturn' : α → Prop} {result : Except ε α}

theorem Ends.mono (ends : Ends result onExit onReturn) (exits : ∀ exit, onExit exit → onExit' exit)
    (returns : ∀ value, onReturn value → onReturn' value) : Ends result onExit' onReturn' := by
  cases result with
  | ok value => exact returns value ends
  | error exit => exact exits exit ends

theorem Ends.with_eq (ends : Ends result onExit onReturn) :
    Ends result onExit fun value => result = .ok value ∧ onReturn value := by
  cases result with
  | ok value => exact ⟨rfl, ends⟩
  | error exit => exact ends

theorem Ends.and (left : Ends result onExit onReturn) (right : Ends result onExit' onReturn') :
    Ends result (fun exit => onExit exit ∧ onExit' exit) fun value => onReturn value ∧
    onReturn' value := by
  cases result with
  | ok value => exact ⟨left, right⟩
  | error exit => exact ⟨left, right⟩

theorem Ends.bind {next : α → Except ε β} {after : β → Prop} (ends : Ends result onExit onReturn)
    (continues : ∀ value, onReturn value → Ends (next value) onExit after) :
    Ends (result >>= next) onExit after := by
  cases result with
  | ok value => exact continues value ends
  | error exit => exact ends

theorem Ends.bind_ok {next : α → Except ε β} {after : β → Prop} {value : α}
    (returned : result = .ok value) (continues : Ends (next value) onExit after) :
    Ends (result >>= next) onExit after := by
  rw [returned]
  exact continues

theorem Ends.foldlM {body : β → α → Except ε β} {keep : β → Prop} (xs : List α) {s : β} (start : keep s)
    (round : ∀ s x, x ∈ xs → keep s → Ends (body s x) onExit keep) :
    Ends (xs.foldlM body s) onExit keep := by
  induction xs generalizing s with
  | nil => exact start
  | cons x xs ih =>
    rw [List.foldlM_cons]
    refine Ends.bind (round s x List.mem_cons_self start) fun s' holds => ih holds ?_
    exact fun t y member => round t y (List.mem_cons_of_mem x member)

end Ends

section Run

variable {S E : Type}

/-- The system goes from one state to another by these events, each of which the guard lets
through. -/
inductive Run (step : S → E → Option S) (guard : S → E → Prop) : S → List E → S → Prop where
  | nil (s : S) : Run step guard s [] s
  | snoc {s t u : S} {es : List E} {e : E} (run : Run step guard s es t) (allowed : guard t e)
      (next : step t e = some u) : Run step guard s (es ++ [e]) u

namespace Run

variable {step : S → E → Option S} {guard guard' : S → E → Prop} {s t u : S} {es fs : List E}

theorem invariant {motive : S → Prop} (run : Run step guard s es t) (start : motive s)
    (keep : ∀ s e t, motive s → guard s e → step s e = some t → motive t) : motive t := by
  induction run with
  | nil => exact start
  | snoc _ allowed next ih => exact keep _ _ _ ih allowed next

theorem trans (first : Run step guard s es t) (second : Run step guard t fs u) :
    Run step guard s (es ++ fs) u := by
  induction second with
  | nil => simpa using first
  | snoc _ allowed next ih =>
    rw [← List.append_assoc]
    exact snoc ih allowed next

theorem mono (run : Run step guard s es t) (weaker : ∀ s e, guard s e → guard' s e) :
    Run step guard' s es t := by
  induction run with
  | nil => exact nil _
  | snoc _ allowed next ih => exact snoc ih (weaker _ _ allowed) next

theorem strengthen {inv : S → Prop} (run : Run step guard s es t) (start : inv s)
    (keep : ∀ s e t, inv s → guard s e → step s e = some t → guard' s e ∧ inv t) :
    Run step guard' s es t := by
  have both : Run step guard' s es t ∧ inv t := by
    induction run with
    | nil => exact ⟨nil _, start⟩
    | snoc _ allowed next ih =>
      obtain ⟨allowed', holds⟩ := keep _ _ _ ih.2 allowed next
      exact ⟨snoc ih.1 allowed' next, holds⟩
  exact both.1

theorem single {e : E} (allowed : guard s e) (next : step s e = some t) : Run step guard s [e] t :=
  snoc (nil s) allowed next

end Run

def exec (step : S → E → Option S) (guard : S → E → Prop) [∀ s e, Decidable (guard s e)] (s : S) :
    List E → Option S
  | [] => some s
  | e :: es => if guard s e then (step s e).bind fun t => exec step guard t es else none

theorem Run.of_exec {step : S → E → Option S} {guard : S → E → Prop} [∀ s e, Decidable (guard s e)]
    {s t : S} {es : List E} (ran : exec step guard s es = some t) : Run step guard s es t := by
  induction es generalizing s with
  | nil =>
    obtain rfl := Option.some.inj ran
    exact .nil s
  | cons e es ih =>
    unfold exec at ran
    split at ran
    next allowed =>
      obtain ⟨u, next, rest⟩ := Option.bind_eq_some_iff.mp ran
      exact (Run.single allowed next).trans (ih rest)
    · cases ran

theorem Run.of_exec_any {step : S → E → Option S} {guard : S → E → Prop} [∀ s e, Decidable (guard s e)]
    {p : S → Prop} [DecidablePred p] {s : S} {es : List E}
    (ran : (exec step guard s es).any (p ·) = true) : ∃ t, Run step guard s es t ∧ p t := by
  cases done : exec step guard s es with
  | none => simp [done] at ran
  | some t => exact ⟨t, .of_exec done, by simpa [done] using ran⟩

theorem Run.of_exec_imp {step : S → E → Option S} {guard : S → E → Prop} [∀ s e, Decidable (guard s e)]
    {p q : S → Prop} [DecidablePred p] {s : S} {es : List E}
    (ran : (exec step guard s es).any (p ·) = true)
    (holds : ∀ t, Run step guard s es t → p t → q t) : ∃ t, Run step guard s es t ∧ q t := by
  obtain ⟨t, run, here⟩ := Run.of_exec_any ran
  exact ⟨t, run, holds t run here⟩

end Run

end Jos.Shared
