import Mathlib

namespace Jos.Shared

variable {ε σ τ α β : Type}

theorem run_bind {x : EStateM ε σ α} {f : α → EStateM ε σ β} {s s' : σ} {a : α} (done : x s = .ok a s') :
    (x >>= f) s = f a s' := by
  show EStateM.bind x f s = _
  rw [EStateM.bind, done]

theorem run_bind_error {x : EStateM ε σ α} {f : α → EStateM ε σ β} {s s' : σ} {why : ε}
    (failed : x s = .error why s') : (x >>= f) s = .error why s' := by
  show EStateM.bind x f s = _
  rw [EStateM.bind, failed]

-- From every sound state that looks like `t`, the program returns `a` in a sound state that looks
-- like `t'`.
def Yields (sound : σ → Prop) (view : σ → τ) (x : EStateM ε σ α) (t : τ) (a : α) (t' : τ) : Prop :=
  ∀ s, sound s → view s = t → ∃ s', x s = .ok a s' ∧ sound s' ∧ view s' = t'

namespace Yields

variable {sound : σ → Prop} {view : σ → τ} {x : EStateM ε σ α} {f : α → EStateM ε σ β}
    {t t' t'' : τ} {a : α} {b : β}

theorem pure (a : α) (t : τ) : Yields sound view (Pure.pure a : EStateM ε σ α) t a t :=
  fun s holds looks => ⟨s, rfl, holds, looks⟩

theorem bind (first : Yields sound view x t a t') (second : Yields sound view (f a) t' b t'') :
    Yields sound view (x >>= f) t b t'' := by
  intro s holds looks
  obtain ⟨s', done, holds', looks'⟩ := first s holds looks
  obtain ⟨s'', done', holds'', looks''⟩ := second s' holds' looks'
  exact ⟨s'', (run_bind done).trans done', holds'', looks''⟩

theorem get_bind {f : σ → EStateM ε σ β}
    (continues : ∀ s, sound s → view s = t → Yields sound view (f s) t b t') :
    Yields sound view (get >>= f) t b t' :=
  fun s holds looks => continues s holds looks s holds looks

end Yields

def Moves (R : σ → σ → Prop) (x : EStateM ε σ α) : Prop :=
  ∀ s, match x s with
    | .ok _ s' => R s s'
    | .error _ s' => R s s'

namespace Moves

variable {R : σ → σ → Prop} {x : EStateM ε σ α} {f : α → EStateM ε σ β} {s s' : σ} {a : α}

theorem of_ok (moves : Moves R x) (done : x s = .ok a s') : R s s' := by
  have moved := moves s
  rw [done] at moved
  exact moved

theorem pure (stay : ∀ s, R s s) (a : α) : Moves R (Pure.pure a : EStateM ε σ α) := fun s => stay s

theorem throw (stay : ∀ s, R s s) (why : ε) : Moves R (MonadExcept.throw why : EStateM ε σ α) :=
  fun s => stay s

theorem bind_of (trans : ∀ s t u, R s t → R t u → R s u) (first : Moves R x)
    (second : ∀ s a s', x s = .ok a s' → Moves R (f a)) : Moves R (x >>= f) := by
  intro s
  have moved := first s
  show match EStateM.bind x f s with
    | .ok _ s' => R s s'
    | .error _ s' => R s s'
  unfold EStateM.bind
  cases ran : x s with
  | error why t =>
    rw [ran] at moved
    exact moved
  | ok a t =>
    rw [ran] at moved
    have moved' := second s a t ran t
    dsimp only
    cases ended : f a t with
    | ok b u =>
      rw [ended] at moved'
      exact trans s t u moved moved'
    | error why u =>
      rw [ended] at moved'
      exact trans s t u moved moved'

theorem bind (trans : ∀ s t u, R s t → R t u → R s u) (first : Moves R x) (second : ∀ a, Moves R (f a)) :
    Moves R (x >>= f) :=
  bind_of trans first fun _ a _ _ => second a

end Moves

def after (x : EStateM ε σ α) (s : σ) : σ :=
  match x s with
  | .ok _ s' => s'
  | .error _ s' => s'

section After

variable {R : σ → σ → Prop} {x : EStateM ε σ α} {f : α → EStateM ε σ β} {s s' : σ} {a : α}

theorem after_ok (done : x s = .ok a s') : after x s = s' := by rw [after, done]

theorem after_bind (done : x s = .ok a s') : after (x >>= f) s = after (f a) s' := by
  rw [after, run_bind done, after]

theorem Moves.after (moves : Moves R x) (s : σ) : R s (after x s) := by
  have moved := moves s
  unfold Shared.after
  cases ran : x s with
  | ok a s' =>
    rw [ran] at moved
    exact moved
  | error why s' =>
    rw [ran] at moved
    exact moved

theorem after_bind_kept {γ : Type} {view : σ → γ}
    (kept : ∀ a, Moves (fun s t => view t = view s) (f a)) (s : σ) :
    view (after (x >>= f) s) = view (after x s) := by
  cases ran : x s with
  | ok a s' =>
    rw [after_bind ran, after_ok ran]
    exact (kept a).after s'
  | error why s' => rw [after, run_bind_error ran, after, ran]

end After

def search (body : Nat → EStateM ε σ (Option β)) : Nat → Nat → EStateM ε σ (Option β)
  | 0, _ => pure none
  | n + 1, i => do
    match ← body i with
    | some r => pure (some r)
    | none => search body n (i + 1)

theorem search_yields {sound : σ → Prop} {view : σ → τ} {body : Nat → EStateM ε σ (Option β)}
    (inv : Nat → τ → Prop) (left : Nat → β → τ → Prop) (n : Nat) {i : Nat} {t : τ} (start : inv i t)
    (round : ∀ k t, i ≤ k → k < i + n → inv k t →
      (∃ t', Yields sound view (body k) t none t' ∧ inv (k + 1) t') ∨
      ∃ r t', Yields sound view (body k) t (some r) t' ∧ left k r t') :
    (∃ t', Yields sound view (search body n i) t none t' ∧ inv (i + n) t') ∨
    ∃ k r t', (i ≤ k ∧ k < i + n) ∧ Yields sound view (search body n i) t (some r) t' ∧ left k r t' := by
  induction n generalizing i t with
  | zero => exact .inl ⟨t, .pure none t, start⟩
  | succ n ih =>
    rcases round i t (le_refl i) (by omega) start with ⟨t', once, kept⟩ | ⟨r, t', once, stopped⟩
    · have rest := ih kept fun k u low high => round k u (by omega) (by omega)
      rw [show i + 1 + n = i + (n + 1) by omega] at rest
      rcases rest with ⟨t'', finished, final⟩ | ⟨k, r, t'', inside, finished, final⟩
      · exact .inl ⟨t'', .bind once finished, final⟩
      · exact .inr ⟨k, r, t'', ⟨by omega, inside.2⟩, .bind once finished, final⟩
    · exact .inr ⟨i, r, t', ⟨le_refl i, by omega⟩, .bind once (.pure _ _), stopped⟩

def sweep (body : Nat → EStateM ε σ Unit) : Nat → Nat → EStateM ε σ Unit
  | 0, _ => pure ()
  | n + 1, i => do
    body i
    sweep body n (i + 1)

theorem sweep_yields {sound : σ → Prop} {view : σ → τ} {body : Nat → EStateM ε σ Unit}
    (inv : Nat → τ → Prop) (n : Nat) {i : Nat} {t : τ} (start : inv i t)
    (round : ∀ k t, i ≤ k → k < i + n → inv k t → ∃ t', Yields sound view (body k) t () t' ∧
    inv (k + 1) t') : ∃ t', Yields sound view (sweep body n i) t () t' ∧ inv (i + n) t' := by
  induction n generalizing i t with
  | zero => exact ⟨t, .pure () t, start⟩
  | succ n ih =>
    obtain ⟨t', once, kept⟩ := round i t (le_refl i) (by omega) start
    obtain ⟨t'', finished, final⟩ := ih kept fun k u low high => round k u (by omega) (by omega)
    exact ⟨t'', .bind once finished, by rwa [show i + (n + 1) = i + 1 + n by omega]⟩

end Jos.Shared
