import Mathlib

namespace Jos.Shared

variable {E α β σ : Type}

/-- What a program has emitted when it returned, or when it was stopped in the middle of a loop. -/
structure Emit (E α : Type) where
  events : List E
  result : Option α

namespace Emit

def bind (first : Emit E α) (next : α → Emit E β) : Emit E β :=
  match first.result with
  | none => ⟨first.events, none⟩
  | some a => ⟨first.events ++ (next a).events, (next a).result⟩

def loop (cond : σ → Bool) (body : σ → Emit E Unit) (next : σ → σ) : Nat → σ → Emit E Unit
  | 0, _ => ⟨[], none⟩
  | fuel + 1, s =>
    if cond s then (body s).bind fun _ => loop cond body next fuel (next s) else ⟨[], some ()⟩

def Extends (less more : Emit E α) : Prop :=
  less = more ∨ less.result = none ∧ less.events <+: more.events

theorem Extends.events {less more : Emit E α} (more_ : less.Extends more) :
    less.events <+: more.events := by
  rcases more_ with rfl | ⟨-, shorter⟩
  · exact List.prefix_rfl
  · exact shorter

theorem events_bind (first : Emit E α) (next : α → Emit E β) :
    first.events <+: (first.bind next).events := by
  unfold bind
  split
  · exact List.prefix_rfl
  · exact List.prefix_append _ _

theorem Extends.bind {less more : Emit E α} {next next' : α → Emit E β} (first : less.Extends more)
    (rest : ∀ a, (next a).Extends (next' a)) : (less.bind next).Extends (more.bind next') := by
  rcases first with rfl | ⟨stopped, shorter⟩
  · cases result : less.result with
    | none =>
      left
      simp [Emit.bind, result]
    | some a =>
      rcases rest a with same | ⟨stopped, shorter⟩
      · left
        simp [Emit.bind, result, same]
      · right
        simp [Emit.bind, result, stopped, shorter]
  · right
    have here : less.bind next = ⟨less.events, none⟩ := by simp [Emit.bind, stopped]
    rw [here]
    exact ⟨rfl, shorter.trans (events_bind more next')⟩

theorem Extends.loop {cond : σ → Bool} {body body' : σ → Emit E Unit} {next : σ → σ}
    (rounds : ∀ s, (body s).Extends (body' s)) {n m : Nat} (later : n ≤ m) (s : σ) :
    (Emit.loop cond body next n s).Extends (Emit.loop cond body' next m s) := by
  induction n generalizing m s with
  | zero =>
    right
    exact ⟨rfl, List.nil_prefix⟩
  | succ n ih =>
    obtain ⟨m, rfl⟩ : ∃ k, m = k + 1 := ⟨m - 1, by omega⟩
    unfold Emit.loop
    split
    · exact (rounds s).bind fun _ => ih (by omega) (next s)
    · exact .inl rfl

end Emit

/-- A program that emits events and may run forever: what has been emitted when every loop is
stopped after so many rounds. -/
structure Prog (E α : Type) where
  run : Nat → Emit E α
  later : ∀ n m, n ≤ m → (run n).Extends (run m)

namespace Prog

instance : Monad (Prog E) where
  pure a := ⟨fun _ => ⟨[], some a⟩, fun _ _ _ => .inl rfl⟩
  bind p f := ⟨fun n => (p.run n).bind fun a => (f a).run n,
    fun n m le => (p.later n m le).bind fun a => (f a).later n m le⟩

def emit (e : E) : Prog E Unit := ⟨fun _ => ⟨[e], some ()⟩, fun _ _ _ => .inl rfl⟩

def loop (cond : σ → Bool) (body : σ → Prog E Unit) (next : σ → σ) (s : σ) : Prog E Unit :=
  ⟨fun n => Emit.loop cond (fun s => (body s).run n) next n s,
    fun n m le => .loop (fun s => (body s).later n m le) le s⟩

def Always (p : Prog E α) (P : E → Prop) : Prop := ∀ n, ∀ e ∈ (p.run n).events, P e

def Returns (p : Prog E α) (a : α) : Prop := ∃ n, (p.run n).result = some a

variable {P : E → Prop}

theorem result_later {p : Prog E α} {n m : Nat} {a : α} (returned : (p.run n).result = some a)
    (le : n ≤ m) : p.run m = p.run n := by
  rcases p.later n m le with same | ⟨stopped, -⟩
  · exact same.symm
  · rw [returned] at stopped
    cases stopped

@[simp] theorem always_pure (a : α) : (pure a : Prog E α).Always P ↔ True :=
  iff_of_true (fun _ _ none => nomatch none) trivial

@[simp] theorem always_emit (e : E) : (emit e).Always P ↔ P e := by
  constructor
  · intro always
    exact always 0 e List.mem_cons_self
  · intro holds n e' member
    rw [List.mem_singleton.mp member]
    exact holds

@[simp] theorem returns_pure (a b : α) : (pure a : Prog E α).Returns b ↔ a = b :=
  ⟨fun ⟨_, same⟩ => Option.some.inj same, fun same => ⟨0, congrArg some same⟩⟩

@[simp] theorem returns_emit (e : E) : (emit e).Returns () := ⟨0, rfl⟩

theorem always_bind (p : Prog E α) (f : α → Prog E β) :
    (p >>= f).Always P ↔ p.Always P ∧ ∀ a, p.Returns a → (f a).Always P := by
  have run : ∀ n, (p >>= f).run n = (p.run n).bind fun a => (f a).run n := fun _ => rfl
  constructor
  · intro always
    refine ⟨fun n e member => always n e ?_, fun a ⟨k, returned⟩ n e member => ?_⟩
    · rw [run]
      exact (Emit.events_bind _ _).subset member
    · -- Both have got far enough after the longer of the two runs.
      have first := result_later returned (Nat.le_max_left k n)
      have rest := ((f a).later n (max k n) (Nat.le_max_right k n)).events.subset member
      refine always (max k n) e ?_
      rw [run, first, Emit.bind, returned]
      exact List.mem_append_right _ rest
  · intro ⟨first, rest⟩ n e member
    rw [run, Emit.bind] at member
    split at member
    · exact first n e member
    next a returned =>
      rcases List.mem_append.mp member with early | late
      · exact first n e early
      · exact rest a ⟨n, returned⟩ n e late

theorem returns_bind (p : Prog E α) (f : α → Prog E β) (b : β) :
    (p >>= f).Returns b ↔ ∃ a, p.Returns a ∧ (f a).Returns b := by
  have run : ∀ n, (p >>= f).run n = (p.run n).bind fun a => (f a).run n := fun _ => rfl
  constructor
  · intro ⟨n, returned⟩
    rw [run, Emit.bind] at returned
    split at returned
    · cases returned
    next a first => exact ⟨a, ⟨n, first⟩, n, returned⟩
  · intro ⟨a, ⟨k, first⟩, n, second⟩
    refine ⟨max k n, ?_⟩
    rw [run, result_later first (Nat.le_max_left k n), Emit.bind, first]
    show ((f a).run (max k n)).result = some b
    rw [result_later second (Nat.le_max_right k n)]
    exact second

@[simp] theorem always_then (p : Prog E Unit) (q : Prog E β) :
    (p >>= fun _ => q).Always P ↔ p.Always P ∧ (p.Returns () → q.Always P) := by
  rw [always_bind]
  exact and_congr_right fun _ => ⟨fun all => all (), fun one _ => one⟩

@[simp] theorem returns_then (p : Prog E Unit) (q : Prog E β) (b : β) :
    (p >>= fun _ => q).Returns b ↔ p.Returns () ∧ q.Returns b := by
  rw [returns_bind]
  exact ⟨fun ⟨_, both⟩ => both, fun both => ⟨(), both⟩⟩

section Loops

variable {cond : σ → Bool} {body : σ → Prog E Unit} {next : σ → σ} {s : σ}

theorem loop_run (n : Nat) :
    (loop cond body next s).run n = Emit.loop cond (fun s => (body s).run n) next n s := rfl

theorem loop_later (n : Nat) (goes : cond s = true) :
    ((body s >>= fun _ => loop cond body next (next s)).run n).Extends
    ((loop cond body next s).run (n + 1)) := by
  rw [loop_run, Emit.loop, if_pos goes]
  refine ((body s).later n (n + 1) (by omega)).bind fun _ => ?_
  exact .loop (fun s => (body s).later n (n + 1) (by omega)) (Nat.le_refl n) (next s)

theorem always_loop : (loop cond body next s).Always P ↔
    ∀ k, (∀ j, j ≤ k → cond (next^[j] s) = true) → (∀ j, j < k → (body (next^[j] s)).Returns ()) →
      (body (next^[k] s)).Always P := by
  constructor
  · intro always k
    induction k generalizing s with
    | zero =>
      intro goes _ n e member
      have inside :=
        (Emit.events_bind ((body s).run n) fun _ => (loop cond body next (next s)).run n).subset
        member
      exact always (n + 1) e ((loop_later n (goes 0 (Nat.le_refl 0))).events.subset inside)
    | succ k ih =>
      intro goes returns
      have rest : (loop cond body next (next s)).Always P := by
        have both : (body s >>= fun _ => loop cond body next (next s)).Always P :=
          fun n e member => always (n + 1) e ((loop_later n (goes 0 (by omega))).events.subset member)
        exact ((always_bind _ _).mp both).2 () (returns 0 (by omega))
      exact ih rest (fun j le => goes (j + 1) (by omega)) (fun j lt => returns (j + 1) (by omega))
  · intro rounds n
    rw [loop_run]
    -- The bound on the rounds inside the body stays, the number of rounds left goes down.
    suffices general : ∀ m s, (∀ k, (∀ j, j ≤ k → cond (next^[j] s) = true) →
        (∀ j, j < k → (body (next^[j] s)).Returns ()) → (body (next^[k] s)).Always P) →
        ∀ e ∈ (Emit.loop cond (fun s => (body s).run n) next m s).events, P e from general n s rounds
    intro m
    induction m with
    | zero => exact fun _ _ e none => nomatch none
    | succ m ih =>
      intro s rounds e member
      unfold Emit.loop at member
      split at member
      next goes =>
        have first : (body s).Always P := rounds 0 (fun j le => by rwa [Nat.le_zero.mp le]) nofun
        unfold Emit.bind at member
        split at member
        · exact first n e member
        next returned =>
          rcases List.mem_append.mp member with early | late
          · exact first n e early
          · refine ih (next s) (fun k more returns => ?_) e late
            refine rounds (k + 1) (fun j le => ?_) fun j lt => ?_
            · cases j with
              | zero => exact goes
              | succ j => exact more j (by omega)
            · cases j with
              | zero => exact ⟨n, returned⟩
              | succ j => exact returns j (by omega)
      · cases member

theorem returns_loop : (loop cond body next s).Returns () ↔
    ∃ k, cond (next^[k] s) = false ∧ ∀ j, j < k → cond (next^[j] s) = true ∧
    (body (next^[j] s)).Returns () := by
  constructor
  · intro ⟨n, returned⟩
    rw [loop_run] at returned
    suffices general : ∀ m s, (Emit.loop cond (fun s => (body s).run n) next m s).result = some () →
        ∃ k, cond (next^[k] s) = false ∧
          ∀ j, j < k → cond (next^[j] s) = true ∧ (body (next^[j] s)).Returns () from general n s returned
    intro m
    induction m with
    | zero => exact fun _ none => nomatch none
    | succ m ih =>
      intro s returned
      unfold Emit.loop at returned
      split at returned
      next goes =>
        unfold Emit.bind at returned
        split at returned
        · cases returned
        next first =>
          obtain ⟨k, ends, rounds⟩ := ih (next s) returned
          refine ⟨k + 1, ends, fun j lt => ?_⟩
          cases j with
          | zero => exact ⟨goes, n, first⟩
          | succ j => exact rounds j (by omega)
      next ends => exact ⟨0, by simpa using ends, nofun⟩
  · intro ⟨k, ends, rounds⟩
    induction k generalizing s with
    | zero => exact ⟨1, by rw [loop_run, Emit.loop, if_neg (by simpa using ends)]⟩
    | succ k ih =>
      obtain ⟨goes, first⟩ := rounds 0 (by omega)
      have rest : (loop cond body next (next s)).Returns () :=
        ih ends fun j lt => rounds (j + 1) (by omega)
      obtain ⟨n, returned⟩ :=
        (returns_bind (body s) (fun _ => loop cond body next (next s)) ()).mpr ⟨(), first, rest⟩
      refine ⟨n + 1, ?_⟩
      have later : ((body s >>= fun _ => loop cond body next (next s)).run n).Extends
          ((loop cond body next s).run (n + 1)) := loop_later n goes
      rcases later with same | ⟨stopped, -⟩
      · rw [← same]
        exact returned
      · rw [returned] at stopped
        cases stopped

theorem always_rounds (round : σ → Prog E Unit) :
    (round s >>= fun _ => loop cond (fun s => round (next s)) next s).Always P ↔
      ∀ k, (∀ j, j < k → cond (next^[j] s) = true ∧ (round (next^[j] s)).Returns ()) →
        (round (next^[k] s)).Always P := by
  rw [always_then, always_loop]
  simp only [← Function.iterate_succ_apply' next]
  constructor
  · rintro ⟨first, rest⟩ k before
    cases k with
    | zero => exact first
    | succ k =>
      exact rest (before 0 (by omega)).2 k (fun j le => (before j (by omega)).1)
        fun j lt => (before (j + 1) (by omega)).2
  · intro all
    refine ⟨all 0 nofun, fun returned k goes returns => all (k + 1) fun j lt => ⟨goes j (by omega), ?_⟩⟩
    cases j with
    | zero => exact returned
    | succ j => exact returns j (by omega)

theorem returns_rounds (round : σ → Prog E Unit) :
    (round s >>= fun _ => loop cond (fun s => round (next s)) next s).Returns () ↔
      ∃ k, cond (next^[k] s) = false ∧ (∀ j, j < k → cond (next^[j] s) = true) ∧
        ∀ j, j ≤ k → (round (next^[j] s)).Returns () := by
  rw [returns_then, returns_loop]
  simp only [← Function.iterate_succ_apply' next]
  constructor
  · rintro ⟨first, k, ends, rest⟩
    refine ⟨k, ends, fun j lt => (rest j lt).1, fun j le => ?_⟩
    cases j with
    | zero => exact first
    | succ j => exact (rest j (by omega)).2
  · rintro ⟨k, ends, goes, all⟩
    exact ⟨all 0 (by omega), k, ends, fun j lt => ⟨goes j lt, all (j + 1) (by omega)⟩⟩

end Loops

end Prog

end Jos.Shared
