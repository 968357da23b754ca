import Jos.Shared.Run

namespace Jos.Net

open Jos.Shared Function

/-- A context is known by its address. `heap` holds those that `malloc` gave out and nobody has
freed. -/
structure Threads where
  curTc : Option Nat
  threadQueue : List Nat
  killQueue : List Nat
  waitAddr : Nat -> Option Nat
  wakeup : Nat -> Bool
  heap : List Nat

inductive ThreadOp where
  | create (tc : Nat)
  | yield
  | halt
  | wait (addr : Option Nat)
  -- A round of the loop of `thread_wait`, and its end.
  | sleep
  | leave
  | wakeup (addr : Option Nat)

def ThreadOp.switches : ThreadOp -> Bool
  | .yield | .halt | .sleep => true
  | _ => false

namespace Threads

def init : Threads := ⟨none, [], [], fun _ => none, fun _ => false, []⟩

def setWait (s : Threads) (tc : Nat) (addr : Option Nat) : Threads :=
  { s with waitAddr := update s.waitAddr tc addr, wakeup := update s.wakeup tc false }

def threadCreate (s : Threads) (tc : Nat) : Threads :=
  { s.setWait tc none with threadQueue := s.threadQueue ++ [tc], heap := tc :: s.heap }

def threadYield (s : Threads) : Threads :=
  match s.threadQueue with
  | [] => s
  | next :: rest => { s with curTc := some next, threadQueue := rest ++ s.curTc.toList }

-- What `thread_halt` does before it yields.
def threadKill (s : Threads) (cur : Nat) : Threads :=
  { s with curTc := none, killQueue := s.killQueue.tail ++ [cur]
           heap := s.killQueue.head?.elim s.heap s.heap.erase }

def threadWakeup (s : Threads) (addr : Option Nat) : Threads :=
  { s with
    wakeup := fun tc =>
      s.wakeup tc || (decide (tc ∈ s.threadQueue) && decide (s.waitAddr tc = addr)) }

-- The clock and the word at `addr` may end a wait at any time; `exit` ends the run.
def step (s : Threads) : ThreadOp -> Option Threads
  | .create tc => some (s.threadCreate tc)
  | .yield => some s.threadYield
  | .wakeup addr => some (s.threadWakeup addr)
  | .halt => s.curTc.bind fun cur =>
    if s.threadQueue = [] then none else some (s.threadKill cur).threadYield
  | .wait addr => s.curTc.map fun cur => s.setWait cur addr
  | .sleep => s.curTc.bind fun cur => if s.wakeup cur then none else some s.threadYield
  | .leave => s.curTc.map fun cur => s.setWait cur none

-- `malloc` gives out no context that is still in use.
def Fresh (s : Threads) : ThreadOp -> Prop
  | .create tc => tc ∉ s.heap
  | _ => True

instance (s : Threads) (op : ThreadOp) : Decidable (s.Fresh op) := by
  cases op <;> unfold Fresh <;> infer_instance

def all (s : Threads) : List Nat := s.curTc.toList ++ s.threadQueue ++ s.killQueue

structure Inv (s : Threads) : Prop where
  nodup : s.all.Nodup
  heap : s.heap.Perm s.all
  one : s.killQueue.length ≤ 1

variable {s t u : Threads} {op : ThreadOp} {es : List ThreadOp} {tc : Nat}

theorem yield_perm (s : Threads) : s.threadYield.all.Perm s.all := by
  unfold threadYield all
  cases queued : s.threadQueue with
  | nil => simp [queued]
  | cons next rest => cases s.curTc <;> grind

theorem Inv.yield (inv : s.Inv) : s.threadYield.Inv := by
  have same := yield_perm s
  have rest : s.threadYield.heap = s.heap ∧ s.threadYield.killQueue = s.killQueue := by
    unfold threadYield
    split <;> exact ⟨rfl, rfl⟩
  refine ⟨same.nodup_iff.mpr inv.nodup, ?_, rest.2 ▸ inv.one⟩
  rw [rest.1]
  exact inv.heap.trans same.symm

-- The context on the kill queue is freed before the next one is put there.
theorem Inv.kill (inv : s.Inv) (running : s.curTc = some tc) : (s.threadKill tc).Inv := by
  obtain ⟨nodup, heap, one⟩ := inv
  simp only [all, running, Option.toList_some] at nodup heap
  rcases killed : s.killQueue with _ | ⟨dead, _ | ⟨other, rest⟩⟩
  · rw [killed] at nodup heap
    constructor <;> simp only [all, threadKill, killed] <;> grind
  · rw [killed] at nodup heap
    have freed := heap.erase dead
    constructor <;> simp only [all, threadKill, killed] <;> grind
  · simp [killed] at one

theorem init_inv : init.Inv := ⟨by decide, by decide, by decide⟩

theorem step_inv (inv : s.Inv) (fresh : s.Fresh op) (next : s.step op = some t) : t.Inv := by
  cases op with
  | create tc =>
    obtain rfl := Option.some.inj next
    have unused : tc ∉ s.all := fun member => fresh (inv.heap.mem_iff.mpr member)
    have added : (s.threadCreate tc).all.Perm (tc :: s.all) := by
      unfold threadCreate setWait all
      grind
    exact ⟨added.nodup_iff.mpr (List.nodup_cons.mpr ⟨unused, inv.nodup⟩),
      (inv.heap.cons tc).trans added.symm, inv.one⟩
  | yield =>
    obtain rfl := Option.some.inj next
    exact inv.yield
  | wakeup addr =>
    obtain rfl := Option.some.inj next
    exact ⟨inv.nodup, inv.heap, inv.one⟩
  | halt =>
    obtain ⟨cur, running, next⟩ := Option.bind_eq_some_iff.mp next
    split at next <;> cases next
    exact (inv.kill running).yield
  | sleep =>
    obtain ⟨cur, -, next⟩ := Option.bind_eq_some_iff.mp next
    split at next <;> cases next
    exact inv.yield
  | wait addr | leave =>
    obtain ⟨cur, -, rfl⟩ := Option.map_eq_some_iff.mp next
    exact ⟨inv.nodup, inv.heap, inv.one⟩

theorem threads_accounted (run : Run step Fresh init es s) : s.Inv :=
  run.invariant init_inv fun _ _ _ => step_inv

theorem threads_accounted_halt : ∃ s, Run step Fresh init [.create 1, .create 2, .yield, .halt] s ∧
    (s.curTc = some 2 ∧ s.killQueue = [1]) ∧ s.Inv := by
  refine Run.of_exec_imp (p := fun s => s.curTc = some 2 ∧ s.killQueue = [1])
    (by decide +kernel) fun s run ended => ?_
  exact ⟨ended, threads_accounted run⟩

variable {before after : List Nat}

theorem yield_turn (queued : s.threadQueue = before ++ tc :: after) : s.threadYield.curTc = some tc ∨
    ∃ before' after', s.threadYield.threadQueue = before' ++ tc :: after' ∧
    before'.length + 1 = before.length := by
  unfold threadYield
  rw [queued]
  cases before with
  | nil => exact .inl rfl
  | cons next rest => exact .inr ⟨rest, after ++ s.curTc.toList, by simp, rfl⟩

theorem step_turn (queued : s.threadQueue = before ++ tc :: after) (next : s.step op = some t) :
    t.curTc = some tc ∨ ∃ before' after', t.threadQueue = before' ++ tc :: after' ∧
      before'.length + [op].countP ThreadOp.switches = before.length := by
  cases op with
  | create new =>
    obtain rfl := Option.some.inj next
    exact .inr ⟨before, after ++ [new], by simp [threadCreate, queued], rfl⟩
  | yield =>
    obtain rfl := Option.some.inj next
    exact yield_turn queued
  | wakeup addr =>
    obtain rfl := Option.some.inj next
    exact .inr ⟨before, after, queued, rfl⟩
  | halt | sleep =>
    obtain ⟨cur, -, next⟩ := Option.bind_eq_some_iff.mp next
    split at next <;> cases next
    exact yield_turn queued
  | wait addr | leave =>
    obtain ⟨cur, -, rfl⟩ := Option.map_eq_some_iff.mp next
    exact .inr ⟨before, after, queued, rfl⟩

theorem run_turn (queued : s.threadQueue = before ++ tc :: after)
    (run : Run step (fun s _ => s.curTc ≠ some tc) s es u) : u.curTc = some tc ∨
    ∃ before' after', u.threadQueue = before' ++ tc :: after' ∧
      before'.length + es.countP ThreadOp.switches = before.length := by
  induction run with
  | nil => exact .inr ⟨before, after, queued, rfl⟩
  | snoc _ waiting next ih =>
    obtain ⟨before', after', queued', count⟩ := ih.resolve_left waiting
    refine (step_turn queued' next).imp_right ?_
    rintro ⟨before'', after'', queued'', count'⟩
    exact ⟨before'', after'', queued'', by rw [List.countP_append]; omega⟩

theorem thread_runs_in_turn (queued : s.threadQueue = before ++ tc :: after)
    (run : Run step (fun s _ => s.curTc ≠ some tc) s es u)
    (enough : before.length < es.countP ThreadOp.switches) : u.curTc = some tc := by
  refine (run_turn queued run).resolve_right ?_
  rintro ⟨before', after', -, count⟩
  omega

theorem thread_runs_in_turn_second : ∃ u, Run step (fun s _ => s.curTc ≠ some 3)
    ⟨some 1, [2, 3], [], fun _ => none, fun _ => false, [1, 2, 3]⟩ [.yield, .yield] u ∧
    u.curTc = some 3 :=
  Exists.imp (fun u ran => ⟨ran.1, @thread_runs_in_turn _ u _ 3 [2] [] rfl ran.1 (by decide)⟩)
    (Run.of_exec_any (p := fun _ => True) (by decide +kernel))

theorem step_woken (inv : s.Inv) (woken : s.wakeup tc) (queued : tc ∈ s.threadQueue)
    (waiting : s.curTc ≠ some tc) (fresh : s.Fresh op) (next : s.step op = some t) :
    t.wakeup tc := by
  have other : ∀ cur addr, cur ≠ tc -> (s.setWait cur addr).wakeup tc := fun cur addr ne => by
    simpa [setWait, update_of_ne ne.symm] using woken
  have yields : ∀ s : Threads, s.threadYield.wakeup = s.wakeup := fun s => by
    unfold threadYield
    split <;> rfl
  cases op with
  | create new =>
    obtain rfl := Option.some.inj next
    refine other new none fun same => fresh (inv.heap.mem_iff.mpr ?_)
    simp [all, same, queued]
  | yield =>
    obtain rfl := Option.some.inj next
    exact yields s ▸ woken
  | wakeup addr =>
    obtain rfl := Option.some.inj next
    simp [threadWakeup, woken]
  | halt | sleep =>
    obtain ⟨cur, -, next⟩ := Option.bind_eq_some_iff.mp next
    split at next <;> cases next
    rw [yields]
    exact woken
  | wait addr | leave =>
    obtain ⟨cur, running, rfl⟩ := Option.map_eq_some_iff.mp next
    exact other cur _ fun same => waiting (same ▸ running)

theorem wakeup_not_lost {es' : List ThreadOp} {addr : Option Nat} (reached : Run step Fresh init es s)
    (queued : tc ∈ s.threadQueue) (waits : s.waitAddr tc = addr)
    (run : Run step (fun s op => s.Fresh op ∧ s.curTc ≠ some tc) (s.threadWakeup addr) es' u)
    (running : u.curTc = some tc) : u.step .sleep = none := by
  have inv : s.Inv := reached.invariant init_inv fun _ _ _ => step_inv
  have start : (s.threadWakeup addr).Inv := ⟨inv.nodup, inv.heap, inv.one⟩
  have kept :=
    run.invariant
    (motive := fun u => u.Inv ∧ u.wakeup tc ∧ (u.curTc = some tc ∨ tc ∈ u.threadQueue))
    ⟨start, by simp [threadWakeup, queued, waits], .inr queued⟩ <| by
      rintro a op b ⟨inv, woken, place⟩ ⟨fresh, waiting⟩ next
      have queued := place.resolve_left waiting
      refine ⟨step_inv inv fresh next, step_woken inv woken queued waiting fresh next, ?_⟩
      obtain ⟨before, after, split⟩ := List.append_of_mem queued
      refine (step_turn split next).imp_right ?_
      rintro ⟨before', after', split', -⟩
      simp [split']
  simp [step, running, kept.2.1]

theorem wakeup_not_lost_yield : ∃ s u : Threads,
    Run step Fresh init [.create 1, .create 2, .yield, .wait (some 9), .sleep] s ∧
    Run step (fun s op => s.Fresh op ∧ s.curTc ≠ some 1) (s.threadWakeup (some 9)) [.yield] u ∧
    u.curTc = some 1 ∧ u.step .sleep = none := by
  obtain ⟨s, reached, queued, waits, other, running⟩ : ∃ s, Run step Fresh init
      [.create 1, .create 2, .yield, .wait (some 9), .sleep] s ∧ 1 ∈ s.threadQueue ∧
        s.waitAddr 1 = some 9 ∧
      s.curTc ≠ some 1 ∧ (s.threadWakeup (some 9)).threadYield.curTc = some 1 :=
        Run.of_exec_any (by decide +kernel)
  have run : Run step (fun s op => s.Fresh op ∧ s.curTc ≠ some 1) (s.threadWakeup (some 9)) [.yield] _ :=
    .single ⟨trivial, other⟩ rfl
  exact ⟨s, _, reached, run, running, wakeup_not_lost reached queued waits run running⟩

end Threads

end Jos.Net
