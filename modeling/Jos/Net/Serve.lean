import Jos.Shared.Run
import Jos.Net.Loops

namespace Jos.Net

open Jos.Kern Jos.Shared
open Function

def reqva : Word := 0x0ffff000 - 20 * 4096

def slotVa (i : Fin 20) : Word := reqva + BitVec.ofNat 32 (i * 4096)

def vaSlot (va : Word) : Nat := (va - reqva).toNat / 4096

theorem vaSlot_slotVa : ∀ i, vaSlot (slotVa i) = i.val := by decide

theorem slotVa_injective : Injective slotVa := by
  intro i j same
  apply Fin.ext
  rw [← vaSlot_slotVa i, same, vaSlot_slotVa j]

def getBuffer (buse : Fin 20 → Bool) : Option (Fin 20) := (List.finRange 20).find? fun i => !buse i

def putBuffer (buse : Fin 20 → Bool) (va : Word) : Fin 20 → Bool := fun i =>
  if i.val = vaSlot va then false else buse i

structure StArgs where
  reqno : Word
  whom : Word
  req : Word
  deriving DecidableEq

/-- The network server between two switches of its threads: the flags of the buffer slots, the
arguments of the `serve_thread`s that have not finished, and the buffer that `serve` holds while
`process_timer` lets other threads run. -/
structure Server where
  buse : Fin 20 → Bool
  threads : List StArgs
  timer : Option Word

inductive ServerEvent where
  | message (reqno whom perm : Word) (created : Bool)
  | timerDone
  | finish (args : StArgs)

namespace Server

-- `created` says whether `thread_create` finds memory; `serve` does not look at its result.
def step (s : Server) : ServerEvent → Option Server
  | .message reqno whom perm created =>
    if s.timer ≠ none then none else
      match getBuffer s.buse with
      | none => none
      | some i =>
        let s := { s with buse := update s.buse i true }
        if reqno = nsreqTimer then some { s with timer := some (slotVa i) }
        else if perm &&& pteP = 0 then some s
        else if created then some { s with threads := ⟨reqno, whom, slotVa i⟩ :: s.threads }
        else some s
  | .timerDone => s.timer.map fun va => { s with timer := none, buse := putBuffer s.buse va }
  | .finish args =>
    if args ∈ s.threads then
      some { s with threads := s.threads.erase args, buse := putBuffer s.buse args.req }
    else none

def inUse (s : Server) : List Word := s.threads.map StArgs.req ++ s.timer.toList

structure Accounted (s : Server) : Prop where
  exact : ∀ i, s.buse i = true ↔ (∃ args ∈ s.threads, args.req = slotVa i) ∨ s.timer = some (slotVa i)
  full : s.timer = none → getBuffer s.buse = none → s.threads.length = 20

def Carried (_ : Server) : ServerEvent → Prop
  | .message reqno _ perm created => reqno ≠ nsreqTimer → perm &&& pteP ≠ 0 ∧ created = true
  | .timerDone | .finish _ => True

structure Sound (s : Server) : Prop where
  exact : ∀ i, s.buse i = true ↔ slotVa i ∈ s.inUse
  slots : ∀ va ∈ s.inUse, ∃ i, va = slotVa i
  nodup : s.inUse.Nodup

variable {s t : Server}

theorem mem_inUse (s : Server) (va : Word) :
    va ∈ s.inUse ↔ (∃ args ∈ s.threads, args.req = va) ∨ s.timer = some va := by
  simp [inUse]

theorem Sound.accounted (sound : s.Sound) : s.Accounted := by
  refine ⟨fun i => (sound.exact i).trans (mem_inUse s _), fun idle full => ?_⟩
  have used : s.inUse = s.threads.map StArgs.req := by simp [inUse, idle]
  have all : (List.finRange 20).map slotVa ⊆ s.threads.map StArgs.req := by
    intro va member
    obtain ⟨i, -, rfl⟩ := List.mem_map.mp member
    rw [← used, ← sound.exact]
    simpa using List.find?_eq_none.mp full i (List.mem_finRange i)
  have known : s.threads.map StArgs.req ⊆ (List.finRange 20).map slotVa := by
    intro va member
    obtain ⟨i, rfl⟩ := sound.slots va (used ▸ member)
    exact List.mem_map_of_mem (List.mem_finRange i)
  have distinct : ((List.finRange 20).map slotVa).Nodup := (List.nodup_finRange 20).map slotVa_injective
  have most := (List.subperm_of_subset (used ▸ sound.nodup) known).length_le
  have least := (List.subperm_of_subset distinct all).length_le
  simp only [List.length_map, List.length_finRange] at most least
  omega

theorem Sound.put (sound : s.Sound) {va : Word} (rest : s.inUse.Perm (va :: t.inUse))
    (buse : t.buse = putBuffer s.buse va) : t.Sound := by
  have nodup := rest.nodup_iff.mp sound.nodup
  obtain ⟨fresh, others⟩ := List.nodup_cons.mp nodup
  obtain ⟨j, rfl⟩ := sound.slots va (rest.mem_iff.mpr List.mem_cons_self)
  refine ⟨fun i => ?_,
    fun va' member => sound.slots va' (rest.mem_iff.mpr (List.mem_cons_of_mem _ member)), others⟩
  rw [buse, putBuffer, vaSlot_slotVa]
  by_cases same : i = j
  · simp [same, fresh]
  · have apart : slotVa i ≠ slotVa j := fun equal => same (slotVa_injective equal)
    rw [if_neg (fun equal => same (Fin.ext equal)), sound.exact, rest.mem_iff, List.mem_cons,
      or_iff_right apart]

theorem Sound.get (sound : s.Sound) {i : Fin 20} (free : getBuffer s.buse = some i)
    (more : t.inUse.Perm (slotVa i :: s.inUse)) (buse : t.buse = update s.buse i true) : t.Sound := by
  have unused : slotVa i ∉ s.inUse := by
    rw [← sound.exact]
    simpa using List.find?_some free
  refine ⟨fun j => ?_, fun va member => ?_,
    more.nodup_iff.mpr (List.nodup_cons.mpr ⟨unused, sound.nodup⟩)⟩
  · rw [buse, more.mem_iff, List.mem_cons, ← sound.exact]
    by_cases same : j = i
    · simp [same]
    · have apart : slotVa j ≠ slotVa i := fun equal => same (slotVa_injective equal)
      simp [same, apart]
  · rcases List.mem_cons.mp (more.mem_iff.mp member) with rfl | old
    · exact ⟨i, rfl⟩
    · exact sound.slots va old

theorem message_cases {reqno whom perm : Word} {created : Bool}
    (next : s.step (.message reqno whom perm created) = some t) :
    s.timer = none ∧ ∃ i, getBuffer s.buse = some i ∧ t.buse = update s.buse i true ∧
      ((reqno = nsreqTimer ∧ t.timer = some (slotVa i) ∧ t.threads = s.threads) ∨
        ((perm &&& pteP ≠ 0 ∧ created = true) ∧ t.timer = none ∧
          t.threads = ⟨reqno, whom, slotVa i⟩ :: s.threads) ∨
        (¬(reqno ≠ nsreqTimer → perm &&& pteP ≠ 0 ∧ created = true) ∧ t.timer = none ∧
        t.threads = s.threads)) := by
  obtain ⟨idle, taken⟩ := Option.ite_none_left_eq_some.mp next
  rw [not_not] at idle
  refine ⟨idle, ?_⟩
  split at taken
  · cases taken
  next i free =>
    dsimp only at taken
    split at taken
    next timer =>
      cases taken
      exact ⟨i, free, rfl, .inl ⟨timer, rfl, rfl⟩⟩
    next other =>
      split at taken
      next bare =>
        cases taken
        exact ⟨i, free, rfl, .inr (.inr ⟨fun carried => (carried other).1 bare, idle, rfl⟩)⟩
      next paged =>
        split at taken
        next made =>
          cases taken
          exact ⟨i, free, rfl, .inr (.inl ⟨⟨paged, made⟩, idle, rfl⟩)⟩
        next failed =>
          cases taken
          exact ⟨i, free, rfl, .inr (.inr ⟨fun carried => failed (carried other).2, idle, rfl⟩)⟩

theorem step_sound {e : ServerEvent} (sound : s.Sound) (carried : s.Carried e)
    (next : s.step e = some t) : t.Sound := by
  cases e with
  | message reqno whom perm created =>
    obtain ⟨idle, i, free, buse, ⟨-, timer, threads⟩ | ⟨-, timer, threads⟩ | ⟨leaked, -⟩⟩ :=
      message_cases next
    · refine sound.get free ?_ buse
      simp only [inUse, timer, threads, idle, Option.toList_some, Option.toList_none, List.append_nil]
      exact List.perm_append_singleton _ _
    · refine sound.get free ?_ buse
      simp only [inUse, timer, threads, idle, List.map_cons]
      exact List.Perm.refl _
    · exact absurd carried leaked
  | timerDone =>
    obtain ⟨va, holds, rfl⟩ := Option.map_eq_some_iff.mp next
    refine sound.put ?_ rfl
    simp only [inUse, holds, Option.toList_some, Option.toList_none, List.append_nil]
    exact List.perm_append_singleton _ _
  | finish args =>
    obtain ⟨member, same⟩ := Option.ite_none_right_eq_some.mp next
    cases same
    refine sound.put ?_ rfl
    have split := (List.perm_cons_erase member).map StArgs.req
    exact split.append_right s.timer.toList

theorem accounted_iff_carried {e : ServerEvent} (sound : s.Sound) (next : s.step e = some t) :
    t.Accounted ↔ s.Carried e := by
  refine ⟨fun accounted => ?_, fun carried => (step_sound sound carried next).accounted⟩
  cases e with
  | message reqno whom perm created =>
    obtain ⟨idle, i, free, buse, ⟨timer, -⟩ | ⟨carried, -⟩ | ⟨-, timer, threads⟩⟩ := message_cases next
    · exact fun other => absurd timer other
    · exact fun _ => carried
    · -- The slot is marked, and nobody was given it.
      have marked : t.buse i = true := by rw [buse, update_self]
      have unused : ¬s.buse i = true := by simpa using List.find?_some free
      have taken := (accounted.exact i).mp marked
      rw [timer, threads, ← idle, ← mem_inUse, ← sound.exact] at taken
      exact absurd taken unused
  | timerDone => trivial
  | finish args => trivial

def start : Server := ⟨fun _ => false, [], none⟩

theorem start_sound : start.Sound where
  exact i := by simp [start, inUse]
  slots va member := by simp [start, inUse] at member
  nodup := by simp [start, inUse]

theorem slots_accounted {es : List ServerEvent} (run : Run step Carried start es t) :
    t.Accounted ∧ ∀ e u, t.step e = some u → (u.Accounted ↔ t.Carried e) := by
  have sound : t.Sound := run.invariant start_sound fun _ _ _ => step_sound
  exact ⟨sound.accounted, fun e u next => accounted_iff_carried sound next⟩

section Demo

instance (s : Server) (e : ServerEvent) : Decidable (s.Carried e) :=
  match e with
  | .message _ _ _ _ => inferInstanceAs (Decidable (_ → _))
  | .timerDone | .finish _ => isTrue trivial

def short : List ServerEvent :=
  [.message 9 0x1003 7 true, .message nsreqTimer 0x1002 0 true, .finish ⟨9, 0x1003, slotVa 0⟩, .timerDone]

theorem slots_accounted_short : ∃ t, Run step Carried start short t ∧ t.Accounted ∧
    t.buse 0 = false ∧ t.threads = [] := by
  refine Run.of_exec_imp (p := fun t => t.buse 0 = false ∧ t.threads = []) (by decide +kernel) ?_
  rintro t run ⟨free, none⟩
  exact ⟨(slots_accounted run).1, free, none⟩

-- Twenty requests without a page use up all slots, although no thread is at work.
theorem slots_leak :
    ∃ t, Run step (fun _ _ => True) start (List.replicate 20 (.message 9 0x1003 0 true)) t ∧
    t.threads = [] ∧ t.timer = none ∧ getBuffer t.buse = none :=
  Run.of_exec_any (by decide +kernel)

end Demo

end Server

end Jos.Net
