import Jos.Shared.Run
import Jos.Kern.Mmu

namespace Jos.Lib

open Jos.Shared
open Function

inductive SockTask (E : Type) where
  | free
  -- A child that may not run yet.
  | newborn
  | idle
  | test (i : Fin 32) (dup : Option (Fin 32 × Fin 32))
  | send (i : Fin 32) (dup : Option (Fin 32 × Fin 32))
  | unmap (i : Fin 32) (dup : Option (Fin 32 × Fin 32))
  | map (old new : Fin 32)
  | copy (child : E) (rest : List (Fin 32))
  deriving DecidableEq

structure Sock (E : Type) where
  mem : E → Fin 32 → Bool
  task : E → SockTask E
  sent : Nat

inductive SockEvent (E : Type) where
  | close (e : E) (i : Fin 32)
  | dup (e : E) (old new : Fin 32)
  | fork (e child : E)
  | exit (e : E)
  | go (e : E)

def SockTask.closing {E : Type} : SockTask E → Option (Fin 32)
  | .test i _ => some i
  | .send i _ => some i
  | .unmap i _ => some i
  | _ => none

def SockTask.testing {E : Type} : SockTask E → Bool
  | .test _ _ => true
  | _ => false

def SockTask.tested {E : Type} : SockTask E → Bool
  | .send _ _ => true
  | .unmap _ _ => true
  | _ => false

namespace Sock

variable {E : Type} [Fintype E] [DecidableEq E]

def start (first : E) (i : Fin 32) : Sock E where
  mem e j := e = first ∧ j = i
  task e := if e = first then .idle else .free
  sent := 0

def refs (s : Sock E) : Nat := (Finset.univ.filter fun q : E × Fin 32 => s.mem q.1 q.2).card

def setTask (s : Sock E) (e : E) (t : SockTask E) : Sock E := { s with task := update s.task e t }

def setMem (s : Sock E) (e : E) (i : Fin 32) (mapped : Bool) : Sock E :=
  { s with mem := update s.mem e (update (s.mem e) i mapped) }

def share (s : Sock E) (e : E) (i : Fin 32) (f : E) (j : Fin 32) : Sock E :=
  if s.mem e i then s.setMem f j true else s

def go (s : Sock E) (e : E) : Option (Sock E) :=
  match s.task e with
  | .test i dup => some (s.setTask e (if s.refs = 1 then .send i dup else .unmap i dup))
  | .send i dup => some { s.setTask e (.unmap i dup) with sent := s.sent + 1 }
  | .unmap i none => some ((s.setMem e i false).setTask e .idle)
  | .unmap i (some (old, new)) => some ((s.setMem e i false).setTask e (.map old new))
  -- The new place has been closed, so that a page of another file displaces nothing here.
  | .map old new => some ((s.share e old e new).setTask e .idle)
  | .copy child (i :: rest) => some ((s.share e i child i).setTask e (.copy child rest))
  | .copy child [] => some ((s.setTask child .idle).setTask e .idle)
  | _ => none

def step (s : Sock E) : SockEvent E → Option (Sock E)
  | .close e i => if s.task e = .idle ∧ s.mem e i then some (s.setTask e (.test i none)) else none
  | .dup e old new =>
    if s.task e = .idle then
      some (s.setTask e (if s.mem e new then .test new (some (old, new)) else .map old new))
    else none
  | .fork e child =>
    if s.task e = .idle ∧ s.task child = .free then
      some ((s.setTask e (.copy child (List.finRange 32))).setTask child .newborn)
    else none
  -- `close_all` has come first.
  | .exit e => if s.task e = .idle ∧ ∀ i, s.mem e i = false then some (s.setTask e .free) else none
  | .go e => s.go e

def Apart (s : Sock E) (event : SockEvent E) : Prop :=
  ∀ e, event = .go e → (s.task e).testing = true → ∀ f, (s.task f).tested = false

variable {s s' : Sock E}

def Sole (s : Sock E) (e : E) (i : Fin 32) : Prop := ∀ f j, s.mem f j = true → f = e ∧ j = i

structure Open (s : Sock E) : Prop where
  sent : s.sent = 0
  mapped : ∃ e i, s.mem e i = true
  last : ∀ e i dup, s.task e = .send i dup → s.Sole e i
  other : ∀ e i dup, s.task e = .unmap i dup → ∃ f j, s.mem f j = true ∧ ¬ (f = e ∧ j = i)

structure Kin (task : E → SockTask E) : Prop where
  newborn : ∀ e child rest, task e = .copy child rest → task child = .newborn
  parent : ∀ e f child rest rest', task e = .copy child rest → task f = .copy child rest' → e = f

theorem Kin.step (kin : Kin s.task) {event : SockEvent E} (next : s.step event = some s') :
    Kin s'.task := by
  obtain ⟨newborn, parent⟩ := kin
  cases event <;> simp only [Sock.step, Sock.go, Sock.share] at next <;> (repeat' split at next) <;>
    cases next <;> constructor <;> simp only [Sock.setTask, Sock.setMem, update_apply] <;>
    grind -linarith

structure Inv (s : Sock E) : Prop where
  holds : ∀ e i, (s.task e).closing = some i → s.mem e i = true
  single : ∀ e f, (s.task e).tested = true → (s.task f).tested = true → e = f
  phase : s.Open ∨
    (s.sent = 1 ∧ ∃ e i dup, s.task e = .unmap i dup ∧ s.Sole e i) ∨
    (s.sent = 1 ∧ ∀ f j, s.mem f j = false)

namespace Inv

omit [Fintype E] in
theorem start (first : E) (i : Fin 32) : Inv (start first i) := by
  have quiet : ∀ e, ((Sock.start first i).task e).closing = none ∧
    ((Sock.start first i).task e).tested = false := by
    intro e
    show (if e = first then SockTask.idle else .free).closing = none ∧
      (if e = first then SockTask.idle else .free).tested = false
    split <;> exact ⟨rfl, rfl⟩
  refine ⟨by grind -linarith, by grind, .inl ⟨rfl, ⟨first, i, by simp [Sock.start]⟩, ?_, ?_⟩⟩ <;>
    grind [SockTask.tested]

omit [Fintype E] [DecidableEq E] in
theorem retask (inv : Inv s) {task : E → SockTask E}
    (changes : ∀ e, task e = s.task e ∨ (s.task e).tested = false ∧ (task e).tested = false ∧
      ∀ i, (task e).closing = some i → s.mem e i = true) : Inv { s with task := task } := by
  have busy : ∀ e t, t.tested = true → (task e = t ↔ s.task e = t) := by
    intro e t tested
    grind -linarith
  refine ⟨fun e i here => ?_, fun e f first second => ?_, ?_⟩
  · have holds := inv.holds e i
    grind -linarith
  · have old : ∀ e, (task e).tested = true → (s.task e).tested = true := fun e tested => by
      rw [(busy e _ tested).mp rfl]
      exact tested
    exact inv.single e f (old e first) (old f second)
  · obtain open_ | ⟨sent, e, i, dup, here, sole⟩ | gone := inv.phase
    · exact .inl ⟨open_.sent, open_.mapped,
        fun e i dup here => open_.last e i dup ((busy e _ rfl).mp here), fun e i dup here =>
        open_.other e i dup ((busy e _ rfl).mp here)⟩
    · exact .inr (.inl ⟨sent, e, i, dup, (busy e _ rfl).mpr here, sole⟩)
    · exact .inr (.inr gone)

omit [Fintype E] in
theorem setTask (inv : Inv s) {e : E} {t : SockTask E} (before : (s.task e).tested = false)
    (after : t.tested = false) (closing : ∀ i, t.closing = some i → s.mem e i = true) :
    Inv (s.setTask e t) := by
  refine inv.retask fun f => ?_
  grind -linarith [update_apply]

omit [Fintype E] in
theorem setMem_iff {e f : E} {i j : Fin 32} {mapped : Bool} :
    (s.setMem e i mapped).mem f j = true ↔ if f = e ∧ j = i then mapped = true else s.mem f j = true := by
  simp only [setMem, update_apply]
  grind -linarith

omit [Fintype E] in
theorem share (inv : Inv s) {e : E} (outside : (s.task e).closing = none) (i : Fin 32) (f : E)
    (j : Fin 32) : Inv (s.share e i f j) := by
  unfold Sock.share
  split
  next source =>
    have more : ∀ g k, s.mem g k = true → (s.setMem f j true).mem g k = true := by
      intro g k mapped
      rw [setMem_iff]
      split <;> trivial
    have nobody : ∀ g k, (s.task g).closing = some k → ¬ s.Sole g k := by
      intro g k closing sole
      obtain ⟨rfl, -⟩ := sole e i source
      exact absurd (outside.symm.trans closing) nofun
    refine ⟨fun g k closing => more g k (inv.holds g k closing), inv.single, .inl ?_⟩
    obtain open_ | ⟨-, g, k, dup, here, sole⟩ | ⟨-, gone⟩ := inv.phase
    · refine ⟨open_.sent, ⟨e, i, more e i source⟩, fun g k dup here => ?_, fun g k dup here => ?_⟩
      · exact absurd (open_.last g k dup here) (nobody g k (congrArg SockTask.closing here))
      · obtain ⟨h, l, mapped, differ⟩ := open_.other g k dup here
        exact ⟨h, l, more h l mapped, differ⟩
    · exact absurd sole (nobody g k (congrArg SockTask.closing here))
    · exact absurd ((gone e i).symm.trans source) nofun
  · exact inv

omit [Fintype E] in
theorem unmap (inv : Inv s) {e : E} {i : Fin 32} {dup : Option (Fin 32 × Fin 32)}
    (here : s.task e = .unmap i dup) {t : SockTask E}
    (plain : t.closing = none ∧ t.tested = false) : Inv ((s.setMem e i false).setTask e t) := by
  have mine : ∀ f, (s.task f).tested = true → f = e :=
    fun f tested => inv.single f e tested (by rw [here]; rfl)
  have quiet : ∀ f, (update s.task e t f).tested = false := by grind -linarith [update_apply]
  have mem : ∀ f j, ((s.setMem e i false).setTask e t).mem f j = true ↔ ¬ (f = e ∧ j = i) ∧
    s.mem f j = true := by
    intro f j
    show (s.setMem e i false).mem f j = true ↔ _
    rw [setMem_iff]
    split <;> simp_all
  refine ⟨fun f j closing => (mem f j).mpr ?_,
    fun f g tested => absurd ((quiet f).symm.trans tested) nofun, ?_⟩
  · change (update s.task e t f).closing = some j at closing
    grind -linarith [update_apply, inv.holds f j]
  · obtain open_ | ⟨sent, f, j, dup', there, sole⟩ | ⟨-, gone⟩ := inv.phase
    · obtain ⟨f, j, mapped, differ⟩ := open_.other e i dup here
      refine .inl ⟨open_.sent, ⟨f, j, (mem f j).mpr ⟨differ, mapped⟩⟩, fun g k dup tested => ?_,
        fun g k dup tested => ?_⟩
      all_goals
        have none_ := quiet g
        rw [show update s.task e t g = _ from tested] at none_
        cases none_
    · obtain rfl : f = e := mine f (by rw [there]; rfl)
      obtain ⟨rfl, -⟩ := SockTask.unmap.inj (here.symm.trans there)
      refine .inr (.inr ⟨sent, fun g k => ?_⟩)
      rw [Bool.eq_false_iff, Ne, mem]
      exact fun mapped => mapped.1 (sole g k mapped.2)
    · exact absurd ((gone e i).symm.trans (inv.holds e i (congrArg SockTask.closing here))) nofun

omit [DecidableEq E] in
theorem sole_of_refs (one : s.refs = 1) : ∃ e i, s.mem e i = true ∧ s.Sole e i := by
  obtain ⟨⟨e, i⟩, all⟩ := Finset.card_eq_one.mp one
  have member : ∀ f j, s.mem f j = true ↔ f = e ∧ j = i := by
    intro f j
    have iff_ : (f, j) ∈ (Finset.univ.filter fun q : E × Fin 32 => s.mem q.1 q.2 = true) ↔
      (f, j) ∈ ({(e, i)} : Finset _) := by
      rw [all]
    simpa using iff_
  exact ⟨e, i, (member e i).mpr ⟨rfl, rfl⟩, fun f j here => (member f j).mp here⟩

theorem other_of_refs {e : E} {i : Fin 32} (mapped : s.mem e i = true) (more : s.refs ≠ 1) :
    ∃ f j, s.mem f j = true ∧ ¬ (f = e ∧ j = i) := by
  by_contra none_
  refine more (Finset.card_eq_one.mpr ⟨(e, i), ?_⟩)
  ext ⟨f, j⟩
  simp only [Finset.mem_filter, Finset.mem_univ, true_and, Finset.mem_singleton, Prod.mk.injEq]
  constructor
  · intro here
    by_contra differ
    exact none_ ⟨f, j, here, differ⟩
  · rintro ⟨rfl, rfl⟩
    exact mapped

theorem test (inv : Inv s) {e : E} {i : Fin 32} {dup : Option (Fin 32 × Fin 32)}
    (here : s.task e = .test i dup) (apart : ∀ f, (s.task f).tested = false) {t : SockTask E}
    (choice : t = .send i dup ∧ s.refs = 1 ∨ t = .unmap i dup ∧ s.refs ≠ 1) : Inv (s.setTask e t) := by
  have mapped := inv.holds e i (congrArg SockTask.closing here)
  have closing : t.closing = some i := by obtain ⟨rfl, -⟩ | ⟨rfl, -⟩ := choice <;> rfl
  have alone : ∀ f, (update s.task e t f).tested = true → f = e := by grind -linarith [update_apply]
  have last : s.refs = 1 → s.Sole e i := by
    intro one
    obtain ⟨g, k, -, sole⟩ := sole_of_refs one
    obtain ⟨rfl, rfl⟩ := sole e i mapped
    exact sole
  have own : (s.setTask e t).task e = t := update_self ..
  refine ⟨fun f j there => ?_, fun f g first second => (alone f first).trans (alone g second).symm,
    .inl ?_⟩
  · change (update s.task e t f).closing = some j at there
    show s.mem f j = true
    grind -linarith [update_apply, inv.holds f j]
  · obtain open_ | ⟨-, f, j, dup', there, -⟩ | ⟨-, gone⟩ := inv.phase
    · refine ⟨open_.sent, open_.mapped, fun f j dup' there => ?_, fun f j dup' there => ?_⟩
      all_goals
        obtain rfl := alone f (by rw [show update s.task e t f = _ from there]; rfl)
        rw [own] at there
      · show s.Sole f j
        grind -linarith
      · have other := other_of_refs mapped
        show ∃ g k, s.mem g k = true ∧ _
        grind -linarith
    · grind -linarith [SockTask.tested]
    · exact absurd ((gone e i).symm.trans mapped) nofun

omit [Fintype E] in
theorem send (inv : Inv s) {e : E} {i : Fin 32} {dup : Option (Fin 32 × Fin 32)}
    (here : s.task e = .send i dup) :
    Inv { s.setTask e (.unmap i dup) with sent := s.sent + 1 } := by
  have mapped := inv.holds e i (congrArg SockTask.closing here)
  have tested : (s.task e).tested = true := congrArg SockTask.tested here
  have own : (s.setTask e (.unmap i dup)).task e = .unmap i dup := update_self ..
  have old : ∀ f, (update s.task e (.unmap i dup) f).tested = true → (s.task f).tested = true := by
    grind -linarith [update_apply]
  refine ⟨fun f j there => ?_, fun f g first second => inv.single f g (old f first) (old g second),
    .inr (.inl ?_)⟩
  · change (update s.task e (.unmap i dup) f).closing = some j at there
    show s.mem f j = true
    grind -linarith [update_apply, SockTask.closing, inv.holds f j]
  · obtain open_ | ⟨-, f, j, dup', there, -⟩ | ⟨-, gone⟩ := inv.phase
    · exact ⟨by rw [open_.sent], e, i, dup, own, open_.last e i dup here⟩
    · obtain rfl := inv.single e f tested (by rw [there]; rfl)
      exact absurd (here.symm.trans there) nofun
    · exact absurd ((gone e i).symm.trans mapped) nofun

omit [Fintype E] in
theorem share_task (e : E) (i : Fin 32) (f : E) (j : Fin 32) : (s.share e i f j).task = s.task := by
  unfold Sock.share
  split <;> rfl

theorem go (inv : Inv s) (kin : Kin s.task) {e : E} (apart : s.Apart (.go e))
    (next : s.go e = some s') : Inv s' := by
  have shared : (s.task e).closing = none → (s.task e).tested = false →
    ∀ i f j t, t.closing = none → t.tested = false →
      Inv ((s.share e i f j).setTask e t) := fun outside before i f j t plain after =>
    (inv.share outside i f j).setTask (by rwa [share_task]) after fun k here =>
      absurd (plain.symm.trans here) nofun
  unfold Sock.go at next
  split at next <;> cases next
  next i dup here =>
    refine inv.test here (apart e rfl (by rw [here]; rfl)) ?_
    split <;> simp [*]
  next here => exact inv.send here
  next here => exact inv.unmap here ⟨rfl, rfl⟩
  next here => exact inv.unmap here ⟨rfl, rfl⟩
  next here => exact shared (by rw [here]; rfl) (by rw [here]; rfl) _ _ _ _ rfl rfl
  next here => exact shared (by rw [here]; rfl) (by rw [here]; rfl) _ _ _ _ rfl rfl
  next child here =>
    have born := kin.newborn e child [] here
    have first : Inv (s.setTask child .idle) := inv.setTask (by rw [born]; rfl) rfl nofun
    refine first.setTask ?_ rfl nofun
    simp only [Sock.setTask, update_apply]
    grind -linarith [SockTask.tested]

theorem step (inv : Inv s) (kin : Kin s.task) {event : SockEvent E} (apart : s.Apart event)
    (next : s.step event = some s') : Inv s' := by
  cases event with
  | go e => exact inv.go kin apart next
  | fork e child =>
    simp only [Sock.step] at next
    split at next <;> cases next
    next here =>
      have first : Inv (s.setTask e (.copy child (List.finRange 32))) :=
        inv.setTask (by rw [here.1]; rfl) rfl nofun
      refine first.setTask ?_ rfl nofun
      simp only [Sock.setTask, update_apply]
      grind -linarith [SockTask.tested]
  | _ =>
    simp only [Sock.step] at next
    (repeat' split at next) <;> cases next <;> apply inv.setTask <;>
      grind -linarith [SockTask.tested, SockTask.closing]

end Inv

omit [Fintype E] in
theorem start_kin (first : E) (i : Fin 32) : Kin (start first i).task := by
  constructor <;> grind -linarith [start]

theorem sender {event : SockEvent E} (next : s.step event = some s') (sends : s'.sent ≠ s.sent) :
    ∃ e i dup, event = .go e ∧ s.task e = .send i dup := by
  cases event <;> simp only [step, go, share] at next <;> (repeat' split at next) <;> cases next <;>
    simp only [setTask, setMem] at sends <;> grind -linarith

theorem one_close (first : E) (i : Fin 32) (events : List (SockEvent E)) (s : Sock E)
    (run : Run step Apart (start first i) events s) :
    s.sent ≤ 1 ∧ ((∀ e j, s.mem e j = false) → s.sent = 1) ∧
      ∀ event s', s.step event = some s' → s'.sent ≠ s.sent → ∃ e, event = .go e ∧ ∀ f j, f ≠ e →
      s.mem f j = false := by
  have holds : Inv s ∧ Kin s.task := by
    refine run.invariant (motive := fun s => Inv s ∧ Kin s.task) ⟨Inv.start first i, start_kin first i⟩ ?_
    exact fun s event t ⟨inv, kin⟩ apart next => ⟨inv.step kin apart next, kin.step next⟩
  obtain ⟨inv, -⟩ := holds
  refine ⟨?_, fun gone => ?_, fun event s' next sends => ?_⟩
  · obtain ⟨sent, -⟩ | ⟨sent, -⟩ | ⟨sent, -⟩ := inv.phase <;> omega
  · obtain open_ | ⟨sent, -⟩ | ⟨sent, -⟩ := inv.phase
    · obtain ⟨e, j, mapped⟩ := open_.mapped
      exact absurd ((gone e j).symm.trans mapped) nofun
    · exact sent
    · exact sent
  · obtain ⟨e, j, dup, rfl, here⟩ := sender next sends
    refine ⟨e, rfl, fun f k differ => Bool.eq_false_iff.mpr fun mapped => ?_⟩
    obtain open_ | ⟨-, g, l, dup', there, sole⟩ | ⟨-, gone⟩ := inv.phase
    · exact differ (open_.last e j dup here f k mapped).1
    · have same := inv.single e g (by rw [here]; rfl) (by rw [there]; rfl)
      exact differ ((sole f k mapped).1.trans same.symm)
    · exact absurd ((gone f k).symm.trans mapped) nofun

instance (s : Sock E) (event : SockEvent E) : Decidable (s.Apart event) :=
  match event with
  | .go e => decidable_of_iff ((s.task e).testing = true → ∀ f, (s.task f).tested = false)
      ⟨fun apart _ same => SockEvent.go.inj same ▸ apart, fun apart => apart e rfl⟩
  | .close _ _ | .dup _ _ _ | .fork _ _ | .exit _ => .isTrue fun _ => nofun

def forkBoth : List (SockEvent Bool) := .fork false true :: List.replicate 33 (.go false)

def closeInTurn : List (SockEvent Bool) :=
  List.flatten [forkBoth, [.close false 3, .go false, .go false, .close true 3, .go true, .go true,
    .go true]]

theorem one_close_in_turn : ∃ s : Sock Bool, Run step Apart (start false 3) closeInTurn s ∧
    (∀ e j, s.mem e j = false) ∧ s.sent = 1 := by
  refine Run.of_exec_imp (p := fun s => ∀ e j, s.mem e j = false)
    (by decide +kernel) fun s run gone => ?_
  exact ⟨gone, (one_close _ _ _ s run).2.1 gone⟩

def closeTogether : List (SockEvent Bool) :=
  List.flatten [forkBoth, [.close false 3, .close true 3, .go false, .go true, .go false, .go true]]

theorem never_closed : ∃ s : Sock Bool, Run step (fun _ _ => True) (start false 3) closeTogether s ∧
    (∀ e j, s.mem e j = false) ∧ s.sent = 0 :=
  Run.of_exec_any (by decide +kernel)

end Sock

end Jos.Lib
