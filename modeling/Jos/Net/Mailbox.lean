import Jos.Shared.Ring
import Jos.Shared.Run
import Jos.Kern.Env

namespace Jos.Net

open Jos.Kern Jos.Shared
open Function

def mboxslots : Nat := 32

def sysArchTimeout : Word := 0xffffffff
def sysArchNowait : Word := 0xfffffffe

def timeTick (ticks : Word) : Option Word :=
  let ticks := ticks + 1
  if ticks * 10 < ticks then none else some ticks

def timeMsec (ticks : Word) : Word := ticks * 10

inductive SemRound where
  | acquired
  | timeout
  | wait
  deriving DecidableEq

def semRound (counter : BitVec 16) (tmMsec waited : Word) : SemRound :=
  if tmMsec = 0 ∨ waited < tmMsec then
    if 0 < counter then .acquired
    else if tmMsec = sysArchNowait then .timeout
    else .wait
  else .timeout

variable {α : Type}

structure Mbox (α : Type) where
  head : Int
  nextq : Nat
  msg : Nat → α
  queuedMsg : BitVec 16
  freeMsg : BitVec 16

namespace Mbox

-- What `sys_mbox_trypost` does once it has waited; none is `ERR_MEM`.
def post (box : Mbox α) (msg : α) : Option (Mbox α) :=
  if (box.nextq : Int) = box.head then none
  else
    let slot := box.nextq
    some { box with
      nextq := (slot + 1) % mboxslots
      msg := update box.msg slot msg
      head := if box.head = -1 then slot else box.head
      queuedMsg := box.queuedMsg + 1 }

-- What `sys_arch_mbox_fetch` does once it has waited; none is its panic.
def fetch (box : Mbox α) : Option (α × Mbox α) :=
  if box.head = -1 then none
  else
    let slot := box.head.toNat
    let next := (slot + 1) % mboxslots
    some (box.msg slot, { box with
      head := if next = box.nextq then -1 else next
      freeMsg := box.freeMsg + 1 })

def new (msg : Nat → α) : Mbox α := ⟨-1, 0, msg, 0, BitVec.ofNat 16 mboxslots⟩

structure Holds (box : Mbox α) (posted : List α) (fetched : Nat) : Prop where
  ring : RingHolds box.msg mboxslots fetched posted
  behind : fetched ≤ posted.length
  bound : posted.length ≤ fetched + mboxslots
  nextq : box.nextq = posted.length % mboxslots
  head : box.head = if fetched = posted.length then -1 else ((fetched % mboxslots : Nat) : Int)
  queued : box.queuedMsg.toNat = posted.length - fetched
  free : box.freeMsg.toNat = mboxslots - (posted.length - fetched)

theorem new_holds (msg : Nat → α) : (new msg).Holds [] 0 := by
  refine ⟨fun k inside => by simp at inside, Nat.le_refl _, by simp, rfl, by simp [new], rfl, rfl⟩

theorem toNat_succ {c : BitVec 16} (small : c.toNat ≤ mboxslots) : (c + 1).toNat = c.toNat + 1 := by
  have bound : c.toNat ≤ 32 := small
  have one : (1 : BitVec 16).toNat = 1 := rfl
  rw [BitVec.toNat_add, one, Nat.mod_eq_of_lt (by omega)]

theorem toNat_pred {c : BitVec 16} (some : 0 < c) : (c - 1).toNat = c.toNat - 1 := by
  have positive : (1#16).toNat ≤ c.toNat := some
  exact BitVec.toNat_sub_of_le positive

variable {box : Mbox α} {posted : List α} {fetched : Nat}

theorem Holds.post (holds : box.Holds posted fetched) (token : 0 < box.freeMsg) (msg : α) :
    ∃ box', Mbox.post { box with freeMsg := box.freeMsg - 1 } msg = some box' ∧
      box'.Holds (posted ++ [msg]) fetched := by
  obtain ⟨ring, behind, bound, nextq, head, queued, free⟩ := holds
  have room : posted.length < fetched + mboxslots := by
    have positive : 0 < box.freeMsg.toNat := token
    omega
  have apart : ¬(box.nextq : Int) = box.head := by
    rw [nextq, head]
    split
    · omega
    next more =>
      have differ := RingHolds.mod_ne (show fetched < posted.length by omega) room
      omega
  refine ⟨_, if_neg apart, ?_⟩
  constructor
  case ring =>
    simp only [nextq]
    exact ring.push room msg
  case behind =>
    rw [List.length_append, List.length_singleton]
    omega
  case bound =>
    rw [List.length_append, List.length_singleton]
    omega
  case nextq =>
    rw [List.length_append, List.length_singleton]
    simp only [nextq, Nat.mod_add_mod]
  case head =>
    show (if box.head = -1 then (box.nextq : Int) else box.head) = _
    rw [List.length_append, List.length_singleton,
      if_neg (show ¬fetched = posted.length + 1 by omega), nextq]
    by_cases empty : fetched = posted.length
    · rw [head, if_pos empty, if_pos rfl, empty]
    · rw [head, if_neg empty, if_neg (by omega)]
  case queued =>
    rw [List.length_append, List.length_singleton]
    simp only
    rw [toNat_succ (by omega), queued]
    omega
  case free =>
    rw [List.length_append, List.length_singleton]
    simp only
    rw [toNat_pred token, free]
    omega

theorem Holds.fetch (holds : box.Holds posted fetched) (token : 0 < box.queuedMsg) :
    ∃ msg box', Mbox.fetch { box with queuedMsg := box.queuedMsg - 1 } = some (msg, box') ∧
      posted[fetched]? = some msg ∧ box'.Holds posted (fetched + 1) := by
  obtain ⟨ring, behind, bound, nextq, head, queued, free⟩ := holds
  have more : fetched < posted.length := by
    have positive : 0 < box.queuedMsg.toNat := token
    omega
  have here : box.head = ((fetched % mboxslots : Nat) : Int) := by
    rw [head, if_neg (by omega)]
  have some : ¬box.head = -1 := by
    rw [here]
    omega
  have found : box.msg (fetched % mboxslots) = posted[fetched] := ring fetched more (Nat.le_refl _)
  have slot : box.head.toNat = fetched % mboxslots := by
    rw [here]
    rfl
  have result := show Mbox.fetch { box with queuedMsg := box.queuedMsg - 1 } = _ from if_neg some
  dsimp only at result
  rw [slot, found] at result
  refine ⟨posted[fetched], _, result, List.getElem?_eq_getElem more, ?_⟩
  constructor
  case ring => exact ring.drop (Nat.le_succ _)
  case behind => exact more
  case bound => omega
  case nextq => exact nextq
  case head =>
    simp only [nextq, Nat.mod_add_mod]
    -- Less than a round lies between the two, so they agree only if nothing is left.
    by_cases last : fetched + 1 = posted.length
    · rw [last, if_pos rfl, if_pos rfl]
    · have differ := RingHolds.mod_ne (show fetched + 1 < posted.length by omega)
        (show posted.length < fetched + 1 + mboxslots by omega)
      rw [if_neg differ, if_neg last]
  case queued =>
    simp only
    rw [toNat_pred token, queued]
    omega
  case free =>
    simp only
    rw [toNat_succ (by omega), free]
    have enough : posted.length - fetched ≤ mboxslots := by omega
    omega

def queue (box : Mbox α) : List α :=
  (List.range box.queuedMsg.toNat).map fun k => box.msg ((box.head.toNat + k) % mboxslots)

theorem Holds.queue (holds : box.Holds posted fetched) : box.queue = posted.drop fetched := by
  apply List.ext_getElem
  · simp [Mbox.queue, holds.queued]
  · intro k left right
    have inside : fetched + k < posted.length := by
      rw [List.length_drop] at right
      omega
    have slot : box.head.toNat = fetched % mboxslots := by
      rw [holds.head, if_neg (by omega)]
      rfl
    simp only [Mbox.queue, List.getElem_map, List.getElem_range, List.getElem_drop, slot, Nat.mod_add_mod]
    exact holds.ring (fetched + k) inside (Nat.le_add_right _ _)

end Mbox

/-- What a thread asks of the mailbox. `sys_mbox_post` is `sys_mbox_trypost` with an assertion on
its result, and `sys_arch_mbox_tryfetch` is a fetch with the timeout `SYS_ARCH_NOWAIT`. -/
inductive MboxOp (α : Type) where
  | post (msg : α)
  | fetch (tmMsec : Word)

inductive MboxThread (α : Type) where
  | idle
  | testing (op : MboxOp α) (waited : Word)
  | waiting (op : MboxOp α) (waited a : Word)

/-- A mailbox and the threads that use it. The lists and the flag are not part of the machine: they
record the messages posted and fetched, and whether `ERR_MEM` was returned or a fetch panicked. -/
structure Mailing (α : Type) where
  box : Mbox α
  ticks : Word
  threads : Nat → MboxThread α
  posted : List α
  fetched : List α
  failed : Bool

inductive MailingEvent (α : Type) where
  | start (tid : Nat) (op : MboxOp α)
  | test (tid : Nat)
  | wake (tid : Nat)
  | tick

namespace Mailing

def setThread (s : Mailing α) (tid : Nat) (thread : MboxThread α) : Mailing α :=
  { s with threads := update s.threads tid thread }

def finishPost (s : Mailing α) (box : Mbox α) (msg : α) : Mailing α :=
  match box.post msg with
  | some box => { s with box := box, posted := s.posted ++ [msg] }
  | none => { s with box := box, failed := true }

def finishFetch (s : Mailing α) (box : Mbox α) : Mailing α :=
  match box.fetch with
  | some (msg, box) => { s with box := box, fetched := s.fetched ++ [msg] }
  | none => { s with box := box, failed := true }

def test (s : Mailing α) (tid : Nat) (waited : Word) : MboxOp α → Mailing α
  | .post msg =>
    match semRound s.box.freeMsg 0 waited with
    | .wait => s.setThread tid (.waiting (.post msg) waited (timeMsec s.ticks))
    | .acquired => (s.setThread tid .idle).finishPost { s.box with freeMsg := s.box.freeMsg - 1 } msg
    -- `sys_mbox_trypost` does not look at the result.
    | .timeout => (s.setThread tid .idle).finishPost s.box msg
  | .fetch tmMsec =>
    match semRound s.box.queuedMsg tmMsec waited with
    | .wait => s.setThread tid (.waiting (.fetch tmMsec) waited (timeMsec s.ticks))
    | .timeout => s.setThread tid .idle
    | .acquired =>
      let box := { s.box with queuedMsg := s.box.queuedMsg - 1 }
      if waited = sysArchTimeout then { s.setThread tid .idle with box := box }
      else (s.setThread tid .idle).finishFetch box

-- Threads are switched while they wait, and `thread_wait` may return at any time; a thread may also
-- be switched between two rounds, which the code does not do.
def step (s : Mailing α) : MailingEvent α → Option (Mailing α)
  | .start tid op =>
    match s.threads tid with
    | .idle => some (s.setThread tid (.testing op 0))
    | _ => none
  | .test tid =>
    match s.threads tid with
    | .testing op waited => some (s.test tid waited op)
    | _ => none
  | .wake tid =>
    match s.threads tid with
    | .waiting op waited a => some (s.setThread tid (.testing op (waited + (timeMsec s.ticks - a))))
    | _ => none
  | .tick => (timeTick s.ticks).map fun ticks => { s with ticks := ticks }

structure Started (s : Mailing α) : Prop where
  box : ∃ msg, s.box = .new msg
  ticks : s.ticks = 0
  idle : ∀ tid, s.threads tid = .idle
  posted : s.posted = []
  fetched : s.fetched = []
  failed : s.failed = false

structure Fifo (s : Mailing α) : Prop where
  order : s.posted = s.fetched ++ s.box.queue
  bound : s.box.queue.length ≤ mboxslots
  head : s.box.head = -1 ↔ s.box.queue = []
  succeeds : s.failed = false

def Elapsed (waited now : Word) : Prop := waited.toNat % 10 = 0 ∧ waited.toNat ≤ now.toNat

def MboxThread.Timed (now : Word) : MboxThread α → Prop
  | .idle => True
  | .testing _ waited => Elapsed waited now
  | .waiting _ waited a => Elapsed waited a ∧ Elapsed a now

structure Sound (s : Mailing α) : Prop where
  holds : s.box.Holds s.posted s.fetched.length
  order : s.fetched = s.posted.take s.fetched.length
  succeeds : s.failed = false
  clock : s.ticks.toNat * 10 < 2 ^ 32
  timed : ∀ tid, MboxThread.Timed (timeMsec s.ticks) (s.threads tid)

variable {s t : Mailing α}

theorem Sound.fifo (sound : s.Sound) : s.Fifo := by
  have queue := sound.holds.queue
  have bound := sound.holds.bound
  have behind := sound.holds.behind
  refine ⟨?_, ?_, ?_, sound.succeeds⟩
  · rw [queue]
    conv_lhs => rw [← List.take_append_drop s.fetched.length s.posted, ← sound.order]
  · rw [queue, List.length_drop]
    omega
  · rw [queue, List.drop_eq_nil_iff, sound.holds.head]
    split <;> omega

theorem toNat_timeMsec {ticks : Word} (clock : ticks.toNat * 10 < 2 ^ 32) :
    (timeMsec ticks).toNat = ticks.toNat * 10 := by
  have ten : (10 : Word).toNat = 10 := rfl
  rw [timeMsec, BitVec.toNat_mul, ten, Nat.mod_eq_of_lt clock]

theorem timeTick_clock {ticks ticks' : Word} (clock : ticks.toNat * 10 < 2 ^ 32)
    (next : timeTick ticks = some ticks') : ticks'.toNat = ticks.toNat + 1 ∧
    ticks'.toNat * 10 < 2 ^ 32 := by
  have one : (1 : Word).toNat = 1 := rfl
  have ten : (10 : Word).toNat = 10 := rfl
  obtain ⟨late, same⟩ := Option.ite_none_left_eq_some.mp next
  cases same
  have next : (ticks + 1).toNat = ticks.toNat + 1 := by
    rw [BitVec.toNat_add, one, Nat.mod_eq_of_lt (by omega)]
  rw [BitVec.not_lt, BitVec.le_def, BitVec.toNat_mul, next, ten] at late
  refine ⟨next, ?_⟩
  rw [next]
  by_contra round
  rw [Nat.mod_eq_sub_mod (by omega), Nat.mod_eq_of_lt (by omega)] at late
  omega

theorem Elapsed.mono {waited now later : Word} (elapsed : Elapsed waited now)
    (le : now.toNat ≤ later.toNat) : Elapsed waited later := ⟨elapsed.1, elapsed.2.trans le⟩

theorem elapsed_now {ticks : Word} (clock : ticks.toNat * 10 < 2 ^ 32) :
    Elapsed (timeMsec ticks) (timeMsec ticks) := by
  refine ⟨?_, Nat.le_refl _⟩
  rw [toNat_timeMsec clock]
  omega

theorem Elapsed.add {waited a now : Word} (before : Elapsed waited a) (since : Elapsed a now)
    (time : now.toNat % 10 = 0) : Elapsed (waited + (now - a)) now := by
  obtain ⟨tens, le⟩ := before
  obtain ⟨tens', le'⟩ := since
  have value : (waited + (now - a)).toNat = waited.toNat + (now.toNat - a.toNat) := by
    have bound := now.isLt
    rw [BitVec.toNat_add, BitVec.toNat_sub_of_le le', Nat.mod_eq_of_lt (by omega)]
  rw [Elapsed, value]
  omega

theorem Elapsed.ne_timeout {waited now : Word} (elapsed : Elapsed waited now) :
    waited ≠ sysArchTimeout := by
  rintro rfl
  exact absurd elapsed.1 (by decide)

namespace Sound

theorem setThread (sound : s.Sound) (tid : Nat) {thread : MboxThread α}
    (timed : MboxThread.Timed (timeMsec s.ticks) thread) : (s.setThread tid thread).Sound := by
  refine ⟨sound.holds, sound.order, sound.succeeds, sound.clock, fun tid' => ?_⟩
  show MboxThread.Timed (timeMsec s.ticks) (update s.threads tid thread tid')
  by_cases same : tid' = tid
  · rw [same, update_self]
    exact timed
  · rw [update_of_ne same]
    exact sound.timed tid'

theorem finishPost (sound : s.Sound) (token : 0 < s.box.freeMsg) (msg : α) :
    (s.finishPost { s.box with freeMsg := s.box.freeMsg - 1 } msg).Sound := by
  obtain ⟨box, posted, holds⟩ := sound.holds.post token msg
  rw [Mailing.finishPost, posted]
  refine ⟨holds, ?_, sound.succeeds, sound.clock, sound.timed⟩
  show s.fetched = (s.posted ++ [msg]).take s.fetched.length
  rw [List.take_append_of_le_length sound.holds.behind]
  exact sound.order

theorem finishFetch (sound : s.Sound) (token : 0 < s.box.queuedMsg) :
    (s.finishFetch { s.box with queuedMsg := s.box.queuedMsg - 1 }).Sound := by
  obtain ⟨msg, box, taken, due, holds⟩ := sound.holds.fetch token
  rw [Mailing.finishFetch, taken]
  have size : (s.fetched ++ [msg]).length = s.fetched.length + 1 := by simp
  refine ⟨by rw [size]; exact holds, ?_, sound.succeeds, sound.clock, sound.timed⟩
  show s.fetched ++ [msg] = s.posted.take (s.fetched ++ [msg]).length
  rw [size, List.take_add_one, due, ← sound.order]
  rfl

theorem test (sound : s.Sound) {tid : Nat} {waited : Word} {op : MboxOp α}
    (elapsed : Elapsed waited (timeMsec s.ticks)) : (s.test tid waited op).Sound := by
  have idle : (s.setThread tid .idle).Sound := sound.setThread tid trivial
  have waits : ∀ op, (s.setThread tid (.waiting op waited (timeMsec s.ticks))).Sound := fun op =>
    sound.setThread tid ⟨elapsed, elapsed_now sound.clock⟩
  cases op with
  | post msg =>
    unfold Mailing.test semRound
    rw [if_pos (.inl rfl)]
    by_cases token : 0 < s.box.freeMsg
    · rw [if_pos token]
      exact idle.finishPost token msg
    · rw [if_neg token, if_neg (by decide)]
      exact waits _
  | fetch tmMsec =>
    simp only [Mailing.test]
    cases round : semRound s.box.queuedMsg tmMsec waited with
    | wait => exact waits _
    | timeout => exact idle
    | acquired =>
      have token : 0 < s.box.queuedMsg := by
        by_contra none
        simp only [semRound, none, if_false] at round
        split at round <;> try split at round
        all_goals cases round
      simp only [if_neg elapsed.ne_timeout]
      exact idle.finishFetch token

end Sound

theorem step_sound {e : MailingEvent α} (sound : s.Sound) (next : s.step e = some t) : t.Sound := by
  cases e with
  | start tid op =>
    simp only [step] at next
    split at next
    · cases next
      exact sound.setThread tid ⟨rfl, Nat.zero_le _⟩
    · cases next
  | test tid =>
    simp only [step] at next
    split at next
    next op waited running =>
      cases next
      have timed := sound.timed tid
      rw [running] at timed
      exact sound.test timed
    · cases next
  | wake tid =>
    simp only [step] at next
    split at next
    next op waited a asleep =>
      cases next
      have timed := sound.timed tid
      rw [asleep] at timed
      exact sound.setThread tid (timed.1.add timed.2 (elapsed_now sound.clock).1)
    · cases next
  | tick =>
    obtain ⟨ticks, ticked, rfl⟩ := Option.map_eq_some_iff.mp next
    obtain ⟨later, clock⟩ := timeTick_clock sound.clock ticked
    have le : (timeMsec s.ticks).toNat ≤ (timeMsec ticks).toNat := by
      rw [toNat_timeMsec sound.clock, toNat_timeMsec clock, later]
      omega
    refine ⟨sound.holds, sound.order, sound.succeeds, clock, fun tid => ?_⟩
    have timed := sound.timed tid
    show MboxThread.Timed (timeMsec ticks) (s.threads tid)
    cases thread : s.threads tid with
    | idle => trivial
    | testing op waited =>
      rw [thread] at timed
      exact Elapsed.mono timed le
    | waiting op waited a =>
      rw [thread] at timed
      exact ⟨timed.1, timed.2.mono le⟩

theorem Started.sound (started : s.Started) : s.Sound := by
  obtain ⟨msg, new⟩ := started.box
  refine ⟨?_, by simp [started.fetched], started.failed, by simp [started.ticks], fun tid => ?_⟩
  · rw [new, started.posted, started.fetched]
    exact Mbox.new_holds msg
  · rw [started.idle tid]
    trivial

theorem mailbox_fifo {es : List (MailingEvent α)} (started : s.Started)
    (run : Run step (fun _ _ => True) s es t) : t.Fifo := by
  have sound : t.Sound := run.invariant started.sound fun _ _ _ sound _ next => step_sound sound next
  exact sound.fifo

def exchange : List (MailingEvent Nat) :=
  [.start 0 (.fetch 0), .test 0, .start 1 (.post 7), .test 1, .tick, .wake 0, .start 1 (.post 8),
    .test 1, .test 0]

theorem mailbox_fifo_exchange : ∃ t, Run step (fun _ _ => True)
      ⟨.new fun _ => 0, 0, fun _ => .idle, [], [], false⟩ exchange t ∧
    t.Fifo ∧ t.fetched = [7] ∧ t.box.queue = [8] := by
  refine Run.of_exec_imp (p := fun t => t.fetched = [7] ∧ t.box.queue = [8]) (by decide +kernel) ?_
  rintro t run ⟨fetched, queue⟩
  exact ⟨mailbox_fifo ⟨⟨_, rfl⟩, rfl, fun _ => rfl, rfl, rfl, rfl⟩ run, fetched, queue⟩

end Mailing

end Jos.Net
