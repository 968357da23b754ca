import Jos.Net.Loops
import Jos.Net.TransmitRing

namespace Jos.Net

open Jos.Kern Jos.Shared
open Function

structure JifPkt where
  jpLen : Word
  jpData : List Byte
  deriving DecidableEq

def jpDataOff : Word := 8

/-- The output environment, the part of the network server that feeds it, and the card. Pages are
named by their number; `foreign` tells those that came from another environment, which may still
write them. `passed` is not part of the machine: it records the packet behind each descriptor when
`sys_try_transmit` was called on it. -/
structure Outgoing where
  nsEnvid : Word
  nic : Nic
  tdh : Fin 64
  content : Nat → JifPkt
  nsipcbuf : Nat → Option Nat
  loop : OutputLoop
  pktmap : Option Nat
  sent : Bool
  foreign : Nat → Bool
  passed : Fin 64 → JifPkt

inductive OutgoingEvent where
  | nsAlloc (p : Nat) (pkt : JifPkt)
  | nsSend
  | nsUnmap
  | stray (whom req : Word) (page : Option Nat)
  | output (msec : Word)
  | card
  | others (p : Nat) (pkt : JifPkt)

namespace Outgoing

def page (s : Outgoing) (i : Fin 64) : Nat := pgnum (s.nic.txDescPool i).addr

def Mapped (s : Outgoing) (p : Nat) : Prop := ∃ k < 64, s.nsipcbuf k = some p

instance (s : Outgoing) (p : Nat) : Decidable (s.Mapped p) :=
  inferInstanceAs (Decidable (∃ k < 64, _ = _))

def mapSlot (s : Outgoing) (p : Nat) : Outgoing :=
  { s with nsipcbuf := update s.nsipcbuf (slotOf s.loop.tailIndex) (some p) }

def tryTransmit (s : Outgoing) (p : Nat) : Outgoing :=
  let pkt := s.content p
  let len := pkt.jpLen.setWidth 16
  if s.nic.tail.done = false then
    { s with loop := s.loop.transmitted Errno.txPoolFull.code }
  else if Kernel.txPacketSize < len then
    { s with loop := s.loop.transmitted Errno.inval.code }
  else
    let nic := s.nic.enqueue ⟨page2pa p + jpDataOff, len⟩
    { s with
      nic := nic
      loop := s.loop.transmitted nic.tailIndex
      passed := update s.passed s.nic.tdt pkt }

-- It is the kernel's call, made by an environment that has the page behind `data`.
theorem tryTransmit_kernel {s : Outgoing} {k : Kernel} {cur : Slot} {data : Word} {p : Nat}
    (same : k.nic = s.nic) (mapped : k.txAddr cur data = .ok (page2pa p + jpDataOff)) :
    ∃ k' r, k.e1000Transmit cur data ((s.content p).jpLen.setWidth 16) = .ok (k', r) ∧
      (s.tryTransmit p).nic = k'.nic ∧ (s.tryTransmit p).loop = s.loop.transmitted r := by
  unfold tryTransmit
  dsimp only
  split
  next full =>
    refine ⟨k, Errno.txPoolFull.code, ?_, same.symm, rfl⟩
    rw [← same] at full
    exact if_pos full
  next room =>
    rw [← same] at room
    split
    next large =>
      refine ⟨k, Errno.inval.code, ?_, same.symm, rfl⟩
      exact (if_neg room).trans (if_pos large)
    next fits =>
      have done : k.nic.tail.done = true := Bool.not_eq_false _ ▸ room
      have accepted : k.e1000Transmit cur data _ = _ :=
        Kernel.e1000Transmit_accept done (BitVec.not_lt.mp fits)
      rw [mapped, same] at accepted
      exact ⟨_, _, accepted, rfl, rfl⟩

-- Sleeping is a delay: `output` may go on after it at any time.
def outputStep (s : Outgoing) (msec : Word) : Option Outgoing :=
  match s.loop.pc with
  | .mark | .markFull => some { s with loop := s.loop.marked }
  | .yieldTop | .yieldFull => some { s with loop := s.loop.yielded }
  | .time => some { s with loop := s.loop.timed msec }
  | .transmit => (s.nsipcbuf (slotOf s.loop.tailIndex)).map s.tryTransmit
  | .recv => none

-- `low_level_output` allocates a page and copies a packet of at most 2000 bytes into it, sends it
-- and unmaps it. A page that nobody has mapped may be used by anyone.
def step (s : Outgoing) : OutgoingEvent → Option Outgoing
  | .nsAlloc p pkt =>
    if s.pktmap = none ∧ p < 2 ^ 20 ∧ ¬s.Mapped p ∧ pkt.jpLen ≤ 2000 then
      some { s with
        content := update s.content p pkt
        pktmap := some p
        sent := false
        foreign := update s.foreign p false }
    else none
  | .nsSend =>
    match s.pktmap with
    | none => none
    | some p =>
      if s.sent = false ∧ s.loop.pc = .recv then
        some { s.mapSlot p with sent := true, loop := s.loop.received s.nsEnvid s.nsEnvid nsreqOutput }
      else none
  | .nsUnmap => if s.sent then some { s with pktmap := none, sent := false } else none
  | .stray whom req page =>
    if s.loop.pc = .recv ∧ ¬(whom = s.nsEnvid ∧ req = nsreqOutput) then
      let loop := s.loop.received s.nsEnvid whom req
      match page with
      | none => some { s with loop := loop }
      | some p =>
        if p < 2 ^ 20 ∧ ¬s.Mapped p ∧ s.pktmap ≠ some p then
          some { s.mapSlot p with loop := loop, foreign := update s.foreign p true }
        else none
    else none
  | .output msec => s.outputStep msec
  | .card =>
    if s.tdh = s.nic.tdt then none else
      let desc := { s.nic.txDescPool s.tdh with done := true }
      some { s with
        nic := { s.nic with txDescPool := update s.nic.txDescPool s.tdh desc }
        tdh := s.tdh + 1 }
  | .others p pkt =>
    if (s.Mapped p → s.foreign p = true) ∧ s.pktmap ≠ some p then
      some { s with content := update s.content p pkt }
    else none

def Kept (s : Outgoing) : Prop :=
  ∀ i, (s.nic.txDescPool i).done = false → s.Mapped (s.page i) ∧ s.content (s.page i) = s.passed i

def Spared (s : Outgoing) : OutgoingEvent → Prop
  | .nsSend | .stray _ _ (some _) =>
    ∀ i, (s.nic.txDescPool i).done = false → s.nsipcbuf 0 ≠ some (s.page i)
  | _ => True

def Private (s : Outgoing) (p : Nat) : Prop :=
  s.foreign p = false ∧ ∀ k < 64, s.nsipcbuf k = some p → k = 0

def Busy (loop : OutputLoop) : Prop := loop.pc ≠ .mark ∧ loop.pc ≠ .yieldTop

def Sending (loop : OutputLoop) : Prop := Busy loop ∧ loop.pc ≠ .recv

structure Sound (s : Outgoing) : Prop where
  small : ∀ k < 64, ∀ p, s.nsipcbuf k = some p → p < 2 ^ 20
  slot : Busy s.loop → slotOf s.loop.tailIndex = 0
  sending : Sending s.loop → ∃ p, s.nsipcbuf 0 = some p ∧ s.Private p
  pending : ∀ i, (s.nic.txDescPool i).done = false → s.nsipcbuf 0 = some (s.page i) ∧
    s.Private (s.page i) ∧ s.content (s.page i) = s.passed i
  server : ∀ p, s.pktmap = some p → p < 2 ^ 20 ∧ s.foreign p = false ∧ (s.sent = false → ¬s.Mapped p)

theorem slotOf_again (r : Word) (busy : Busy (.again r)) : slotOf (OutputLoop.again r).tailIndex = 0 := by
  unfold OutputLoop.again at busy ⊢
  split
  next clear =>
    rw [if_pos clear] at busy
    exact absurd rfl busy.1
  · exact slotOf_clearFlag r

theorem not_sending_again (r : Word) : ¬Sending (.again r) := by
  unfold OutputLoop.again
  split
  · exact fun sending => sending.1.1 rfl
  · exact fun sending => sending.2 rfl

theorem pgnum_jpData {p : Nat} (small : p < 2 ^ 20) : pgnum (page2pa p + jpDataOff) = p := by
  have shifted : (page2pa p).toNat = p * 4096 := by
    simp only [page2pa, BitVec.toNat_shiftLeft, BitVec.toNat_ofNat, Nat.shiftLeft_eq]
    omega
  have offset : jpDataOff.toNat = 8 := rfl
  simp only [pgnum, BitVec.toNat_ushiftRight, BitVec.toNat_add, shifted, offset,
    Nat.shiftRight_eq_div_pow]
  omega

variable {s t : Outgoing}

namespace Sound

theorem kept (sound : s.Sound) : s.Kept := by
  intro i undone
  obtain ⟨mapped, -, same⟩ := sound.pending i undone
  exact ⟨⟨0, by decide, mapped⟩, same⟩

theorem moves (sound : s.Sound) {loop : OutputLoop} (slot : Busy loop → slotOf loop.tailIndex = 0)
    (sending : Sending loop → Sending s.loop) : Sound { s with loop := loop } :=
  ⟨sound.small, slot, fun now => sound.sending (sending now), sound.pending, sound.server⟩

theorem again (sound : s.Sound) (r : Word) : Sound { s with loop := .again r } :=
  sound.moves (slotOf_again r) fun now => absurd now (not_sending_again r)

theorem tryTransmit (sound : s.Sound) {p : Nat} (sending : Sending s.loop)
    (here : s.nsipcbuf 0 = some p) : (s.tryTransmit p).Sound := by
  obtain ⟨p', there, priv⟩ := sound.sending sending
  obtain rfl : p = p' := Option.some.inj (here.symm.trans there)
  unfold Outgoing.tryTransmit
  dsimp only
  split
  · exact sound.moves (fun _ => sound.slot sending.1) fun _ => sending
  · split
    · rw [OutputLoop.transmitted, if_pos (.inr rfl)]
      exact sound.again _
    · -- The packet goes into the descriptor at the tail; the others keep theirs.
      rw [OutputLoop.transmitted, if_pos (.inl (Nic.msb_tailIndex _))]
      refine ⟨sound.small, slotOf_again _, fun now => absurd now (not_sending_again _),
        fun i undone => ?_, sound.server⟩
      by_cases tail : i = s.nic.tdt
      · have page : pgnum (page2pa p + jpDataOff) = p := pgnum_jpData (sound.small 0 (by decide) p here)
        subst tail
        simp only [Outgoing.page, Nic.enqueue, update_self, page, and_true]
        exact ⟨here, priv⟩
      · simp only [Nic.enqueue, update_of_ne tail] at undone
        simp only [Outgoing.page, Nic.enqueue, update_of_ne tail]
        exact sound.pending i undone

theorem outputStep (sound : s.Sound) {msec : Word} (next : s.outputStep msec = some t) : t.Sound := by
  unfold Outgoing.outputStep at next
  -- The two places where the loop sleeps differ in what it does next.
  have full : ∀ pc, Sending s.loop → Sound
    { s with loop := { s.loop with pc := pc } } := fun pc sending =>
    sound.moves (fun _ => sound.slot sending.1) fun _ => sending
  cases pc : s.loop.pc with
  | mark =>
    simp only [pc, OutputLoop.marked, if_true, Option.some.injEq] at next
    subst next
    exact sound.moves (fun busy => absurd rfl busy.2) fun sending => absurd rfl sending.1.2
  | yieldTop =>
    simp only [pc, OutputLoop.yielded, if_true, Option.some.injEq] at next
    subst next
    exact sound.moves (fun _ => slotOf_clearFlag _) fun sending => absurd rfl sending.2
  | markFull =>
    simp only [pc, OutputLoop.marked, Option.some.injEq] at next
    subst next
    exact full _ (by simp [Sending, Busy, pc])
  | yieldFull =>
    simp only [pc, OutputLoop.yielded, Option.some.injEq, reduceCtorEq, if_false] at next
    subst next
    exact full _ (by simp [Sending, Busy, pc])
  | time =>
    simp only [pc, OutputLoop.timed, Option.some.injEq] at next
    subst next
    exact full _ (by simp [Sending, Busy, pc])
  | transmit =>
    have sending : Sending s.loop := by simp [Sending, Busy, pc]
    simp only [pc, sound.slot sending.1] at next
    obtain ⟨p, here, rfl⟩ := Option.map_eq_some_iff.mp next
    exact sound.tryTransmit sending here
  | recv => simp [pc] at next

theorem slot_zero (sound : s.Sound) (idle : s.loop.pc = .recv) (p : Nat) :
    (s.mapSlot p).nsipcbuf = update s.nsipcbuf 0 (some p) := by
  have slot : slotOf s.loop.tailIndex = 0 := sound.slot (by simp [Busy, idle])
  rw [Outgoing.mapSlot, slot]

theorem mapSlot (sound : s.Sound) (idle : s.loop.pc = .recv) {p : Nat} (small : p < 2 ^ 20)
    (fresh : ¬s.Mapped p) : (s.mapSlot p).nsipcbuf 0 = some p ∧
    (∀ k < 64, (s.mapSlot p).nsipcbuf k = some p → k = 0) ∧
      ∀ k < 64, ∀ q, (s.mapSlot p).nsipcbuf k = some q → q < 2 ^ 20 := by
  rw [sound.slot_zero idle]
  refine ⟨update_self .., fun k bound there => ?_, fun k bound q there => ?_⟩
  · by_contra other
    rw [update_of_ne other] at there
    exact fresh ⟨k, bound, there⟩
  · by_cases here : k = 0
    · subst here
      rw [update_self] at there
      exact Option.some.inj there ▸ small
    · rw [update_of_ne here] at there
      exact sound.small k bound q there

theorem none_pending (sound : s.Sound)
    (spared : ∀ i, (s.nic.txDescPool i).done = false → s.nsipcbuf 0 ≠ some (s.page i)) (i : Fin 64) :
    (s.nic.txDescPool i).done ≠ false :=
  fun undone => spared i undone (sound.pending i undone).1

theorem apart {p : Nat} (loose : s.Mapped p → s.foreign p = true) {q : Nat}
    (here : s.nsipcbuf 0 = some q) (priv : s.Private q) : q ≠ p := by
  rintro rfl
  have foreign := loose ⟨0, by decide, here⟩
  rw [priv.1] at foreign
  cases foreign

theorem alloc (sound : s.Sound) {p : Nat} (small : p < 2 ^ 20) (unmapped : ¬s.Mapped p) (pkt : JifPkt) :
    Sound { s with
      content := update s.content p pkt
      pktmap := some p
      sent := false
      foreign := update s.foreign p false } := by
  have priv : ∀ q, s.Private q → update s.foreign p false q = false ∧
    ∀ k < 64, s.nsipcbuf k = some q → k = 0 := by
    intro q priv
    by_cases same : q = p
    · exact ⟨by rw [same, update_self], priv.2⟩
    · exact ⟨by rw [update_of_ne same, priv.1], priv.2⟩
  refine ⟨sound.small, sound.slot, fun now => ?_, fun i undone => ?_, fun q given => ?_⟩
  · obtain ⟨q, here, alone⟩ := sound.sending now
    exact ⟨q, here, priv q alone⟩
  · obtain ⟨here, alone, same⟩ := sound.pending i undone
    have other := apart (fun mapped => absurd mapped unmapped) here alone
    exact ⟨here, priv _ alone, by rw [← same]; exact update_of_ne other ..⟩
  · cases given
    exact ⟨small, update_self .., fun _ => unmapped⟩

theorem send (sound : s.Sound) {p : Nat} (given : s.pktmap = some p) (unsent : s.sent = false)
    (idle : s.loop.pc = .recv)
    (spared : ∀ i, (s.nic.txDescPool i).done = false → s.nsipcbuf 0 ≠ some (s.page i)) :
    Sound { s.mapSlot p with sent := true, loop := s.loop.received s.nsEnvid s.nsEnvid nsreqOutput }
    := by
  obtain ⟨small, own, fresh⟩ := sound.server p given
  obtain ⟨here, only, bound⟩ := sound.mapSlot idle small (fresh unsent)
  refine ⟨bound, fun _ => ?_, fun _ => ⟨p, here, own, only⟩, fun i undone => ?_, fun q now => ?_⟩
  · have slot := sound.slot (by simp [Busy, idle])
    simpa [OutputLoop.received] using slot
  · exact absurd undone (sound.none_pending spared i)
  · cases given.symm.trans now
    exact ⟨small, own, nofun⟩

theorem stray (sound : s.Sound) {p : Nat} (idle : s.loop.pc = .recv) (small : p < 2 ^ 20)
    (fresh : ¬s.Mapped p) (other : s.pktmap ≠ some p)
    (spared : ∀ i, (s.nic.txDescPool i).done = false → s.nsipcbuf 0 ≠ some (s.page i)) (r : Word) :
    Sound { s.mapSlot p with loop := .again r, foreign := update s.foreign p true } := by
  obtain ⟨here, only, bound⟩ := sound.mapSlot idle small fresh
  refine ⟨bound, slotOf_again r, fun now => absurd now (not_sending_again r), fun i undone => ?_,
    fun q now => ?_⟩
  · exact absurd undone (sound.none_pending spared i)
  · obtain ⟨low, own, unsent⟩ := sound.server q now
    have differ : q ≠ p := fun same => other (same ▸ now)
    refine ⟨low, by rw [← own]; exact update_of_ne differ .., fun still mapped => unsent still ?_⟩
    obtain ⟨k, inside, there⟩ := mapped
    refine ⟨k, inside, ?_⟩
    by_cases first : k = slotOf s.loop.tailIndex
    · subst first
      simp only [Outgoing.mapSlot, update_self, Option.some.injEq] at there
      exact absurd there.symm differ
    · simpa only [Outgoing.mapSlot, update_of_ne first] using there

theorem card (sound : s.Sound) (i tdh : Fin 64) {desc : TxDesc} (done : desc.done = true) :
    Sound { s with
      nic := { s.nic with txDescPool := update s.nic.txDescPool i desc }
      tdh := tdh } := by
  refine ⟨sound.small, sound.slot, sound.sending, fun j undone => ?_, sound.server⟩
  by_cases same : j = i
  · simp [same, done] at undone
  · simp only [update_of_ne same] at undone
    simp only [Outgoing.page, update_of_ne same]
    exact sound.pending j undone

theorem others (sound : s.Sound) {p : Nat} (loose : s.Mapped p → s.foreign p = true) (pkt : JifPkt) :
    Sound { s with content := update s.content p pkt } := by
  refine ⟨sound.small, sound.slot, sound.sending, fun i undone => ?_, sound.server⟩
  obtain ⟨here, alone, same⟩ := sound.pending i undone
  exact ⟨here, alone, by rw [← same]; exact update_of_ne (apart loose here alone) ..⟩

end Sound

theorem step_sound {e : OutgoingEvent} (sound : s.Sound) (spared : s.Spared e)
    (next : s.step e = some t) : t.Sound := by
  cases e with
  | nsAlloc p pkt =>
    obtain ⟨⟨-, small, unmapped, -⟩, same⟩ := Option.ite_none_right_eq_some.mp next
    cases same
    exact sound.alloc small unmapped pkt
  | nsSend =>
    cases given : s.pktmap with
    | none => simp [step, given] at next
    | some p =>
      simp only [step, given] at next
      obtain ⟨⟨unsent, idle⟩, same⟩ := Option.ite_none_right_eq_some.mp next
      cases same
      exact sound.send given unsent idle spared
  | nsUnmap =>
    obtain ⟨-, same⟩ := Option.ite_none_right_eq_some.mp next
    cases same
    exact ⟨sound.small, sound.slot, sound.sending, sound.pending, nofun⟩
  | stray whom req page =>
    obtain ⟨⟨idle, strange⟩, taken⟩ := Option.ite_none_right_eq_some.mp next
    have ignored : s.loop.received s.nsEnvid whom req = .again s.loop.tailIndex := by
      unfold OutputLoop.received
      split
      · rfl
      next known => rw [if_pos fun asked => strange ⟨not_not.mp known, asked⟩]
    rw [ignored] at taken
    cases page with
    | none =>
      cases taken
      exact sound.again _
    | some p =>
      obtain ⟨⟨small, fresh, other⟩, same⟩ := Option.ite_none_right_eq_some.mp taken
      cases same
      exact sound.stray idle small fresh other spared _
  | output msec => exact sound.outputStep next
  | card =>
    obtain ⟨-, same⟩ := Option.ite_none_left_eq_some.mp next
    cases same
    exact sound.card s.tdh _ rfl
  | others p pkt =>
    obtain ⟨⟨loose, -⟩, same⟩ := Option.ite_none_right_eq_some.mp next
    cases same
    exact sound.others loose pkt

theorem Sound.lost (sound : s.Sound) (idle : s.loop.pc = .recv) {p : Nat} (fresh : ¬s.Mapped p)
    (kept : t.Kept) (nic : t.nic = s.nic) (now : t.nsipcbuf = (s.mapSlot p).nsipcbuf) (i : Fin 64)
    (undone : (s.nic.txDescPool i).done = false) : s.nsipcbuf 0 ≠ some (s.page i) := by
  intro here
  obtain ⟨-, ⟨-, only⟩, -⟩ := sound.pending i undone
  obtain ⟨⟨k, inside, there⟩, -⟩ := kept i (by rw [nic, undone])
  rw [now, sound.slot_zero idle, Outgoing.page, nic, ← Outgoing.page] at there
  by_cases first : k = 0
  · rw [first, update_self] at there
    exact fresh ⟨0, by decide, there ▸ here⟩
  · rw [update_of_ne first] at there
    exact first (only k inside there)

theorem kept_iff_spared {e : OutgoingEvent} (sound : s.Sound) (next : s.step e = some t) : t.Kept ↔
    s.Spared e := by
  refine ⟨fun kept => ?_, fun spared => (step_sound sound spared next).kept⟩
  cases e with
  | nsSend =>
    cases given : s.pktmap with
    | none => simp [step, given] at next
    | some p =>
      simp only [step, given] at next
      obtain ⟨⟨unsent, idle⟩, same⟩ := Option.ite_none_right_eq_some.mp next
      cases same
      exact sound.lost idle ((sound.server p given).2.2 unsent) kept rfl rfl
  | stray whom req page =>
    cases page with
    | none => trivial
    | some p =>
      obtain ⟨⟨idle, -⟩, taken⟩ := Option.ite_none_right_eq_some.mp next
      obtain ⟨⟨-, fresh, -⟩, same⟩ := Option.ite_none_right_eq_some.mp taken
      cases same
      exact sound.lost idle fresh kept rfl rfl
  | nsAlloc | nsUnmap | output | card | others => trivial

structure Started (s : Outgoing) : Prop where
  done : ∀ i, (s.nic.txDescPool i).done = true
  loop : s.loop = .start
  pktmap : s.pktmap = none
  small : ∀ k < 64, ∀ p, s.nsipcbuf k = some p → p < 2 ^ 20

theorem Started.sound (started : s.Started) : s.Sound where
  small := started.small
  slot _ := by
    rw [started.loop]
    decide
  sending now := by
    rw [started.loop] at now
    exact absurd now (not_sending_again _)
  pending i undone := by simp [started.done] at undone
  server p given := by simp [started.pktmap] at given

theorem pages_stay {es : List OutgoingEvent} (started : s.Started) (run : Run step Spared s es t) :
    t.Kept ∧ ∀ e u, t.step e = some u → (u.Kept ↔ t.Spared e) := by
  have sound : t.Sound := run.invariant started.sound fun _ _ _ => step_sound
  exact ⟨sound.kept, fun e u next => kept_iff_spared sound next⟩

section Demo

instance (s : Outgoing) (e : OutgoingEvent) : Decidable (s.Spared e) :=
  match e with
  | .nsSend | .stray _ _ (some _) => inferInstanceAs (Decidable (∀ _, _ → _))
  | .stray _ _ none | .nsAlloc _ _ | .nsUnmap | .output _ | .card | .others _ _ => isTrue trivial

def demo : Outgoing where
  nsEnvid := 0x1001
  nic := Kern.demo.nic
  tdh := 0
  content := fun _ => ⟨0, []⟩
  nsipcbuf := fun _ => none
  loop := .start
  pktmap := none
  sent := false
  foreign := fun _ => false
  passed := fun _ => ⟨0, []⟩

theorem demo_started : demo.Started := ⟨fun _ => rfl, rfl, rfl, fun _ _ _ none => by cases none⟩

def transfer (p : Nat) (data : List Byte) : List OutgoingEvent :=
  [.nsAlloc p ⟨60, data⟩, .nsSend, .nsUnmap, .output 0]

theorem pages_stay_two :
    ∃ t, Run step Spared demo (transfer 200 [1] ++ [.card] ++ transfer 201 [2]) t ∧ t.Kept ∧
    (t.nic.txDescPool 1).done = false ∧ t.page 1 = 201 ∧ t.content 201 = ⟨60, [2]⟩ := by
  refine Run.of_exec_imp (p := fun t => (t.nic.txDescPool 1).done = false ∧ t.page 1 = 201 ∧
    t.content 201 = ⟨60, [2]⟩) (by decide +kernel) ?_
  rintro t run ⟨undone, page, content⟩
  exact ⟨(pages_stay demo_started run).1, undone, page, content⟩

-- A second packet arrives before the card has read the first: its page replaces the first one,
-- which somebody else then uses.
theorem page_replaced : ∃ t, Run step (fun _ _ => True) demo
      (transfer 200 [1] ++ transfer 201 [2] ++ [.others 200 ⟨60, [3]⟩]) t ∧
    (t.nic.txDescPool 0).done = false ∧ t.page 0 = 200 ∧ t.passed 0 = ⟨60, [1]⟩ ∧ ¬t.Mapped 200 ∧
      t.content 200 = ⟨60, [3]⟩ :=
  Run.of_exec_any (by decide +kernel)

end Demo

end Outgoing

end Jos.Net
