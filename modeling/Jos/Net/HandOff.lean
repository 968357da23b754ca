import Jos.Net.Loops
import Jos.Net.ReceiveRing

namespace Jos.Net

open Jos.Kern Jos.Shared

structure Reading where
  message : Nat
  len : BitVec 16
  bufIdx : Word
  bytes : List Byte
  deriving DecidableEq

/-- The input environment, the card, and the thread of the network server that handles its messages.
`jpLen` and `bufIdx` are in the page that the two environments share. `delivered` counts the
messages, and `reading` is the message that `low_level_input` has begun with, with the length it has
read, and the index once it has read it too. -/
structure Incoming where
  rx : RxSystem
  pc : InputPc
  recHeadIndex : Word
  jpLen : Word
  bufIdx : Word
  delivered : Nat
  reading : Option (Nat × BitVec 16 × Option Word)
  handled : List Reading

inductive IncomingEvent where
  | card (packet : RxPacket)
  | input (cur : Slot) (ptr msec : Word)
  | begin (i : Nat)
  | allocated
  | copy
  | others (k : Kernel)

namespace Incoming

def receive (s : Incoming) (cur : Slot) (ptr : Word) : Option Incoming :=
  match s.rx.kernel.e1000Receive cur ptr with
  | .error _ => none
  | .ok (_, r) =>
    (s.rx.step (.receive cur ptr)).map fun rx =>
      { s with
        rx := rx
        pc := .received r
        jpLen := r
        recHeadIndex := if r.msb then s.recHeadIndex else BitVec.ofNat 32 s.rx.nic.recHeadIndex }

-- `sleep` takes as long as it takes.
def inputStep (s : Incoming) (cur : Slot) (ptr msec : Word) : Option Incoming :=
  match s.pc with
  | .receive => s.receive cur ptr
  | .time => some { s with pc := .timed msec }
  | .mark => some { s with pc := .yield }
  | .yield => some { s with pc := .receive }
  | .index => some { s with pc := .send, bufIdx := s.recHeadIndex }
  | .send => some { s with pc := .sleep, delivered := s.delivered + 1 }
  | .sleep => some { s with pc := .free }
  | .free => (s.rx.step .free).map fun rx => { s with rx := rx, pc := .receive }

-- `low_level_input` reads `jp_len`, allocates a buffer of that length, reads `buf_idx` and copies
-- the packet. The card does not accept packets longer than a receive buffer.
def step (s : Incoming) : IncomingEvent → Option Incoming
  | .card packet =>
    if packet.length ≤ 2048 then (s.rx.step (.card packet)).map fun rx => { s with rx := rx } else none
  | .input cur ptr msec => s.inputStep cur ptr msec
  | .begin i =>
    if s.reading = none ∧ i < s.delivered ∧ i ∉ s.handled.map Reading.message then
      some { s with reading := some (i, s.jpLen.setWidth 16, none) }
    else none
  | .allocated =>
    match s.reading with
    | some (i, len, none) => some { s with reading := some (i, len, some s.bufIdx) }
    | _ => none
  | .copy =>
    match s.reading with
    | none | some (_, _, none) => none
    | some (i, len, some bufIdx) =>
      let bytes := (s.rx.rxBufArray (Fin.ofNat 128 bufIdx.toNat)).take len.toNat
      some { s with reading := none, handled := s.handled ++ [⟨i, len, bufIdx, bytes⟩] }
  | .others k => (s.rx.step (.others k)).map fun rx => { s with rx := rx }

def Faithful (s : Incoming) : Prop :=
  ∀ r ∈ s.handled, ∃ packet, s.rx.arrived[r.message]? = some packet ∧ r.len = packet.length ∧
    r.bufIdx = BitVec.ofNat 32 (r.message % 128) ∧ r.bytes = packet.bytes.take packet.length.toNat

def Acknowledged (s : Incoming) : IncomingEvent → Prop
  | .input _ _ _ => s.pc = .sleep → s.handled.length = s.delivered
  | _ => True

def holding : InputPc → Bool
  | .index | .send | .sleep | .free => true
  | .receive | .time | .mark | .yield => false

def unsent : InputPc → Nat
  | .index | .send => 1
  | _ => 0

structure Sound (s : Incoming) : Prop where
  linked : s.rx.Linked
  held : s.rx.held = holding s.pc
  count : s.rx.announced.length = s.delivered + unsent s.pc
  fields : holding s.pc = true → s.recHeadIndex = BitVec.ofNat 32 s.rx.nic.recHeadIndex ∧
    s.jpLen = (s.rx.stored s.rx.nic.recHeadIndex).length.setWidth 32
  page : s.pc = .send ∨ s.pc = .sleep → s.bufIdx = BitVec.ofNat 32 s.rx.nic.recHeadIndex
  outstanding : s.handled.length = s.delivered ∧ s.reading = none ∨
    s.pc = .sleep ∧ s.handled.length + 1 = s.delivered
  messages : s.handled.map Reading.message = List.range s.handled.length
  reading : ∀ i len bufIdx, s.reading = some (i, len, bufIdx) →
    i = s.handled.length ∧ len = s.jpLen.setWidth 16 ∧ ∀ index ∈ bufIdx, index = s.bufIdx
  faithful : s.Faithful

variable {s t : Incoming}

namespace Sound

theorem moves (sound : s.Sound) {rx : RxSystem} (linked : rx.Linked) (held : rx.held = s.rx.held)
    (announced : rx.announced = s.rx.announced) (head : rx.nic.recHeadIndex = s.rx.nic.recHeadIndex)
    (stored : s.rx.held = true → rx.stored s.rx.nic.recHeadIndex = s.rx.stored s.rx.nic.recHeadIndex)
    (arrived : s.rx.arrived <+: rx.arrived) : Sound { s with rx := rx } where
  linked := linked
  held := held.trans sound.held
  count := by
    rw [announced]
    exact sound.count
  fields holds := by
    rw [head, stored (sound.held.trans holds)]
    exact sound.fields holds
  page ready := by
    rw [head]
    exact sound.page ready
  outstanding := sound.outstanding
  messages := sound.messages
  reading := sound.reading
  faithful r member := by
    obtain ⟨packet, found, same⟩ := sound.faithful r member
    obtain ⟨rest, longer⟩ := arrived
    exact ⟨packet,
      by rw [← longer, List.getElem?_append_left (List.getElem?_eq_some_iff.mp found).1, found], same⟩

theorem card (sound : s.Sound) {packet : RxPacket} {rx : RxSystem}
    (next : s.rx.step (.card packet) = some rx) : Sound { s with rx := rx } := by
  have linked := RxSystem.step_linked sound.linked next
  have kept := fun held => sound.linked.inOrder.untouched packet rx held next
  obtain ⟨-, same⟩ := Option.ite_none_left_eq_some.mp next
  cases same
  exact sound.moves linked rfl rfl rfl kept ⟨[packet], rfl⟩

theorem others (sound : s.Sound) {k : Kernel} {rx : RxSystem} (next : s.rx.step (.others k) = some rx) :
    Sound { s with rx := rx } := by
  have linked := RxSystem.step_linked sound.linked next
  cases next
  exact sound.moves linked rfl rfl rfl (fun _ => rfl) (List.prefix_refl _)

theorem settled (sound : s.Sound) (awake : s.pc ≠ .sleep) : s.handled.length = s.delivered ∧
    s.reading = none := by
  rcases sound.outstanding with settled | ⟨asleep, -⟩
  · exact settled
  · exact absurd asleep awake

theorem receive (sound : s.Sound) (pc : s.pc = .receive) {cur : Slot} {ptr : Word}
    (next : s.receive cur ptr = some t) : t.Sound := by
  have settled := sound.settled (by simp [pc])
  have free : s.rx.held = false := by rw [sound.held, pc]; rfl
  have count := sound.count
  rw [pc] at count
  unfold Incoming.receive at next
  split at next
  · cases next
  next k r returned =>
    obtain ⟨rx, moved, same⟩ := Option.map_eq_some_iff.mp next
    have linked := RxSystem.step_linked sound.linked moved
    cases same
    rw [RxSystem.step_receive free returned, Option.some.injEq] at moved
    obtain ⟨⟨same, -⟩, ⟨rfl, -⟩ | ⟨-, result, -⟩⟩ := Kernel.e1000Receive_cases returned
    · rw [if_pos (by decide)] at moved
      subst moved
      exact ⟨linked, free, count, nofun, nofun, .inl settled,
        sound.messages, by simp [settled.2], sound.faithful⟩
    · have positive : r.msb = false := by simp [result, BitVec.msb_setWidth]
      have found : r ≠ Errno.rxPoolEmpty.code := by
        rintro rfl
        exact absurd positive (by decide)
      rw [if_neg (by simp [positive])] at moved
      subst moved
      have ready : InputPc.received r = .index := if_neg found
      rw [ready, if_neg (by simp [positive])]
      refine ⟨linked, rfl, ?_, fun _ => ⟨?_, ?_⟩, nofun, .inl settled,
        sound.messages, by simp [settled.2], sound.faithful⟩
      · show (s.rx.announced ++ [_]).length = s.delivered + 1
        rw [List.length_append, count]
        rfl
      · show _ = BitVec.ofNat 32 k.nic.recHeadIndex
        rw [same]
        rfl
      · show r = (k.nic.rxDescPool k.nic.recHeadIndex).length.setWidth 32
        rw [same]
        exact result

theorem waits (sound : s.Sound) {pc : InputPc} (before : holding s.pc = false)
    (after : holding pc = false) : Sound { s with pc := pc } := by
  have settled := sound.settled fun asleep => by simp [asleep, holding] at before
  have sent : ∀ pc, holding pc = false → unsent pc = 0 := by
    intro pc free
    cases pc <;> first | rfl | cases free
  refine ⟨sound.linked, by rw [sound.held, before, after], ?_,
    fun holds => by simp [after] at holds, ?_, .inl settled, sound.messages, sound.reading,
    sound.faithful⟩
  · rw [sent pc after, ← sent s.pc before]
    exact sound.count
  · rintro (rfl | rfl) <;> cases after

theorem release (sound : s.Sound) (pc : s.pc = .free) {rx : RxSystem} (next : s.rx.step .free = some rx) :
    Sound { s with rx := rx, pc := .receive } := by
  have settled := sound.settled (by simp [pc])
  have linked := RxSystem.step_linked sound.linked next
  have count := sound.count
  rw [pc] at count
  obtain ⟨-, same⟩ := Option.ite_none_right_eq_some.mp next
  cases same
  exact ⟨linked, rfl, count, nofun, nofun, .inl settled, sound.messages, sound.reading, sound.faithful⟩

theorem inputStep (sound : s.Sound) {cur : Slot} {ptr msec : Word}
    (acknowledged : s.pc = .sleep → s.handled.length = s.delivered)
    (next : s.inputStep cur ptr msec = some t) : t.Sound := by
  unfold Incoming.inputStep at next
  cases pc : s.pc with
  | receive =>
    simp only [pc] at next
    exact sound.receive pc next
  | time =>
    simp only [pc, Option.some.injEq] at next
    subst next
    refine sound.waits (by simp [pc, holding]) ?_
    unfold InputPc.timed
    split <;> rfl
  | mark | yield =>
    simp only [pc, Option.some.injEq] at next
    subst next
    exact sound.waits (by simp [pc, holding]) rfl
  | index =>
    simp only [pc, Option.some.injEq] at next
    subst next
    have settled := sound.settled (by simp [pc])
    have fields := sound.fields (by simp [pc, holding])
    refine ⟨sound.linked, by rw [sound.held, pc]; rfl, ?_, fun _ => fields, fun _ => fields.1,
      .inl settled, sound.messages, ?_, sound.faithful⟩
    · rw [sound.count, pc]
      rfl
    · simp [settled.2]
  | send =>
    simp only [pc, Option.some.injEq] at next
    subst next
    have settled := sound.settled (by simp [pc])
    refine ⟨sound.linked, by rw [sound.held, pc]; rfl, ?_, fun _ => sound.fields (by simp [pc, holding]),
      fun _ => sound.page (.inl pc), .inr ⟨rfl, congrArg (· + 1) settled.1⟩, sound.messages, ?_,
        sound.faithful⟩
    · rw [sound.count, pc]
      rfl
    · simp [settled.2]
  | sleep =>
    simp only [pc, Option.some.injEq] at next
    subst next
    have settled : s.handled.length = s.delivered ∧ s.reading = none := by
      rcases sound.outstanding with settled | ⟨-, behind⟩
      · exact settled
      · exact absurd (acknowledged pc) (by omega)
    refine ⟨sound.linked, by rw [sound.held, pc]; rfl, ?_, fun _ => sound.fields (by simp [pc, holding]),
      nofun, .inl settled, sound.messages, sound.reading, sound.faithful⟩
    rw [sound.count, pc]
    rfl
  | free =>
    simp only [pc] at next
    obtain ⟨rx, moved, rfl⟩ := Option.map_eq_some_iff.mp next
    exact sound.release pc moved

theorem reads (sound : s.Sound) (asleep : s.pc = .sleep)
    (behind : s.handled.length + 1 = s.delivered) {bufIdx : Option Word}
    (index : ∀ index ∈ bufIdx, index = s.bufIdx) :
    Sound { s with reading := some (s.handled.length, s.jpLen.setWidth 16, bufIdx) } := by
  refine ⟨sound.linked, sound.held, sound.count, sound.fields, sound.page, .inr ⟨asleep, behind⟩,
    sound.messages, ?_, sound.faithful⟩
  intro j len bufIdx same
  cases same
  exact ⟨rfl, rfl, index⟩

theorem begins (sound : s.Sound) {i : Nat} (behind : i < s.delivered)
    (new : i ∉ s.handled.map Reading.message) :
    Sound { s with reading := some (i, s.jpLen.setWidth 16, none) } := by
  rw [sound.messages, List.mem_range, Nat.not_lt] at new
  rcases sound.outstanding with ⟨settled, -⟩ | ⟨asleep, next⟩
  · omega
  · obtain rfl : i = s.handled.length := by omega
    exact sound.reads asleep next (by simp)

theorem busy (sound : s.Sound) (busy : s.reading ≠ none) : s.pc = .sleep ∧
    s.handled.length + 1 = s.delivered := by
  rcases sound.outstanding with ⟨-, idle⟩ | outstanding
  · exact absurd idle busy
  · exact outstanding

theorem indexes (sound : s.Sound) {i : Nat} {len : BitVec 16} (busy : s.reading = some (i, len, none)) :
    Sound { s with reading := some (i, len, some s.bufIdx) } := by
  obtain ⟨rfl, rfl, -⟩ := sound.reading i len none busy
  obtain ⟨asleep, behind⟩ := sound.busy (by simp [busy])
  exact sound.reads asleep behind (by simp)

theorem copies (sound : s.Sound) {i : Nat} {len : BitVec 16} {bufIdx : Word}
    (busy : s.reading = some (i, len, some bufIdx)) :
    Sound { s with
      reading := none
      handled := s.handled ++
        [⟨i, len, bufIdx, (s.rx.rxBufArray (Fin.ofNat 128 bufIdx.toNat)).take len.toNat⟩] } := by
  obtain ⟨rfl, rfl, index⟩ := sound.reading i len (some bufIdx) busy
  obtain rfl := index bufIdx rfl
  obtain ⟨pc, behind⟩ := sound.busy (by simp [busy])
  have holds : holding s.pc = true := by rw [pc]; rfl
  obtain ⟨packet, announced⟩ := sound.linked.current (sound.held.trans holds)
  have number : s.rx.released.length = s.handled.length := by
    have count := sound.count
    rw [pc] at count
    simp only [unsent] at count
    omega
  have index := sound.page (.inr pc)
  have place : Fin.ofNat 128 s.bufIdx.toNat = s.rx.nic.recHeadIndex := by
    apply Fin.ext
    simp only [index, Fin.val_ofNat, BitVec.toNat_ofNat]
    omega
  have len : s.jpLen.setWidth 16 = (s.rx.stored s.rx.nic.recHeadIndex).length := by
    rw [(sound.fields holds).2, BitVec.setWidth_setWidth_of_le _ (by decide), BitVec.setWidth_eq]
  refine ⟨sound.linked, sound.held, sound.count, sound.fields, sound.page, .inl ⟨?_, rfl⟩, ?_, nofun, ?_⟩
  · simpa using behind
  · simp [sound.messages, List.range_succ]
  · intro r member
    rcases List.mem_append.mp member with old | new
    · exact sound.faithful r old
    · rw [List.mem_singleton] at new
      subst new
      refine ⟨_, number ▸ packet, len, ?_, ?_⟩
      · rw [index, sound.linked.count, number]
        rfl
      · rw [place, len]
        rfl

end Sound

theorem step_sound {e : IncomingEvent} (sound : s.Sound) (acknowledged : s.Acknowledged e)
    (next : s.step e = some t) : t.Sound := by
  cases e with
  | card packet =>
    obtain ⟨-, moved⟩ := Option.ite_none_right_eq_some.mp next
    obtain ⟨rx, filled, rfl⟩ := Option.map_eq_some_iff.mp moved
    exact sound.card filled
  | input cur ptr msec => exact sound.inputStep acknowledged next
  | begin i =>
    obtain ⟨⟨-, behind, new⟩, same⟩ := Option.ite_none_right_eq_some.mp next
    cases same
    exact sound.begins behind new
  | allocated =>
    simp only [step] at next
    split at next
    next i len busy =>
      cases next
      exact sound.indexes busy
    next => cases next
  | copy =>
    simp only [step] at next
    split at next
    · cases next
    · cases next
    next i len bufIdx busy =>
      cases next
      exact sound.copies busy
  | others k =>
    cases next
    exact sound.others (k := k) rfl

structure Started (s : Incoming) : Prop where
  attached : s.rx.Attached
  pc : s.pc = .receive
  delivered : s.delivered = 0
  reading : s.reading = none
  handled : s.handled = []

theorem Started.sound (started : s.Started) : s.Sound where
  linked := started.attached.linked
  held := by rw [started.attached.held, started.pc]; rfl
  count := by simp [started.attached.announced, started.delivered, started.pc, unsent]
  fields holds := by simp [started.pc, holding] at holds
  page ready := by simp [started.pc] at ready
  outstanding := .inl (by simp [started.handled, started.delivered, started.reading])
  messages := by simp [started.handled]
  reading i len bufIdx busy := by simp [started.reading] at busy
  faithful r member := by simp [started.handled] at member

theorem readings_faithful {es : List IncomingEvent} (started : s.Started)
    (run : Run step Acknowledged s es t) : t.Faithful := by
  have sound : t.Sound := run.invariant started.sound fun _ _ _ => step_sound
  exact sound.faithful

section Demo

instance (s : Incoming) (e : IncomingEvent) : Decidable (s.Acknowledged e) :=
  match e with
  | .input _ _ _ => inferInstanceAs (Decidable (_ → _))
  | .card _ | .begin _ | .allocated | .copy | .others _ => isTrue trivial

def demo : Incoming where
  rx := .demo
  pc := .receive
  recHeadIndex := 0
  jpLen := 0
  bufIdx := 0
  delivered := 0
  reading := none
  handled := []

theorem demo_started : demo.Started := ⟨RxSystem.demo_attached, rfl, rfl, rfl, rfl⟩

def go : IncomingEvent := .input 0 0xf0300000 0

-- The second packet arrives while the server is between the two fields of the first.
def twoPackets : List IncomingEvent :=
  [.card ⟨[1, 2], 2⟩, go, go, go, .begin 0, .card ⟨[3], 1⟩, .allocated, .copy, go, go,
    go, go, go, .begin 1, .allocated, .copy, go, go]

theorem readings_faithful_two : ∃ t, Run step Acknowledged demo twoPackets t ∧
    t.Faithful ∧ t.handled = [⟨0, 2, 0, [1, 2]⟩, ⟨1, 1, 1, [3]⟩] := by
  refine Run.of_exec_imp (p := fun t => t.handled = [⟨0, 2, 0, [1, 2]⟩, ⟨1, 1, 1, [3]⟩])
    (by decide +kernel) fun t run handled => ?_
  exact ⟨readings_faithful demo_started run, handled⟩

-- The sleep ends before the server has looked at the first message: when it does, the page already
-- holds the length and the index of the second packet.
theorem reading_replaced : ∃ t, Run step (fun _ _ => True) demo
      [.card ⟨[1, 2], 2⟩, .card ⟨[3], 1⟩, go, go, go, go, go, go, go, .begin 0,
        .allocated, .copy] t ∧
    t.rx.arrived = [⟨[1, 2], 2⟩, ⟨[3], 1⟩] ∧ t.handled = [⟨0, 1, 1, [3]⟩] :=
  Run.of_exec_any (by decide +kernel)

end Demo

end Incoming

end Jos.Net
