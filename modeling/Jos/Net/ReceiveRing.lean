import Jos.Shared.Ring
import Jos.Kern.Boot

namespace Jos.Kern

open Jos.Shared
open Function

structure RxPacket where
  bytes : List Byte
  length : BitVec 16
  deriving DecidableEq

structure Announcement where
  index : Fin 128
  packet : RxPacket
  deriving DecidableEq

namespace Kernel

variable {s s' : Kernel} {cur : Slot} {bufIdx r : Word}

theorem storeWord_rest {va word : Word} (stored : s.storeWord cur va word = .ok s') :
    s'.nic = s.nic ∧ s'.toTable = s.toTable := by
  unfold storeWord storeBytes at stored
  obtain ⟨g, -, written⟩ := ok_of_bind stored
  unfold updateVm at written
  split at written <;> cases written
  exact ⟨rfl, rfl⟩

theorem e1000Receive_cases (returned : s.e1000Receive cur bufIdx = .ok (s', r)) :
    (s'.nic = s.nic ∧ s'.toTable = s.toTable) ∧
      ((r = Errno.rxPoolEmpty.code ∧ (s.nic.rxDescPool s.nic.recHeadIndex).done = false) ∨
        (s.storeWord cur bufIdx (BitVec.ofNat 32 s.nic.recHeadIndex) = .ok s' ∧
          r = (s.nic.rxDescPool s.nic.recHeadIndex).length.setWidth 32 ∧
          (s.nic.rxDescPool s.nic.recHeadIndex).done = true)) := by
  simp only [e1000Receive] at returned
  split at returned
  next empty =>
    cases returned
    exact ⟨⟨rfl, rfl⟩, .inl ⟨rfl, empty⟩⟩
  next filled =>
    obtain ⟨k, stored, result⟩ := ok_of_bind returned
    cases result
    have same := storeWord_rest stored
    exact ⟨same, .inr ⟨stored, by rw [same.1], by simpa using filled⟩⟩

end Kernel

/-- The driver and the card on the receive side, used as `input` does. `held` says that a buffer has
been announced and not yet released. The lists are not part of the machine: they record the packets
that arrived, the announcements, and the packets whose buffers were released. -/
structure RxSystem where
  kernel : Kernel
  rdh : Fin 128
  rxBufArray : Fin 128 → List Byte
  held : Bool
  arrived : List RxPacket
  announced : List Announcement
  released : List RxPacket

inductive RxEvent where
  | card (packet : RxPacket)
  | receive (cur : Slot) (bufIdx : Word)
  | free
  | others (k : Kernel)

namespace RxSystem

def nic (s : RxSystem) : Nic := s.kernel.nic

def stored (s : RxSystem) (i : Fin 128) : RxPacket := ⟨s.rxBufArray i, (s.nic.rxDescPool i).length⟩

def fill (s : RxSystem) (packet : RxPacket) : RxSystem :=
  { s with
    kernel := { s.kernel with nic :=
      { s.nic with rxDescPool := update s.nic.rxDescPool s.rdh ⟨packet.length, true⟩ } }
    rdh := s.rdh + 1
    rxBufArray := update s.rxBufArray s.rdh packet.bytes
    arrived := s.arrived ++ [packet] }

def announce (s : RxSystem) (r : Word) : RxSystem :=
  { s with
    held := true
    announced := s.announced ++ [⟨s.nic.recHeadIndex, ⟨s.rxBufArray s.nic.recHeadIndex, r.setWidth 16⟩⟩] }

def release (s : RxSystem) : RxSystem :=
  { s with
    kernel := s.kernel.e1000FreeRxBuf
    held := false
    released := s.released ++ [s.stored s.nic.recHeadIndex] }

-- The card has no descriptor left when its head meets the tail. `sys_receive` is called until it
-- succeeds, then `sys_free_rx_buf` is called once. Whatever else the kernel does leaves the receive
-- ring alone.
def step (s : RxSystem) : RxEvent → Option RxSystem
  | .card packet => if s.rdh = s.nic.rdt then none else some (s.fill packet)
  | .receive cur bufIdx =>
    if s.held then none else
      match s.kernel.e1000Receive cur bufIdx with
      | .ok (k, r) =>
        let s := { s with kernel := k }
        some (if r.msb then s else s.announce r)
      | .error _ => none
  | .free => if s.held then some s.release else none
  | .others k =>
    some { s with kernel := { k with nic :=
      { k.nic with
        rxDescPool := s.nic.rxDescPool
        rdt := s.nic.rdt
        recHeadIndex := s.nic.recHeadIndex } } }

structure Attached (s : RxSystem) : Prop where
  rdh : s.rdh = 0
  rdt : s.nic.rdt = 127
  recHead : s.nic.recHeadIndex = 0
  empty : ∀ i, (s.nic.rxDescPool i).done = false
  held : s.held = false
  arrived : s.arrived = []
  announced : s.announced = []
  released : s.released = []

structure Linked (s : RxSystem) : Prop where
  tail : s.nic.rdt + 1 = s.nic.recHeadIndex
  filled : ∀ i, (s.nic.rxDescPool i).done = true ↔ Between s.nic.recHeadIndex s.rdh i
  waiting : s.arrived = s.released ++ segment s.stored s.nic.recHeadIndex s.rdh
  announced : s.announced.map Announcement.packet =
    s.released ++ if s.held then [s.stored s.nic.recHeadIndex] else []
  indices : s.announced.map Announcement.index =
    (List.range s.released.length).map (Fin.ofNat 128) ++ if s.held then [s.nic.recHeadIndex] else []
  count : s.nic.recHeadIndex = Fin.ofNat 128 s.released.length
  head : s.held = true → (s.nic.rxDescPool s.nic.recHeadIndex).done = true

variable {s t : RxSystem}

theorem fill_stored (s : RxSystem) (packet : RxPacket) :
    (s.fill packet).stored = update s.stored s.rdh packet := by
  funext i
  show RxPacket.mk (update s.rxBufArray s.rdh packet.bytes i)
    (update s.nic.rxDescPool s.rdh (RxDesc.mk packet.length true) i).length = _
  by_cases here : i = s.rdh <;> simp [here, stored]

theorem Attached.linked (attached : s.Attached) : s.Linked where
  tail := by
    rw [attached.rdt, attached.recHead]
    rfl
  filled i := by
    rw [attached.recHead, attached.rdh, attached.empty]
    simp [not_between_self]
  waiting := by simp [attached.recHead, attached.rdh, attached.arrived, attached.released]
  announced := by simp [attached.announced, attached.released, attached.held]
  indices := by simp [attached.announced, attached.released, attached.held]
  count := by simp [attached.recHead, attached.released]
  head held := by simp [attached.held] at held

namespace Linked

theorem of_nic (linked : s.Linked) {k : Kernel} (same : k.nic = s.nic) :
    Linked { s with kernel := k } := by
  have whole : k = { k with nic := s.nic } := by rw [← same]
  rw [whole]
  exact ⟨linked.tail, linked.filled, linked.waiting, linked.announced, linked.indices, linked.count,
    linked.head⟩

theorem apart (linked : s.Linked) (done : (s.nic.rxDescPool s.nic.recHeadIndex).done = true) :
    s.nic.recHeadIndex ≠ s.rdh := by
  intro met
  have filled := (linked.filled s.nic.recHeadIndex).mp done
  rw [met] at filled
  exact not_between_self filled

theorem current (linked : s.Linked) (held : s.held = true) :
    s.arrived[s.released.length]? = some (s.stored s.nic.recHeadIndex) ∧
      s.announced.length = s.released.length + 1 := by
  constructor
  · rw [linked.waiting, List.getElem?_append_right (Nat.le_refl _), Nat.sub_self,
      segment_pop _ (linked.apart (linked.head held))]
    rfl
  · have count := congrArg List.length linked.announced
    rw [if_pos held, List.length_map, List.length_append, List.length_singleton] at count
    exact count

theorem fill (linked : s.Linked) (room : s.rdh ≠ s.nic.rdt) (packet : RxPacket) :
    (s.fill packet).Linked := by
  have gap : s.rdh + 1 ≠ s.nic.recHeadIndex :=
    fun met => room (add_right_cancel (met.trans linked.tail.symm))
  have pool : (s.fill packet).nic.rxDescPool =
    update s.nic.rxDescPool s.rdh ⟨packet.length, true⟩ := rfl
  have stored := fill_stored s packet
  -- What has been announced lies elsewhere.
  have kept : s.held = true →
    (s.fill packet).stored s.nic.recHeadIndex = s.stored s.nic.recHeadIndex := by
    intro held
    rw [stored, update_of_ne (linked.apart (linked.head held))]
  constructor
  case tail => exact linked.tail
  case filled =>
    intro i
    show _ ↔ Between s.nic.recHeadIndex (s.rdh + 1) i
    rw [pool, between_push gap, ← linked.filled]
    by_cases here : i = s.rdh <;> simp [here]
  case waiting =>
    show s.arrived ++ [packet] = s.released ++ segment (s.fill packet).stored s.nic.recHeadIndex
      (s.rdh + 1)
    rw [stored, segment_push _ gap, linked.waiting, List.append_assoc]
  case announced =>
    show s.announced.map _ = s.released ++ if s.held
      then [(s.fill packet).stored s.nic.recHeadIndex] else []
    rw [linked.announced]
    split
    next held => rw [kept held]
    · rfl
  case indices => exact linked.indices
  case count => exact linked.count
  case head =>
    intro held
    show ((s.fill packet).nic.rxDescPool s.nic.recHeadIndex).done = true
    rw [pool, update_of_ne (linked.apart (linked.head held))]
    exact linked.head held

theorem announce (linked : s.Linked) (free : s.held = false) {r : Word}
    (result : r = (s.nic.rxDescPool s.nic.recHeadIndex).length.setWidth 32)
    (done : (s.nic.rxDescPool s.nic.recHeadIndex).done = true) : (s.announce r).Linked := by
  have here : RxPacket.mk (s.rxBufArray s.nic.recHeadIndex) (r.setWidth 16) =
    s.stored s.nic.recHeadIndex := by
    rw [result, BitVec.setWidth_setWidth_of_le _ (by decide), BitVec.setWidth_eq]
    rfl
  constructor
  case tail => exact linked.tail
  case filled => exact linked.filled
  case waiting => exact linked.waiting
  case announced =>
    have before := linked.announced
    rw [free] at before
    show (s.announced ++ [_]).map _ = s.released ++ [s.stored s.nic.recHeadIndex]
    rw [List.map_append, before, List.map_singleton, here]
    simp
  case indices =>
    have before := linked.indices
    rw [free] at before
    show (s.announced ++ [_]).map _ = (List.range s.released.length).map (Fin.ofNat 128) ++
      [s.nic.recHeadIndex]
    rw [List.map_append, before]
    simp
  case count => exact linked.count
  case head => exact fun _ => done

theorem release (linked : s.Linked) (held : s.held = true) : s.release.Linked := by
  have apart := linked.apart (linked.head held)
  have pool : s.release.nic.rxDescPool = update s.nic.rxDescPool s.nic.recHeadIndex
    { s.nic.rxDescPool s.nic.recHeadIndex with done := false } := rfl
  have stored : s.release.stored = s.stored := by
    funext i
    show RxPacket.mk (s.rxBufArray i) _ = ⟨_, _⟩
    rw [pool]
    by_cases here : i = s.nic.recHeadIndex
    · subst here
      simp
    · simp [here]
  have released : s.release.released = s.released ++ [s.stored s.nic.recHeadIndex] := rfl
  constructor
  case tail =>
    show s.nic.rdt + 1 + 1 = s.nic.recHeadIndex + 1
    rw [linked.tail]
  case filled =>
    intro i
    show _ ↔ Between (s.nic.recHeadIndex + 1) s.rdh i
    rw [pool, between_pop apart, ← linked.filled]
    by_cases here : i = s.nic.recHeadIndex <;> simp [here]
  case waiting =>
    show s.arrived = s.release.released ++ segment s.release.stored (s.nic.recHeadIndex + 1) s.rdh
    rw [stored, linked.waiting, segment_pop _ apart, released]
    simp
  case announced =>
    have before := linked.announced
    rw [if_pos held] at before
    show s.announced.map _ = s.release.released ++ []
    rw [before, released, List.append_nil]
  case indices =>
    have before := linked.indices
    rw [if_pos held, linked.count] at before
    show s.announced.map _ = (List.range s.release.released.length).map _ ++ []
    rw [before, released, List.length_append, List.length_singleton, List.range_succ, List.map_append]
    simp
  case count =>
    show s.nic.recHeadIndex + 1 = _
    rw [released, List.length_append, List.length_singleton, ofNat_succ, linked.count, add_comm]
  case head => exact fun again => absurd again (by simp [RxSystem.release])

end Linked

theorem step_receive {cur : Slot} {bufIdx r : Word} {k : Kernel} (free : s.held = false)
    (returned : s.kernel.e1000Receive cur bufIdx = .ok (k, r)) :
    s.step (.receive cur bufIdx) =
      some (if r.msb then { s with kernel := k } else announce { s with kernel := k } r) := by
  simp only [step, returned]
  exact if_neg (by simp [free])

theorem step_linked {e : RxEvent} (linked : s.Linked) (next : s.step e = some t) : t.Linked := by
  cases e with
  | card packet =>
    simp only [step] at next
    split at next
    · cases next
    next room =>
      cases next
      exact linked.fill room packet
  | receive cur bufIdx =>
    simp only [step] at next
    split at next
    · cases next
    next free =>
      split at next
      next k r returned =>
        obtain ⟨⟨same, -⟩, answer⟩ := Kernel.e1000Receive_cases returned
        have moved := linked.of_nic same
        cases next
        rcases answer with ⟨rfl, -⟩ | ⟨-, result, done⟩
        · rw [if_pos (by decide)]
          exact moved
        · rw [if_neg (by simp [result, BitVec.msb_setWidth])]
          rw [← same] at result done
          exact moved.announce (by simpa using free) result done
      · cases next
  | free =>
    simp only [step] at next
    split at next
    next held =>
      cases next
      exact linked.release held
    · cases next
  | others k =>
    cases next
    exact ⟨linked.tail, linked.filled, linked.waiting, linked.announced, linked.indices,
      linked.count, linked.head⟩

structure InOrder (s : RxSystem) : Prop where
  tail : s.nic.rdt = s.nic.recHeadIndex - 1
  filled : ∀ i, (s.nic.rxDescPool i).done = true ↔ Between s.nic.recHeadIndex s.rdh i
  packets : s.announced.map Announcement.packet <+: s.arrived
  indices : s.announced.map Announcement.index = (List.range s.announced.length).map (Fin.ofNat 128)
  kept : s.held = true → s.announced.getLast? = some ⟨s.nic.recHeadIndex, s.stored s.nic.recHeadIndex⟩
  untouched : ∀ packet t, s.held = true → s.step (.card packet) = some t →
    t.stored s.nic.recHeadIndex = s.stored s.nic.recHeadIndex

theorem Linked.inOrder (linked : s.Linked) : s.InOrder := by
  have size : s.announced.length = s.released.length + if s.held then 1 else 0 := by
    have count := congrArg List.length linked.announced
    rw [List.length_map, List.length_append] at count
    rw [count]
    split <;> rfl
  constructor
  case tail => exact eq_sub_of_add_eq linked.tail
  case filled => exact linked.filled
  case packets =>
    rw [linked.announced, linked.waiting, List.prefix_append_right_inj]
    split
    next held =>
      rw [segment_pop _ (linked.apart (linked.head held))]
      exact ⟨_, rfl⟩
    · exact List.nil_prefix
  case indices =>
    rw [linked.indices, size]
    split
    · rw [List.range_succ, List.map_append, linked.count, List.map_singleton]
    · simp
  case kept =>
    intro held
    have packets := linked.announced
    have indices := linked.indices
    rw [if_pos held] at packets indices
    have last : ∃ a, s.announced.getLast? = some a := by
      rw [if_pos held] at size
      exact ⟨_, List.getLast?_eq_some_getLast (List.ne_nil_of_length_pos (by omega))⟩
    obtain ⟨a, last⟩ := last
    have packet := congrArg List.getLast? packets
    have index := congrArg List.getLast? indices
    rw [List.getLast?_map, last, List.getLast?_concat] at packet index
    rw [last]
    cases a
    simp_all
  case untouched =>
    intro packet t held moved
    simp only [step] at moved
    split at moved
    · cases moved
    · cases moved
      have apart := linked.apart (linked.head held)
      rw [fill_stored, update_of_ne apart]

theorem receives_in_order {es : List RxEvent} (attached : s.Attached)
    (run : Run step (fun _ _ => True) s es t) : t.InOrder := by
  have linked : t.Linked := run.invariant attached.linked fun _ _ _ linked _ next =>
    step_linked linked next
  exact linked.inOrder

section Demo

def demo : RxSystem where
  kernel := { Kern.demo with toTable := Kern.demo.setEnv 0 { zeroEnv with envPgdir := some 1 } }
  rdh := 0
  rxBufArray := fun _ => []
  held := false
  arrived := []
  announced := []
  released := []

theorem demo_attached : demo.Attached := ⟨rfl, rfl, rfl, fun _ => rfl, rfl, rfl, rfl, rfl⟩

def two : List RxEvent :=
  [.card ⟨[1, 2], 2⟩, .receive 0 0xf0300000, .card ⟨[3], 1⟩, .free, .receive 0 0xf0300000]

theorem receives_in_order_two : ∃ t, Run step (fun _ _ => True) demo two t ∧ t.InOrder ∧
    t.announced = [⟨0, ⟨[1, 2], 2⟩⟩, ⟨1, ⟨[3], 1⟩⟩] := by
  refine Run.of_exec_imp (p := fun t => t.announced = [⟨0, ⟨[1, 2], 2⟩⟩, ⟨1, ⟨[3], 1⟩⟩])
    (by decide +kernel) fun t run announced => ?_
  exact ⟨receives_in_order demo_attached run, announced⟩

end Demo

end RxSystem

end Jos.Kern
