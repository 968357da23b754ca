import Jos.Shared.Ring
import Jos.Kern.Boot

namespace Jos.Kern

open Jos.Shared
open Function

structure TxPacket where
  addr : Word
  length : BitVec 16
  deriving DecidableEq

def TxDesc.packet (desc : TxDesc) : TxPacket := ⟨desc.addr, desc.length⟩

namespace Nic

def tail (nic : Nic) : TxDesc := nic.txDescPool nic.tdt

def enqueue (nic : Nic) (packet : TxPacket) : Nic :=
  { nic with
    txDescPool := update nic.txDescPool nic.tdt ⟨packet.addr, packet.length, false⟩
    tdt := nic.tdt + 1 }

def tailIndex (nic : Nic) : Word :=
  BitVec.ofNat 32 nic.tdt ||| if nic.tail.done then (1#32 <<< 30) else 0

theorem msb_tailIndex (nic : Nic) : nic.tailIndex.msb = false := by
  have small : (BitVec.ofNat 32 nic.tdt.val).msb = false := by
    rw [BitVec.msb_eq_false_iff_two_mul_lt, BitVec.toNat_ofNat]
    omega
  unfold tailIndex
  split
  · simpa [small] using by decide
  · simp [small]

end Nic

namespace Kernel

def txAddr (s : Kernel) (cur : Slot) (data : Word) : Except Exit Word := do
  let g ← s.pgdir cur
  let pte ← match ← s.readVm (s.vm.pgdirWalk g data false) with
    | (vm, some ptr) => .ok (vm.load ptr)
    | (vm, none) => s.readVm (vm.loadWord g 0)
  .ok (pteAddr pte + pgoff data)

variable {s s' : Kernel} {cur : Slot} {data : Word} {len : BitVec 16} {r : Word}

theorem e1000Transmit_accept (done : s.nic.tail.done = true) (fits : len ≤ txPacketSize) :
    s.e1000Transmit cur data len = s.txAddr cur data >>= fun addr =>
      .ok ({ s.note (.read data (len.setWidth 32)) with nic := s.nic.enqueue ⟨addr, len⟩ },
        (s.nic.enqueue ⟨addr, len⟩).tailIndex) := by
  have busy : ¬(s.nic.txDescPool s.nic.tdt).done = false := by
    rw [Bool.not_eq_false]
    exact done
  have large : ¬txPacketSize < len := BitVec.not_lt.mpr fits
  unfold e1000Transmit
  simp only [busy, large, if_false, txAddr]
  cases s.pgdir cur with
  | error exit => rfl
  | ok g =>
    simp only [bind, Except.bind]
    cases s.readVm (s.vm.pgdirWalk g data false) with
    | error exit => rfl
    | ok found =>
      obtain ⟨vm, _ | ptr⟩ := found
      · dsimp only
        cases s.readVm (vm.loadWord g 0) <;> rfl
      · rfl

theorem e1000Transmit_refuse (s : Kernel) (cur : Slot) (data : Word)
    (refused : ¬(s.nic.tail.done = true ∧ len ≤ txPacketSize)) :
    ∃ err, (err = Errno.txPoolFull ∨ err = Errno.inval) ∧
    s.e1000Transmit cur data len = .ok (s, err.code) := by
  unfold e1000Transmit
  by_cases busy : (s.nic.txDescPool s.nic.tdt).done = false
  · exact ⟨.txPoolFull, .inl rfl, by simp only [busy, if_true]⟩
  · have large : txPacketSize < len := by
      rw [← BitVec.not_le]
      exact fun fits => refused ⟨by simpa [Nic.tail] using busy, fits⟩
    exact ⟨.inval, .inr rfl, by simp [busy, large]⟩

theorem e1000Transmit_cases (returned : s.e1000Transmit cur data len = .ok (s', r)) :
    (s' = s ∧ r.msb = true ∧ ¬(s.nic.tail.done = true ∧ len ≤ txPacketSize)) ∨
    ∃ addr, s.txAddr cur data = .ok addr ∧ s'.nic = s.nic.enqueue ⟨addr, len⟩ ∧ s'.toTable = s.toTable ∧
      r = s'.nic.tailIndex ∧ s.nic.tail.done = true ∧ len ≤ txPacketSize := by
  by_cases accepted : s.nic.tail.done = true ∧ len ≤ txPacketSize
  · rw [e1000Transmit_accept accepted.1 accepted.2] at returned
    cases walked : s.txAddr cur data with
    | error exit =>
      rw [walked] at returned
      cases returned
    | ok addr =>
      rw [walked] at returned
      cases returned
      exact .inr ⟨addr, rfl, rfl, rfl, rfl, accepted⟩
  · obtain ⟨err, which, answer⟩ := s.e1000Transmit_refuse cur data accepted
    rw [answer] at returned
    cases returned
    rcases which with rfl | rfl
    · exact .inl ⟨rfl, by decide, accepted⟩
    · exact .inl ⟨rfl, by decide, accepted⟩

end Kernel

/-- The driver and the card on the transmit side. `accepted` and `sent` are not part of the machine:
they record what `e1000_transmit` has accepted and what the card has read from the ring. -/
structure TxSystem where
  kernel : Kernel
  tdh : Fin 64
  accepted : List TxPacket
  sent : List TxPacket

inductive TxEvent where
  | transmit (cur : Slot) (data : Word) (len : BitVec 16)
  | card
  | others (k : Kernel)

namespace TxSystem

def nic (s : TxSystem) : Nic := s.kernel.nic

def sendHead (s : TxSystem) : TxSystem :=
  let desc := { s.nic.txDescPool s.tdh with done := true }
  { s with
    kernel := { s.kernel with nic :=
      { s.nic with txDescPool := update s.nic.txDescPool s.tdh desc } }
    tdh := s.tdh + 1
    sent := s.sent ++ [desc.packet] }

def taken (s : TxSystem) (cur : Slot) (data : Word) (len : BitVec 16) (r : Word) : List TxPacket :=
  if r.msb then [] else ((s.kernel.txAddr cur data).toOption.map (⟨·, len⟩)).toList

-- For the card the ring is empty when its head and the tail agree. Whatever else the kernel does,
-- it leaves the transmit ring alone.
def step (s : TxSystem) : TxEvent → Option TxSystem
  | .transmit cur data len =>
    match s.kernel.e1000Transmit cur data len with
    | .ok (k, r) => some { s with kernel := k, accepted := s.accepted ++ s.taken cur data len r }
    | .error _ => none
  | .card => if s.tdh = s.nic.tdt then none else some s.sendHead
  | .others k =>
    some { s with kernel := { k with nic :=
      { k.nic with txDescPool := s.nic.txDescPool, tdt := s.nic.tdt } } }

structure Attached (s : TxSystem) : Prop where
  head : s.tdh = 0
  tail : s.nic.tdt = 0
  done : ∀ i, (s.nic.txDescPool i).done = true
  accepted : s.accepted = []
  sent : s.sent = []

def pending (s : TxSystem) : List TxPacket :=
  segment (fun i => (s.nic.txDescPool i).packet) s.tdh s.nic.tdt

structure InOrder (s : TxSystem) : Prop where
  undone : ∀ i, (s.nic.txDescPool i).done = false ↔ Between s.tdh s.nic.tdt i
  exact : s.accepted = s.sent ++ s.pending

def Roomy (s : TxSystem) : TxEvent → Prop
  | .transmit _ _ len => s.nic.tail.done = true → len ≤ Kernel.txPacketSize → s.nic.tdt + 1 ≠ s.tdh
  | .card | .others _ => True

variable {s t u : TxSystem}

theorem Attached.inOrder (attached : s.Attached) : s.InOrder where
  undone i := by
    rw [attached.head, attached.tail, attached.done]
    simp [not_between_self]
  exact := by
    rw [pending, attached.head, attached.tail, attached.accepted, attached.sent]
    simp

theorem InOrder.sendHead (order : s.InOrder) (some : s.tdh ≠ s.nic.tdt) : s.sendHead.InOrder := by
  have pool : s.sendHead.nic.txDescPool =
    update s.nic.txDescPool s.tdh { s.nic.txDescPool s.tdh with done := true } := rfl
  have tail : s.sendHead.nic.tdt = s.nic.tdt := rfl
  have head : s.sendHead.tdh = s.tdh + 1 := rfl
  constructor
  · intro i
    rw [pool, tail, head, between_pop some, ← order.undone]
    by_cases here : i = s.tdh <;> simp [here]
  · -- The DD bit is no part of what the descriptors say.
    have packets : (fun i => (s.sendHead.nic.txDescPool i).packet) = fun i =>
      (s.nic.txDescPool i).packet := by
      funext i
      rw [pool]
      by_cases here : i = s.tdh
      · subst here
        simp [TxDesc.packet]
      · simp [here]
    show s.accepted = (s.sent ++ [(s.nic.txDescPool s.tdh).packet]) ++ s.sendHead.pending
    rw [order.exact, pending, pending, packets, tail, head, segment_pop _ some]
    simp

theorem InOrder.enqueue (order : s.InOrder) {packet : TxPacket} (nic : t.nic = s.nic.enqueue packet)
    (head : t.tdh = s.tdh) (sent : t.sent = s.sent) (accepted : t.accepted = s.accepted ++ [packet]) :
    t.InOrder ↔ s.nic.tdt + 1 ≠ s.tdh := by
  have pool : t.nic.txDescPool =
      update s.nic.txDescPool s.nic.tdt ⟨packet.addr, packet.length, false⟩ := by
    rw [nic]
    rfl
  have tail : t.nic.tdt = s.nic.tdt + 1 := by
    rw [nic]
    rfl
  constructor
  · -- A ring that is full to the last descriptor looks empty to the card.
    intro after met
    have undone := after.undone s.nic.tdt
    rw [pool, tail, head, met] at undone
    simp [not_between_self] at undone
  · intro room
    constructor
    · intro i
      rw [pool, tail, head, between_push room, ← order.undone]
      by_cases here : i = s.nic.tdt <;> simp [here]
    · have packets : (fun i => (t.nic.txDescPool i).packet) =
          update (fun i => (s.nic.txDescPool i).packet) s.nic.tdt packet := by
        funext i
        rw [pool]
        by_cases here : i = s.nic.tdt <;> simp [here, TxDesc.packet]
      rw [accepted, sent, order.exact, pending, pending, packets, tail, head, segment_push _ room,
        List.append_assoc]

theorem step_inOrder {e : TxEvent} (order : s.InOrder) (next : s.step e = some t) :
    t.InOrder ↔ s.Roomy e := by
  cases e with
  | transmit cur data len =>
    simp only [step] at next
    split at next
    next k r returned =>
      cases next
      rcases Kernel.e1000Transmit_cases returned with ⟨rfl, negative, refused⟩ |
        ⟨addr, walked, ring, -, rfl, done, fits⟩
      · have roomy : s.Roomy (.transmit cur data len) := fun done fits => absurd ⟨done, fits⟩ refused
        simp only [taken, negative, if_true, List.append_nil, roomy, iff_true]
        exact order
      · have packet : s.taken cur data len k.nic.tailIndex = [⟨addr, len⟩] := by
          simp [taken, Nic.msb_tailIndex, walked, Except.toOption]
        rw [packet]
        apply (order.enqueue (t := { s with kernel := k, accepted := _ }) ring rfl rfl rfl).trans
        exact ⟨fun room _ _ => room, fun roomy => roomy done fits⟩
    · cases next
  | card =>
    simp only [step] at next
    split at next
    · cases next
    next some =>
      cases next
      exact iff_of_true (order.sendHead some) trivial
  | others k =>
    cases next
    exact iff_of_true ⟨order.undone, order.exact⟩ trivial

theorem inOrder_of_run {es : List TxEvent} (attached : s.Attached) (run : Run step Roomy s es t) :
    t.InOrder :=
  run.invariant (motive := InOrder) attached.inOrder fun _ _ _ order roomy next =>
    (step_inOrder order next).mpr roomy

theorem InOrder.drains (order : s.InOrder) :
    ∃ t, Run step Roomy s (List.replicate s.pending.length .card) t ∧ t.sent = s.accepted := by
  generalize size : s.pending.length = n
  induction n generalizing s with
  | zero =>
    have none := List.length_eq_zero_iff.mp size
    exact ⟨s, .nil s, by simp [order.exact, none]⟩
  | succ n ih =>
    have some : s.tdh ≠ s.nic.tdt := fun met => by simp [pending, met] at size
    have after := order.sendHead some
    have fewer : s.sendHead.pending.length = n := by
      have all : s.accepted = s.sent ++ [(s.nic.txDescPool s.tdh).packet] ++ s.sendHead.pending :=
        after.exact
      have count := congrArg List.length (order.exact.symm.trans all)
      simp only [List.length_append, List.length_singleton] at count
      omega
    obtain ⟨t, run, sent⟩ := ih after fewer
    have first : Run step Roomy s [.card] s.sendHead := .single trivial (if_neg some)
    exact ⟨t, first.trans run, sent⟩

theorem InOrder.awake (order : s.InOrder) (unsent : s.accepted ≠ s.sent) : s.tdh ≠ s.nic.tdt := by
  intro met
  apply unsent
  simpa [pending, met] using order.exact

theorem transmits_in_order {es : List TxEvent} (attached : s.Attached) (run : Run step Roomy s es t) :
    t.InOrder ∧ (t.accepted ≠ t.sent → t.tdh ≠ t.nic.tdt) ∧
      (∃ u, Run step Roomy t (List.replicate t.pending.length .card) u ∧ u.sent = t.accepted) ∧
      ∀ e u, t.step e = some u → (u.InOrder ↔ t.Roomy e) := by
  have order := inOrder_of_run attached run
  exact ⟨order, order.awake, order.drains, fun e u next => step_inOrder order next⟩

section Demo

instance (s : TxSystem) (e : TxEvent) : Decidable (s.Roomy e) :=
  match e with
  | .transmit _ _ _ => inferInstanceAs (Decidable (_ → _ → _))
  | .card | .others _ => isTrue trivial

def demo : TxSystem where
  kernel := { Kern.demo with toTable := Kern.demo.setEnv 0 { zeroEnv with envPgdir := some 1 } }
  tdh := 0
  accepted := []
  sent := []

theorem demo_attached : demo.Attached := ⟨rfl, rfl, fun _ => rfl, rfl, rfl⟩

def send : TxEvent := .transmit 0 0xf0000008 60

theorem transmits_in_order_two : ∃ t, Run step Roomy demo [send, send, .card] t ∧ t.InOrder ∧
    t.accepted = [⟨8, 60⟩, ⟨8, 60⟩] ∧ t.sent = [⟨8, 60⟩] := by
  refine Run.of_exec_imp (p := fun t => t.accepted = [⟨8, 60⟩, ⟨8, 60⟩] ∧ t.sent = [⟨8, 60⟩])
    (by decide +kernel) ?_
  rintro t run ⟨accepted, sent⟩
  exact ⟨(transmits_in_order demo_attached run).1, accepted, sent⟩

-- Sixty-four packets are accepted before the card moves: none is sent, and to the card the ring is
-- empty.
theorem transmit_fills_ring : ∃ t, Run step (fun _ _ => True) demo (List.replicate 64 send) t ∧
    t.accepted.length = 64 ∧ t.sent = [] ∧ t.tdh = t.nic.tdt ∧ t.step .card = none := by
  refine Run.of_exec_imp (p := fun t => t.accepted.length = 64 ∧ t.sent = [] ∧ t.tdh = t.nic.tdt)
    (by decide +kernel) ?_
  rintro t run ⟨accepted, sent, met⟩
  exact ⟨accepted, sent, met, if_pos met⟩

end Demo

end TxSystem

end Jos.Kern
