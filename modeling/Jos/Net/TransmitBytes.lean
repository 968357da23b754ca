import Jos.Net.TransmitRing
import Jos.Kern.UserMem

namespace Jos.Kern

open Jos.Shared

namespace Pmap

def pageByte (vm : Pmap) (p off : Nat) : Byte :=
  (vm.mem p (Fin.ofNat 1024 (off / 4)) >>> (8 * (off % 4))).setWidth 8

def byteAt (vm : Pmap) (pa : Nat) : Byte := vm.pageByte (pa / 4096) (pa % 4096)

variable {vm : Pmap} {g : Nat}

theorem loadByte_eq (va : Word) : vm.loadByte g va =
    match vm.translate g va false false with
    | none => .error .kernelFault
    | some p => .ok (vm.pageByte p (va.toNat % 4096)) := by
  have word : wordIndex va = Fin.ofNat 1024 (va.toNat % 4096 / 4) := by
    apply Fin.ext
    show va.toNat / 4 % 1024 = va.toNat % 4096 / 4 % 1024
    omega
  have shift : byteShift va = 8 * (va.toNat % 4096 % 4) := by
    rw [byteShift]
    omega
  unfold loadByte
  cases vm.translate g va false false with
  | none => rfl
  | some p => exact congrArg Except.ok (by rw [word, shift]; rfl)

theorem translate_congr {a b : Word} (same : a.toNat / 4096 = b.toNat / 4096) (write user : Bool) :
    vm.translate g a write user = vm.translate g b write user := by
  have directory : pdx a = pdx b := by
    apply Fin.ext
    rw [val_pdx, val_pdx]
    omega
  have table : ptx a = ptx b := by
    apply Fin.ext
    rw [val_ptx, val_ptx]
    omega
  rw [translate, translate, directory, table]

theorem translate_read (va : Word) : vm.translate g va false false =
    if vm.pdeAt g va &&& pteP ≠ 0 ∧ vm.pteAt g va &&& pteP ≠ 0 then some (pgnum (vm.pteAt g va))
    else none := by
  unfold translate
  dsimp only
  simp only [permits, Bool.not_false, Bool.true_or, Bool.and_true, Bool.and_eq_true, decide_eq_true_eq]
  rfl

theorem loadWord_zero : (∃ word, vm.loadWord g 0 = .ok word) ↔ (vm.translate g 0 false false).isSome := by
  unfold loadWord
  simp only [loadByte_eq]
  rw [translate_congr (a := 0 + 1) (b := 0) (by decide),
    translate_congr (a := 0 + 2) (b := 0) (by decide),
    translate_congr (a := 0 + 3) (b := 0) (by decide)]
  cases vm.translate g 0 false false with
  | none => exact iff_of_false (fun ⟨_, read⟩ => nomatch read) nofun
  | some p => exact iff_of_true ⟨_, rfl⟩ rfl

end Pmap

namespace Kernel

variable {s : Kernel} {c g : Nat} {cur : Slot} {data len : Word}

def Sends (s : Kernel) (g : Nat) (data len : Word) (desc : TxDesc) : Prop :=
  len.toNat ≤ txPacketSize.toNat ∧ desc.length.toNat = len.toNat ∧
    ∀ i < len.toNat, s.vm.loadByte g (data + BitVec.ofNat 32 i) = .ok (s.vm.byteAt (desc.addr.toNat + i))

def FollowsNull (s : Kernel) (g : Nat) (data len : Word) : Prop :=
  s.nic.tail.done = true ∧ len.setWidth 16 ≤ txPacketSize ∧ s.vm.pdeAt g data &&& pteP = 0

def Transmits (s : Kernel) (c : Nat) (cur : Slot) (g : Nat) (data len : Word) : Prop :=
  ∃ s' w, s.sysTryTransmit c cur data len = .ok (s', w) ∧
    if w.msb then ¬s.FollowsNull g data len else s.Sends g data len (s'.nic.txDescPool s.nic.tdt)

def Adjoins (vm : Pmap) (g : Nat) (data len : Word) : Prop :=
  4096 < data.toNat % 4096 + len.toNat → ∃ q, vm.translate g (data + 4096) false false = some q ∧
    ∀ k < data.toNat % 4096 + len.toNat - 4096,
      vm.pageByte q k = vm.pageByte (pgnum (vm.pteAt g data) + 1) k

def Sendable (vm : Pmap) (g : Nat) (data len : Word) : Prop :=
  len.toNat ≤ txPacketSize.toNat ∧
    if len = 0 then vm.pdeAt g data &&& pteP ≠ 0 ∨ (vm.translate g 0 false false).isSome
    else (vm.translate g data false false).isSome ∧ Adjoins vm g data len

section Address

theorem toNat_txAddr (pte data : Word) :
    (pteAddr pte + pgoff data).toNat = pgnum pte * 4096 + data.toNat % 4096 := by
  have bound := pgnum_lt pte
  have frame : (pteAddr pte).toNat = pgnum pte * 4096 := by
    rw [pteAddr_eq, page2pa, BitVec.toNat_shiftLeft, BitVec.toNat_ofNat, Nat.shiftLeft_eq]
    omega
  have off : (pgoff data).toNat = data.toNat % 4096 := by
    rw [pgoff, BitVec.toNat_and]
    exact Nat.and_two_pow_sub_one_eq_mod data.toNat 12
  rw [BitVec.toNat_add, frame, off]
  omega

variable {i : Nat}

theorem loadByte_here (mapped : (s.vm.translate g data false false).isSome)
    (here : data.toNat % 4096 + i < 4096) : s.vm.loadByte g (data + BitVec.ofNat 32 i) =
      .ok (s.vm.byteAt ((pteAddr (s.vm.pteAt g data) + pgoff data).toNat + i)) := by
  have bound := data.isLt
  have place : (data + BitVec.ofNat 32 i).toNat = data.toNat + i := by
    rw [BitVec.toNat_add, BitVec.toNat_ofNat]
    omega
  have same : (data + BitVec.ofNat 32 i).toNat / 4096 = data.toNat / 4096 := by omega
  rw [Pmap.translate_read] at mapped
  rw [Pmap.loadByte_eq, Pmap.translate_congr same, Pmap.translate_read]
  split at mapped
  next present =>
    rw [if_pos present, Pmap.byteAt, toNat_txAddr, place]
    dsimp only
    congr 2 <;> omega
  · cases mapped

theorem loadByte_next (beyond : 4096 ≤ data.toNat % 4096 + i) (near : data.toNat % 4096 + i < 8192) :
    s.vm.loadByte g (data + BitVec.ofNat 32 i) =
        .ok (s.vm.byteAt ((pteAddr (s.vm.pteAt g data) + pgoff data).toNat + i)) ↔
      ∃ q, s.vm.translate g (data + 4096) false false = some q ∧
        s.vm.pageByte q (data.toNat % 4096 + i - 4096) =
          s.vm.pageByte (pgnum (s.vm.pteAt g data) + 1) (data.toNat % 4096 + i - 4096) := by
  have bound := data.isLt
  have place : (data + BitVec.ofNat 32 i).toNat = (data.toNat + i) % 2 ^ 32 := by
    rw [BitVec.toNat_add, BitVec.toNat_ofNat]
    omega
  have page : (data + 4096).toNat = (data.toNat + 4096) % 2 ^ 32 := BitVec.toNat_add _ _
  have same : (data + BitVec.ofNat 32 i).toNat / 4096 = (data + 4096).toNat / 4096 := by omega
  have off : (data + BitVec.ofNat 32 i).toNat % 4096 = data.toNat % 4096 + i - 4096 := by omega
  have frame : (pgnum (s.vm.pteAt g data) * 4096 + data.toNat % 4096 + i) / 4096 =
    pgnum (s.vm.pteAt g data) + 1 := by omega
  have rest : (pgnum (s.vm.pteAt g data) * 4096 + data.toNat % 4096 + i) % 4096 = data.toNat %
    4096 + i - 4096 := by omega
  rw [Pmap.loadByte_eq, Pmap.translate_congr same, Pmap.byteAt, toNat_txAddr, off, frame, rest]
  cases s.vm.translate g (data + 4096) false false with
  | none => exact iff_of_false nofun nofun
  | some q => simp

end Address

theorem loadByte_first (data : Word) (refused : ¬(s.vm.translate g data false false).isSome) :
    s.vm.loadByte g (data + BitVec.ofNat 32 0) = .error .kernelFault := by
  have none_ : s.vm.translate g data false false = none := by simpa using refused
  rw [BitVec.add_zero, Pmap.loadByte_eq, none_]

theorem sends_iff (present : s.vm.pdeAt g data &&& pteP ≠ 0) (fits : len.setWidth 16 ≤ txPacketSize) :
    s.Sends g data len ⟨pteAddr (s.vm.pteAt g data) + pgoff data, len.setWidth 16, false⟩ ↔
      Sendable s.vm g data len := by
  have small : len.toNat % 65536 ≤ 1518 := by simpa [BitVec.le_def, txPacketSize] using fits
  have width : (len.setWidth 16).toNat = len.toNat % 65536 := BitVec.toNat_setWidth ..
  have size : txPacketSize.toNat = 1518 := rfl
  unfold Sends Sendable
  rw [width, size]
  refine and_congr_right fun short => ?_
  rw [and_iff_right (by omega)]
  by_cases empty : len = 0
  · rw [if_pos empty]
    refine iff_of_true (fun i less => ?_) (.inl present)
    rw [empty] at less
    cases less
  · have some_ : 0 < len.toNat := Nat.pos_of_ne_zero fun zero => empty (BitVec.eq_of_toNat_eq zero)
    rw [if_neg empty]
    by_cases mapped : (s.vm.translate g data false false).isSome
    · rw [and_iff_right mapped]
      constructor
      · intro all crosses
        have last := (loadByte_next (i := len.toNat - 1) (by omega) (by omega)).mp (all _ (by omega))
        obtain ⟨q, found, -⟩ := last
        refine ⟨q, found, fun k below => ?_⟩
        obtain ⟨q', found', same⟩ :=
          (loadByte_next (i := k + 4096 - data.toNat % 4096) (by omega) (by omega)).mp
          (all _ (by omega))
        have offset : data.toNat % 4096 + (k + 4096 - data.toNat % 4096) - 4096 = k := by omega
        rw [offset] at same
        cases found.symm.trans found'
        exact same
      · intro adjoins i less
        by_cases here : data.toNat % 4096 + i < 4096
        · exact loadByte_here mapped here
        · obtain ⟨q, found, same⟩ := adjoins (by omega)
          exact (loadByte_next (by omega) (by omega)).mpr ⟨q, found, same _ (by omega)⟩
    · refine iff_of_false (fun all => ?_) fun both => mapped both.1
      have first := all 0 some_
      rw [loadByte_first data mapped] at first
      cases first

theorem sends_none (absent : s.vm.pdeAt g data &&& pteP = 0) (word : Word)
    (zero : s.vm.loadWord g 0 = .ok word) (desc : TxDesc) (length : desc.length = len.setWidth 16) :
    s.Sends g data len desc ↔ Sendable s.vm g data len := by
  have refused : ¬(s.vm.translate g data false false).isSome := by
    rw [Pmap.translate_read, if_neg fun both => both.1 absent]
    nofun
  unfold Sends Sendable
  refine and_congr_right fun short => ?_
  by_cases empty : len = 0
  · rw [if_pos empty]
    refine iff_of_true ⟨?_, fun i less => ?_⟩ (.inr (Pmap.loadWord_zero.mp ⟨word, zero⟩))
    · rw [length, empty]
      rfl
    · rw [empty] at less
      cases less
  · have some_ : 0 < len.toNat := Nat.pos_of_ne_zero fun zero => empty (BitVec.eq_of_toNat_eq zero)
    rw [if_neg empty]
    refine iff_of_false (fun both => ?_) fun both => refused both.1
    have first := both.2 0 some_
    rw [loadByte_first data refused] at first
    cases first

section Call

variable (own : (s.envs cur).envPgdir = some g)
include own

theorem userMemAssert_pass (passed : s.vm.userMemCheckAddr g data pteU len = .ok none) :
    s.userMemAssert c cur data len 0 = .ok (s.note (.check cur data len 0 true)) := by
  have check : s.vm.userMemCheck g data len (0 ||| pteU) = .ok true := by
    rw [Pmap.userMemCheck_eq, show (0 : Word) ||| pteU = pteU from rfl, passed]
    rfl
  unfold userMemAssert
  rw [pgdir, own]
  simp only [bind, Except.bind, check, readVm, if_true]

theorem userMemAssert_fail (current : s.curenv c = some cur) {addr : Word}
    (failed : s.vm.userMemCheckAddr g data pteU len = .ok (some addr)) :
    ∃ exit, s.userMemAssert c cur data len 0 = .error exit := by
  have check : s.vm.userMemCheck g data len (0 ||| pteU) = .ok false := by
    rw [Pmap.userMemCheck_eq, show (0 : Word) ||| pteU = pteU from rfl, failed]
    rfl
  have destroys : s.userMemAssert c cur data len 0 =
    (s.note (.check cur data len 0 false)).envDestroy c cur := by
    unfold userMemAssert
    rw [pgdir, own]
    simp only [bind, Except.bind, check, readVm, Bool.false_eq_true, if_false]
  rw [destroys]
  have leaves := envDestroy_current (s.note (.check cur data len 0 false))
    ⟨s.note (.check cur data len 0 false), c, some cur, .other⟩ cur (.inl rfl) rfl current
  cases ended : (s.note (.check cur data len 0 false)).envDestroy c cur with
  | error exit => exact ⟨exit, rfl⟩
  | ok s' =>
    rw [ended] at leaves
    exact leaves.elim

theorem txAddr_eq (walkable : s.vm.Walkable g) : s.txAddr cur data =
    if s.vm.pdeAt g data &&& pteP = 0 then s.readVm (s.vm.loadWord g 0) >>= fun pte =>
    .ok (pteAddr pte + pgoff data) else .ok (pteAddr (s.vm.pteAt g data) + pgoff data) := by
  have directory : s.pgdir cur = .ok g := by rw [pgdir, own]
  unfold txAddr
  simp only [directory, bind, Except.bind]
  rw [Pmap.pgdirWalk_eq walkable]
  by_cases absent : s.vm.pdeAt g data &&& pteP = 0
  · rw [if_pos absent, if_pos absent]
    rfl
  · rw [if_neg absent, if_neg absent]
    rfl

theorem transmits_iff (walkable : s.vm.Walkable g)
    (passed : s.vm.userMemCheckAddr g data pteU len = .ok none) (room : s.nic.tail.done = true)
    (fits : len.setWidth 16 ≤ txPacketSize) : s.Transmits c cur g data len ↔
    Sendable s.vm g data len := by
  let noted := s.note (.check cur data len 0 true)
  have call : s.sysTryTransmit c cur data len = noted.e1000Transmit cur data (len.setWidth 16) := by
    unfold sysTryTransmit
    rw [userMemAssert_pass own passed]
    rfl
  -- The packet is accepted as soon as there is an address for it.
  have accepts : ∀ addr, noted.txAddr cur data = .ok addr →
      (s.Transmits c cur g data len ↔ s.Sends g data len ⟨addr, len.setWidth 16, false⟩) := by
    intro addr found
    have answer : noted.e1000Transmit cur data (len.setWidth 16) =
        .ok ({ noted.note (.read data ((len.setWidth 16).setWidth 32)) with
            nic := s.nic.enqueue ⟨addr, len.setWidth 16⟩ },
          (s.nic.enqueue ⟨addr, len.setWidth 16⟩).tailIndex) := by
      rw [e1000Transmit_accept (s := noted) room fits, found]
      rfl
    have filled : (s.nic.enqueue ⟨addr, len.setWidth 16⟩).txDescPool s.nic.tdt =
      ⟨addr, len.setWidth 16, false⟩ :=
      Function.update_self ..
    constructor
    · rintro ⟨s', w, returned, right⟩
      cases (call.trans answer).symm.trans returned
      rw [if_neg (by simp [Nic.msb_tailIndex])] at right
      exact filled ▸ right
    · intro right
      refine ⟨_, _, call.trans answer, ?_⟩
      rw [if_neg (by simp [Nic.msb_tailIndex])]
      exact filled.symm ▸ right
  by_cases present : s.vm.pdeAt g data &&& pteP = 0
  · have found : noted.txAddr cur data = _ := (txAddr_eq (s := noted) own walkable).trans (if_pos present)
    cases zero : s.vm.loadWord g 0 with
    | ok word =>
      rw [show noted.vm.loadWord g 0 = .ok word from zero] at found
      exact (accepts _ found).trans (sends_none present word zero _ rfl)
    | error why =>
      -- The kernel faults.
      have faults : s.sysTryTransmit c cur data len = .error (.panic why noted) := by
        rw [call, e1000Transmit_accept (s := noted) room fits, found,
          show noted.vm.loadWord g 0 = .error why from zero]
        rfl
      refine iff_of_false ?_ fun sendable => ?_
      · rintro ⟨s', w, returned, -⟩
        cases faults.symm.trans returned
      · have unread : ¬(s.vm.translate g 0 false false).isSome := by
          rw [← Pmap.loadWord_zero, zero]
          rintro ⟨word, read⟩
          cases read
        have unmapped : ¬(s.vm.translate g data false false).isSome := by
          rw [Pmap.translate_read, if_neg fun both => both.1 present]
          nofun
        have rest := sendable.2
        split at rest
        · exact rest.elim (fun there => there present) unread
        · exact unmapped rest.1
  · have found : noted.txAddr cur data = _ := (txAddr_eq (s := noted) own walkable).trans (if_neg present)
    exact (accepts _ found).trans (sends_iff present fits)

theorem transmits_refused (passed : s.vm.userMemCheckAddr g data pteU len = .ok none)
    (refused : ¬(s.nic.tail.done = true ∧ len.setWidth 16 ≤ txPacketSize)) :
    s.Transmits c cur g data len := by
  obtain ⟨err, which, answer⟩ :=
    (s.note (.check cur data len 0 true)).e1000Transmit_refuse cur data refused
  refine ⟨s.note (.check cur data len 0 true), err.code, ?_, ?_⟩
  · unfold sysTryTransmit
    rw [userMemAssert_pass own passed]
    exact answer
  · have negative : err.code.msb = true := by
      rcases which with rfl | rfl <;> decide
    rw [if_pos negative]
    exact fun follows => refused ⟨follows.1, follows.2.1⟩

end Call

theorem try_transmit_right_iff (current : s.curenv c = some cur) (own : (s.envs cur).envPgdir = some g)
    (walkable : s.vm.Walkable g) (data len : Word) :
    s.Transmits c cur g data len ↔ s.vm.userMemCheckAddr g data pteU len = .ok none ∧
      (s.nic.tail.done = false ∨ txPacketSize < len.setWidth 16 ∨ Sendable s.vm g data len) := by
  obtain ⟨r, checked⟩ := Pmap.userMemCheckAddr_returns walkable data pteU len
  cases r with
  | some addr =>
    refine iff_of_false ?_ fun both => nomatch checked.symm.trans both.1
    rintro ⟨s', w, returned, -⟩
    obtain ⟨exit, leaves⟩ := userMemAssert_fail own current checked
    unfold sysTryTransmit at returned
    rw [leaves] at returned
    cases returned
  | none =>
    rw [and_iff_right checked]
    by_cases accepted : s.nic.tail.done = true ∧ len.setWidth 16 ≤ txPacketSize
    · have room : ¬s.nic.tail.done = false := by simp [accepted.1]
      have large : ¬txPacketSize < len.setWidth 16 := BitVec.not_lt.mpr accepted.2
      rw [transmits_iff own walkable checked accepted.1 accepted.2, or_iff_right room, or_iff_right large]
    · refine iff_of_true (transmits_refused own checked accepted) ?_
      by_cases room : s.nic.tail.done = true
      · exact .inr (.inl (BitVec.not_le.mp fun fits => accepted ⟨room, fits⟩))
      · exact .inl (by simpa using room)

section Demo

def sender : Kernel where
  toTable := (demo.setEnv 0 { zeroEnv with envPgdir := some 1 }).setCpu 0 ⟨.user, some 0⟩
  vm :=
    { npages := 16
      pseSupport := 0
      kernPgdir := 0
      pages := fun _ => ⟨none, 0⟩
      pageFreeList := none
      mem := fun p k =>
        if p = 1 ∧ k = 0 then Kern.entry 2 (pteU ||| pteW)
        else if p = 2 ∧ k = 5 then Kern.entry 3 (pteU ||| pteW)
        else if p = 2 ∧ 5 < k.val then Kern.entry 7 (pteU ||| pteW)
        else if p = 4 then 1
        else 0 }
  nic := demo.nic
  trace := []

theorem sender_walkable : sender.vm.Walkable 1 where
  small := by decide
  tables d present := by
    revert present
    simp only [sender]
    split
    · decide
    · simp

theorem try_transmit_right_once : sender.Transmits 0 0 1 0x5010 60 := by
  refine (try_transmit_right_iff rfl rfl sender_walkable 0x5010 60).mpr
    ⟨by decide, .inr (.inr ⟨by decide, ?_⟩)⟩
  rw [if_neg (by decide)]
  exact ⟨by decide, fun crosses => absurd crosses (by decide)⟩

-- Two bytes at the end of a page, a length of which only the low half is used, and no bytes at an
-- address that has no page table.
theorem try_transmit_wrong :
    ¬sender.Transmits 0 0 1 0x5FFF 2 ∧ ¬sender.Transmits 0 0 1 0x5010 65536 ∧
    ¬sender.Transmits 0 0 1 0x400000 0 := by
  have answers : ∀ {data len s' w}, sender.sysTryTransmit 0 0 data len = .ok (s', w) →
      (sender.sysTryTransmit 0 0 data len).toOption.map (fun r => (r.2.msb, r.1.nic.txDescPool 0)) =
        some (w.msb, s'.nic.txDescPool 0) := by
    intro data len s' w returned
    rw [returned]
    rfl
  refine ⟨?_, ?_, ?_⟩
  · rintro ⟨s', w, returned, right⟩
    have answer : some (w.msb, s'.nic.txDescPool 0) = some (false, ⟨0x3FFF, 2, false⟩) :=
      (answers returned).symm.trans (by decide +kernel)
    rw [Option.some_inj, Prod.mk.injEq] at answer
    rw [answer.1, if_neg (by decide), show sender.nic.tdt = 0 from rfl, answer.2] at right
    exact absurd (right.2.2 1 (by decide)) (by decide +kernel)
  · rintro ⟨s', w, returned, right⟩
    have answer : some (w.msb, s'.nic.txDescPool 0) = some (false, ⟨0x3010, 0, false⟩) :=
      (answers returned).symm.trans (by decide +kernel)
    rw [Option.some_inj, Prod.mk.injEq] at answer
    rw [answer.1, if_neg (by decide)] at right
    exact absurd right.1 (by decide)
  · rintro ⟨s', w, returned, right⟩
    have answer : some (w.msb, s'.nic.txDescPool 0) = none :=
      (answers returned).symm.trans (by decide +kernel)
    cases answer

end Demo

end Kernel

end Jos.Kern
