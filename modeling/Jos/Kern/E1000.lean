import Jos.Kern.Env

namespace Jos.Kern.Kernel

def loadWords (s : Kernel) (cur : Slot) (va : Word) (count : Nat) : Except Exit (Kernel × List Word) := do
  let s := s.note (.read va (BitVec.ofNat 32 (4 * count)))
  let g ← s.pgdir cur
  let words ← s.readVm ((List.range count).mapM fun k => s.vm.loadWord g (va + BitVec.ofNat 32 (4 * k)))
  .ok (s, words)

def loadByte (s : Kernel) (cur : Slot) (va : Word) : Except Exit (Kernel × Byte) := do
  let s := s.note (.read va 1)
  let g ← s.pgdir cur
  let byte ← s.readVm (s.vm.loadByte g va)
  .ok (s, byte)

def storeBytes (s : Kernel) (cur : Slot) (va : Word) (bytes : List Byte) : Except Exit Kernel := do
  let s := s.note (.write va (BitVec.ofNat 32 bytes.length))
  let g ← s.pgdir cur
  s.updateVm (s.vm.storeBytes g va bytes)

def storeWord (s : Kernel) (cur : Slot) (va word : Word) : Except Exit Kernel :=
  s.storeBytes cur va (Pmap.bytesOf word)

def scanString (s : Kernel) (cur : Slot) (va : Word) (limit : Option Nat) : Nat → Except Exit Kernel
  | 0 => .error (.panic .endlessString s)
  | fuel + 1 => do
    let (s, ch) ← s.loadByte cur va
    if ch = 0 ∨ limit = some 0 then .ok s
    else s.scanString cur (va + 1) (limit.map (· - 1)) fuel

def txPacketSize : BitVec 16 := 1518

def e1000Transmit (s : Kernel) (cur : Slot) (data : Word) (len : BitVec 16) :
    Except Exit (Kernel × Word) :=
  let tailIndex := s.nic.tdt
  if (s.nic.txDescPool tailIndex).done = false then
    .ok (s, Errno.txPoolFull.code)
  else if txPacketSize < len then
    .ok (s, Errno.inval.code)
  else do
    let g ← s.pgdir cur
    -- `pgdir_walk` may return NULL, and the code reads through it.
    let pte ← match ← s.readVm (s.vm.pgdirWalk g data false) with
      | (vm, some ptr) => .ok (vm.load ptr)
      | (vm, none) => s.readVm (vm.loadWord g 0)
    let s := s.note (.read data (len.setWidth 32))
    let next := tailIndex + 1
    let desc : TxDesc := { addr := pteAddr pte + pgoff data, length := len, done := false }
    let nic := { s.nic with txDescPool := Function.update s.nic.txDescPool tailIndex desc, tdt := next }
    let more := if (nic.txDescPool next).done then (1#32 <<< 30) else 0
    .ok ({ s with nic := nic }, BitVec.ofNat 32 next ||| more)

def e1000Receive (s : Kernel) (cur : Slot) (bufIdx : Word) : Except Exit (Kernel × Word) :=
  let head := s.nic.recHeadIndex
  if (s.nic.rxDescPool head).done = false then
    .ok (s, Errno.rxPoolEmpty.code)
  else do
    let s ← s.storeWord cur bufIdx (BitVec.ofNat 32 head)
    .ok (s, (s.nic.rxDescPool head).length.setWidth 32)

def e1000FreeRxBuf (s : Kernel) : Kernel :=
  let head := s.nic.recHeadIndex
  let desc := { s.nic.rxDescPool head with done := false }
  { s with nic := { s.nic with
      rxDescPool := Function.update s.nic.rxDescPool head desc
      rdt := s.nic.rdt + 1
      recHeadIndex := head + 1 } }

def icrTXDW : Word := 0x01
def icrRXT0 : Word := 0x80

def helpers (s : Kernel) : Int × Int :=
  if s.nic.outNs ≤ 0 ∨ s.nic.inNs ≤ 0 then (s.envFindByType .outNs, s.envFindByType .inNs)
  else (s.nic.outNs, s.nic.inNs)

def wokenBy (helper : Int) (icr cause : Word) : Option Slot :=
  if 0 < helper ∧ icr &&& cause ≠ 0 then some (Fin.ofNat 1024 helper.toNat) else none

def wake (t : Table) : Option Slot → Table
  | some e => t.setStatus e .runnable
  | none => t

def e1000Intr (s : Kernel) (icr : Word) : Kernel :=
  let (outNs, inNs) := s.helpers
  let s := { s with nic := { s.nic with outNs := outNs, inNs := inNs } }
  let s := s.setTable (wake s.toTable (wokenBy outNs icr icrTXDW))
  s.setTable (wake s.toTable (wokenBy inNs icr icrRXT0))

end Jos.Kern.Kernel
