import Jos.Kern.Space

namespace Jos.Kern.Pmap

-- May an access go through this directory or page-table entry? `CR0_WP` is set, so the kernel heeds
-- `PTE_W` as well.
def permits (pte : Word) (write user : Bool) : Bool :=
  pte &&& pteP ≠ 0 && (!write || pte &&& pteW ≠ 0) && (!user || pte &&& pteU ≠ 0)

def translate (vm : Pmap) (g : Nat) (va : Word) (write user : Bool) : Option Nat :=
  let pde := vm.mem g (pdx va)
  let pte := vm.mem (pgnum pde) (ptx va)
  if permits pde write user && permits pte write user then some (pgnum pte) else none

def wordIndex (va : Word) : Index := Fin.ofNat 1024 (va.toNat / 4)
def byteShift (va : Word) : Nat := 8 * (va.toNat % 4)

def putByte (word : Word) (shift : Nat) (value : Byte) : Word :=
  (word &&& ~~~(0xFF#32 <<< shift)) ||| (value.setWidth 32 <<< shift)

def loadByte (vm : Pmap) (g : Nat) (va : Word) : Except Panic Byte :=
  match vm.translate g va false false with
  | none => .error .kernelFault
  | some p => .ok ((vm.mem p (wordIndex va) >>> byteShift va).setWidth 8)

def pokeByte (vm : Pmap) (p : Nat) (va : Word) (value : Byte) : Pmap :=
  vm.store (p, wordIndex va) (putByte (vm.mem p (wordIndex va)) (byteShift va) value)

def storeByte (vm : Pmap) (g : Nat) (va : Word) (value : Byte) : Except Panic Pmap :=
  match vm.translate g va true false with
  | none => .error .kernelFault
  | some p => .ok (vm.pokeByte p va value)

def loadWord (vm : Pmap) (g : Nat) (va : Word) : Except Panic Word := do
  let b0 ← vm.loadByte g va
  let b1 ← vm.loadByte g (va + 1)
  let b2 ← vm.loadByte g (va + 2)
  let b3 ← vm.loadByte g (va + 3)
  .ok (b3 ++ b2 ++ b1 ++ b0)

def storeBytes (vm : Pmap) (g : Nat) (va : Word) (bytes : List Byte) : Except Panic Pmap :=
  bytes.zipIdx.foldlM (fun vm pair => vm.storeByte g (va + BitVec.ofNat 32 pair.2) pair.1) vm

def bytesOf (word : Word) : List Byte :=
  [word.setWidth 8, (word >>> 8).setWidth 8, (word >>> 16).setWidth 8, (word >>> 24).setWidth 8]

def userStore (vm : Pmap) (g : Nat) (va : Word) (value : Byte) : Option Pmap :=
  (vm.translate g va true true).map fun p => vm.pokeByte p va value

end Jos.Kern.Pmap
