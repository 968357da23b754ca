import Jos.Kern.Mmu

namespace Jos.Kern

open Function

inductive Panic where
  | illegalPageFree
  | invalidPa
  | invalidKva
  | nullPgdir
  | kernelFault
  | endlessString
  | outOfMemory
  | envCreate
  | noCurenv
  | unhandledTrap
  deriving DecidableEq

structure PageInfo where
  ppLink : Option Nat
  ppRef : BitVec 16
  deriving DecidableEq

/-- Physical memory and what `pmap.c` keeps about it. Pages are named by their number; `mem` is the
contents of each physical page, page tables and directories included. -/
structure Pmap where
  npages : Nat
  pseSupport : Byte
  kernPgdir : Nat
  pages : Nat → PageInfo
  pageFreeList : Option Nat
  mem : Nat → Index → Word

namespace Pmap

abbrev Ptr := Nat × Index

def load (vm : Pmap) (ptr : Ptr) : Word := vm.mem ptr.1 ptr.2

def store (vm : Pmap) (ptr : Ptr) (value : Word) : Pmap :=
  { vm with mem := update vm.mem ptr.1 (update (vm.mem ptr.1) ptr.2 value) }

def setPage (vm : Pmap) (pp : Nat) (info : PageInfo) : Pmap :=
  { vm with pages := update vm.pages pp info }

def kaddr (vm : Pmap) (pa : Word) : Except Panic Nat :=
  if vm.npages ≤ pgnum pa then .error .invalidKva else .ok (pgnum pa)

def pa2page (vm : Pmap) (pa : Word) : Except Panic Nat :=
  if vm.npages ≤ pgnum pa then .error .invalidPa else .ok (pgnum pa)

def pageAlloc (vm : Pmap) (allocZero : Bool) : Except Panic (Pmap × Option Nat) :=
  match vm.pageFreeList with
  | none => .ok (vm, none)
  | some page => do
    let vm := { vm with pageFreeList := (vm.pages page).ppLink }.setPage page
      { vm.pages page with ppLink := none }
    if allocZero then
      let kva ← vm.kaddr (page2pa page)
      .ok ({ vm with mem := update vm.mem kva fun _ => 0 }, some page)
    else
      .ok (vm, some page)

def pageFree (vm : Pmap) (pp : Nat) : Except Panic Pmap :=
  if (vm.pages pp).ppRef ≠ 0 ∨ (vm.pages pp).ppLink ≠ none then
    .error .illegalPageFree
  else
    .ok { vm.setPage pp { vm.pages pp with ppLink := vm.pageFreeList } with pageFreeList := some pp }

def pageDecref (vm : Pmap) (pp : Nat) : Except Panic Pmap :=
  let vm := vm.setPage pp { vm.pages pp with ppRef := (vm.pages pp).ppRef - 1 }
  if (vm.pages pp).ppRef = 0 then vm.pageFree pp else .ok vm

def pgdirWalk (vm : Pmap) (pgdir : Nat) (va : Word) (create : Bool) :
    Except Panic (Pmap × Option Ptr) :=
  if vm.pseSupport = 1 ∧ vm.load (pgdir, pdx va) &&& ptePS ≠ 0 then
    .ok (vm, some (pgdir, pdx va))
  else if vm.load (pgdir, pdx va) &&& pteP = 0 then
    if create = false then
      .ok (vm, none)
    else do
      match ← vm.pageAlloc true with
      | (vm, none) => .ok (vm, none)
      | (vm, some newPage) =>
        let vm := vm.setPage newPage { vm.pages newPage with ppRef := 1 }
        let vm := vm.store (pgdir, pdx va) (page2pa newPage ||| pteP ||| pteU ||| pteW)
        let pageTable ← vm.kaddr (pteAddr (vm.load (pgdir, pdx va)))
        .ok (vm, some (pageTable, ptx va))
  else do
    let pageTable ← vm.kaddr (pteAddr (vm.load (pgdir, pdx va)))
    .ok (vm, some (pageTable, ptx va))

def pageLookup (vm : Pmap) (pgdir : Nat) (va : Word) : Except Panic (Option (Nat × Ptr)) := do
  match ← vm.pgdirWalk pgdir va false with
  | (_, none) => .ok none
  | (vm, some pte) =>
    if vm.load pte &&& pteP = 0 then
      .ok none
    else do
      let page ← vm.pa2page (pteAddr (vm.load pte))
      if vm.pseSupport = 1 ∧ vm.load pte &&& ptePS ≠ 0 then
        .ok (some (page + (hughPgoff va).toNat / pgsize, pte))
      else
        .ok (some (page, pte))

def pageRemove (vm : Pmap) (pgdir : Nat) (va : Word) : Except Panic Pmap := do
  match ← vm.pageLookup pgdir va with
  | none => .ok vm
  | some (page, pte) =>
    let vm ← vm.pageDecref page
    .ok (vm.store pte 0)

def pageInsert (vm : Pmap) (pgdir pp : Nat) (va perm : Word) : Except Panic (Pmap × Bool) := do
  match ← vm.pgdirWalk pgdir va true with
  | (vm, none) => .ok (vm, false)
  | (vm, some pte) =>
    if vm.load pte &&& pteP ≠ 0 ∧ pteAddr (vm.load pte) = page2pa pp then
      .ok (vm.store pte (page2pa pp ||| perm ||| pteP), true)
    else do
      let vm ← if vm.load pte &&& pteP ≠ 0 then vm.pageRemove pgdir va else .ok vm
      let vm := vm.setPage pp { vm.pages pp with ppRef := (vm.pages pp).ppRef + 1 }
      .ok (vm.store pte (page2pa pp ||| perm ||| pteP), true)

def userPageOk (vm : Pmap) (pgdir : Nat) (start permissions : Word) : Except Panic Bool := do
  match ← vm.pgdirWalk pgdir start false with
  | (_, none) => .ok false
  | (vm, some pte) => .ok (decide (start < ulim ∧ vm.load pte &&& permissions = permissions))

-- `start` and `end` are multiples of the page size, so the loop runs `(end - start) / PGSIZE`
-- times.
def userMemCheck (vm : Pmap) (pgdir : Nat) (va len perm : Word) : Except Panic Bool :=
  let start := roundDown va 4096
  let stop := roundUp (va + len) 4096
  (List.range ((stop.toNat - start.toNat) / pgsize)).foldlM
    (fun ok k => if ok then vm.userPageOk pgdir (start + BitVec.ofNat 32 (k * pgsize)) (perm ||| pteP)
      else .ok false) true

def freeTable (vm : Pmap) (pgdir : Nat) (pdeno : Index) (pt : Nat) : Except Panic Pmap :=
  indices.foldlM (fun vm pteno =>
    if vm.load (pt, pteno) &&& pteP ≠ 0 then vm.pageRemove pgdir (pgaddr pdeno pteno 0)
    else .ok vm) vm

def freeEntry (vm : Pmap) (pgdir : Nat) (pdeno : Index) : Except Panic Pmap :=
  if vm.load (pgdir, pdeno) &&& pteP = 0 then
    .ok vm
  else do
    let pa := pteAddr (vm.load (pgdir, pdeno))
    let pt ← vm.kaddr pa
    let vm ← vm.freeTable pgdir pdeno pt
    let vm := vm.store (pgdir, pdeno) 0
    let pp ← vm.pa2page pa
    vm.pageDecref pp

def freeUser (vm : Pmap) (pgdir : Nat) : Except Panic Pmap :=
  (indices.filter (·.val < npdUser)).foldlM (fun vm pdeno => vm.freeEntry pgdir pdeno) vm

def freeSpace (vm : Pmap) (pgdir : Nat) : Except Panic Pmap := do
  let vm ← vm.freeUser pgdir
  let pp ← vm.pa2page (page2pa pgdir)
  vm.pageDecref pp

end Pmap

end Jos.Kern
