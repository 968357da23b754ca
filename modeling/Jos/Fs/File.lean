import Jos.Fs.Blocks

namespace Jos.Fs

open Jos.Shared
open Jos.Kern (Word Byte)

def ndirect : Nat := 10
def nindirect : Nat := 1024
def maxnamelen : Nat := 128
def maxfilesize : Nat := (ndirect + nindirect) * 4096

theorem maxfilesize_eq : maxfilesize = 4235264 := rfl

def ftypeDir : Word := 1

structure FilePtr where
  block : Nat
  base : Nat
  deriving DecidableEq

namespace FilePtr

def root : FilePtr := ⟨1, 2⟩

def entry (blk j : Nat) : FilePtr := ⟨blk, 64 * j⟩

def fName (f : FilePtr) : Nat := 4 * f.base
def fSize (f : FilePtr) : Nat := f.base + 32
def fType (f : FilePtr) : Nat := f.base + 33
def fDirect (f : FilePtr) (i : Nat) : Nat := f.base + 34 + i
def fIndirect (f : FilePtr) : Nat := f.base + 44

theorem block_entry (blk j : Nat) : (entry blk j).block = blk := rfl

theorem fName_entry (blk j : Nat) : (entry blk j).fName = 256 * j := by
  simp only [entry, fName]
  omega

end FilePtr

def strEq (blk : Block) (o : Nat) (name : List Byte) : Bool :=
  (name ++ [0]).zipIdx.all fun c => byteAt blk (o + c.2) = c.1

def strcpy (o : Nat) (name : List Byte) (blk : Block) : Block :=
  wordsOf (overwrite (byteAt blk) o (name ++ [0]))

def components (path : List Byte) : List (List Byte) := (path.splitOn 0x2F).filter (· ≠ [])

namespace FsM

section Bitmap

def freeBlock (blockno : Nat) : FsM Unit :=
  if blockno = 0 then throw .zeroBlock
  else do
    let word ← load (2 + blockno / 32768) (blockno / 32 % 1024)
    store (2 + blockno / 32768) (blockno / 32 % 1024) (word ||| 1#32 <<< (blockno % 32))

def allocAt (i : Nat) : FsM (Option Nat) := do
  if ← blockIsFree touch i then do
    let word ← load (2 + i / 32768) (i / 32 % 1024)
    store (2 + i / 32768) (i / 32 % 1024) (word &&& ~~~(1#32 <<< (i % 32)))
    -- Only the first bitmap block is written.
    flushBlock 2
    pure (some i)
  else pure none

def allocBlock : FsM (Option Nat) := do
  let n ← sNblocks
  search allocAt (n - 2) 2

end Bitmap

section Walk

-- `file_block_walk` and `file_get_block` allocate in the same way: a cleared block for the pointer
-- at word `k` of block `b`.
def allocFor (b k : Nat) : FsM (Except Errno Unit) := do
  match ← allocBlock with
  | none => pure (.error .noDisk)
  | some r => do
    store b k (BitVec.ofNat 32 r)
    diskaddr r
    clear r
    diskaddr r
    flushBlock r
    pure (.ok ())

def indirectSlot (f : FilePtr) (filebno : Nat) : FsM (Except Errno (Nat × Nat)) := do
  let indirect ← load f.block f.fIndirect
  diskaddr indirect.toNat
  pure (.ok (indirect.toNat, filebno - ndirect))

def fileBlockWalk (f : FilePtr) (filebno : Nat) (alloc : Bool) : FsM (Except Errno (Nat × Nat)) := do
  if ndirect + nindirect ≤ filebno then pure (.error .inval)
  else if filebno < ndirect then pure (.ok (f.block, f.fDirect filebno))
  else if (← load f.block f.fIndirect) = 0 then
    if alloc then
      match ← allocFor f.block f.fIndirect with
      | .error e => pure (.error e)
      | .ok () => indirectSlot f filebno
    else pure (.error .notFound)
  else indirectSlot f filebno

def follow (b k : Nat) : FsM (Except Errno Nat) := do
  let blockno ← load b k
  diskaddr blockno.toNat
  pure (.ok blockno.toNat)

def getAt (b k : Nat) : FsM (Except Errno Nat) := do
  if (← load b k) = 0 then
    match ← allocFor b k with
    | .error e => pure (.error e)
    | .ok () => follow b k
  else follow b k

def fileGetBlock (f : FilePtr) (filebno : Nat) : FsM (Except Errno Nat) := do
  match ← fileBlockWalk f filebno true with
  | .error e => pure (.error e)
  | .ok (b, k) => getAt b k

end Walk

section Directories

def scanFiles (match? : Block → Nat → Bool) (blk : Nat) : FsM (Option FilePtr) := do
  touch blk
  let s ← get
  pure (((List.range 16).find? fun j => match? (s.content blk) (256 * j)).map (.entry blk))

def scanBlock (dir : FilePtr) (match? : Block → Nat → Bool) (i : Nat) :
    FsM (Option (Except Errno FilePtr)) := do
  match ← fileGetBlock dir i with
  | .error e => pure (some (.error e))
  | .ok blk => do
    let found ← scanFiles match? blk
    pure (found.map .ok)

def scanDir (dir : FilePtr) (match? : Block → Nat → Bool) :
    FsM (Nat × Option (Except Errno FilePtr)) := do
  let size ← load dir.block dir.fSize
  if size.srem 4096 ≠ 0 then throw .assertion
  else do
    let nblock := (size.sdiv 4096).toNat
    let found ← search (scanBlock dir match?) nblock 0
    pure (nblock, found)

def dirLookup (dir : FilePtr) (name : List Byte) : FsM (Except Errno FilePtr) := do
  let (_, found) ← scanDir dir fun blk o => strEq blk o name
  pure (found.getD (.error .notFound))

def dirAllocFile (dir : FilePtr) : FsM (Except Errno FilePtr) := do
  match ← scanDir dir fun blk o => byteAt blk o = 0 with
  | (_, some found) => pure found
  | (nblock, none) => do
    let size ← load dir.block dir.fSize
    store dir.block dir.fSize (size + 4096)
    match ← fileGetBlock dir nblock with
    | .error e => pure (.error e)
    | .ok blk => pure (.ok (.entry blk 0))

/-- What `walk_path` leaves behind: the file, or an error and the directory in which only the last
name is missing. -/
inductive Walked where
  | found (f : FilePtr)
  | failed (e : Errno) (missing : Option (FilePtr × List Byte))

def walkFrom (f : FilePtr) : List (List Byte) → FsM Walked
  | [] => pure (.found f)
  | name :: rest => do
    if maxnamelen ≤ name.length then pure (.failed .badPath none)
    else if (← load f.block f.fType) ≠ ftypeDir then pure (.failed .notFound none)
    else
      match ← dirLookup f name with
      | .error e => pure (.failed e (if e = .notFound ∧ rest = [] then some (f, name) else none))
      | .ok f' => walkFrom f' rest

def walkPath (path : List Byte) : FsM Walked := walkFrom .root (components path)

end Directories

section Sizes

def fileFreeBlock (f : FilePtr) (filebno : Nat) : FsM Unit := do
  match ← fileBlockWalk f filebno false with
  -- The caller prints a warning and goes on.
  | .error _ => pure ()
  | .ok (b, k) => do
    let blockno ← load b k
    if blockno = 0 then pure ()
    else do
      freeBlock blockno.toNat
      store b k 0

def sizeBlocks (size : Word) : Word := (size + 4095).sdiv 4096

def fileTruncateBlocks (f : FilePtr) (newsize : Word) : FsM Unit := do
  let oldNblocks := (sizeBlocks (← load f.block f.fSize)).toNat
  let newNblocks := (sizeBlocks newsize).toNat
  sweep (fileFreeBlock f) (oldNblocks - newNblocks) newNblocks
  if newNblocks ≤ ndirect then do
    let indirect ← load f.block f.fIndirect
    if indirect = 0 then pure ()
    else do
      freeBlock indirect.toNat
      store f.block f.fIndirect 0
  else pure ()

def fileSetSize (f : FilePtr) (newsize : Word) : FsM Unit := do
  let size ← load f.block f.fSize
  if newsize.slt size then fileTruncateBlocks f newsize else pure ()
  store f.block f.fSize newsize
  flushBlock f.block

def extendTo (f : FilePtr) (newsize : Word) : FsM Unit := do
  let size ← load f.block f.fSize
  if size < newsize then fileSetSize f newsize else pure ()

def flushFileBlock (f : FilePtr) (i : Nat) : FsM Unit := do
  match ← fileBlockWalk f i false with
  | .error _ => pure ()
  | .ok (b, k) => do
    let blockno ← load b k
    if blockno = 0 then pure ()
    else do
      diskaddr blockno.toNat
      flushBlock blockno.toNat

def fileFlush (f : FilePtr) : FsM Unit := do
  let size ← load f.block f.fSize
  sweep (flushFileBlock f) (sizeBlocks size).toInt.toNat 0
  flushBlock f.block
  let indirect ← load f.block f.fIndirect
  if indirect = 0 then pure ()
  else do
    diskaddr indirect.toNat
    flushBlock indirect.toNat

def syncBlock (i : Nat) : FsM Unit := do
  diskaddr i
  flushBlock i

def fsSync : FsM Unit := do
  let n ← sNblocks
  sweep syncBlock (n - 1) 1

end Sizes

section Files

def fileOpen (path : List Byte) : FsM (Except Errno FilePtr) := do
  match ← walkPath path with
  | .found f => pure (.ok f)
  | .failed e _ => pure (.error e)

def fileCreate (path : List Byte) : FsM (Except Errno FilePtr) := do
  match ← walkPath path with
  | .found _ => pure (.error .fileExists)
  | .failed .notFound (some (dir, name)) => do
    match ← dirAllocFile dir with
    | .error e => pure (.error e)
    | .ok f => do
      change f.block (strcpy f.fName name)
      fileFlush dir
      pure (.ok f)
  | .failed e _ => pure (.error e)

def pagesOf (a n : Nat) : Nat := if n = 0 then 0 else (a + n - 1) / 4096 - a / 4096 + 1

def loadBytes (a n : Nat) : FsM (List Byte) := do
  sweep touch (pagesOf a n) (a / 4096)
  let s ← get
  pure ((List.range n).map fun i => byteAt (s.content ((a + i) / 4096)) ((a + i) % 4096))

def patch (a : Nat) (bytes : List Byte) (b : Nat) (blk : Block) : Block :=
  wordsOf fun o => if o < 4096
    then overwrite (fun i => byteAt blk (i - 4096 * b)) a bytes (4096 * b + o) else byteAt blk o

def storeBytes (a : Nat) (bytes : List Byte) : FsM Unit :=
  sweep (fun b => change b (patch a bytes b)) (pagesOf a bytes.length) (a / 4096)

end Files

end FsM

abbrev BufM (β : Type) := EStateM Panic (Cache × β)

namespace BufM

variable {α β : Type}

def lift (x : FsM α) : BufM β α := fun (s, buf) =>
  match x s with
  | .ok a s' => .ok a (s', buf)
  | .error why s' => .error why (s', buf)

def wordMin (a b : Word) : Word := if a ≤ b then a else b

def address (blk : Nat) (off : Word) : Nat := (4096 * blk + off.toInt).toNat

-- The loop that `file_read` and `file_write` share: from `pos` to `stop`, block by block. `copy` is
-- given the address in the block cache, the place in the buffer and the number of bytes.
def copyLoop (f : FilePtr) (copy : Nat → Nat → Nat → BufM β Unit) (stop : Word) :
    Nat → Word → Nat → BufM β (Except Errno Unit)
  | 0, _, _ => throw .endless
  | fuel + 1, pos, i =>
    if pos < stop then do
      match ← lift (FsM.fileGetBlock f (pos.sdiv 4096).toNat) with
      | .error e => pure (.error e)
      | .ok blk => do
        let bn := wordMin (4096 - pos.srem 4096) (stop - pos)
        copy (address blk (pos.srem 4096)) i bn.toNat
        copyLoop f copy stop fuel (pos + bn) (i + bn.toNat)
    else pure (.ok ())

def copyOut (put : Nat → List Byte → BufM β Unit) (a i n : Nat) : BufM β Unit := do
  let bytes ← lift (FsM.loadBytes a n)
  put i bytes

def copyIn (fetch : Nat → Nat → BufM β (List Byte)) (a i n : Nat) : BufM β Unit := do
  let bytes ← fetch i n
  lift (FsM.storeBytes a bytes)

def fileRead (put : Nat → List Byte → BufM β Unit) (f : FilePtr) (count offset : Word) :
    BufM β (Except Errno Word) := do
  let size ← lift (FsM.load f.block f.fSize)
  if size.sle offset then pure (.ok 0)
  else do
    let count := wordMin count (size - offset)
    match ← copyLoop f (copyOut put) (offset + count) (count.toNat + 1) offset 0 with
    | .error e => pure (.error e)
    | .ok () => pure (.ok count)

def fileWrite (fetch : Nat → Nat → BufM β (List Byte)) (f : FilePtr) (count offset : Word) :
    BufM β (Except Errno Word) := do
  lift (FsM.extendTo f (offset + count))
  match ← copyLoop f (copyIn fetch) (offset + count) (count.toNat + 1) offset 0 with
  | .error e => pure (.error e)
  | .ok () => pure (.ok count)

end BufM

end Jos.Fs
