import Jos.Fs.Ownership

namespace Jos.Fs

open Jos.Shared
open Jos.Kern (Word Byte)

def maxopen : Nat := 1024
def maxpathlen : Nat := 1024

def oAccmode : Word := 0x003
def oCreat : Word := 0x100
def oTrunc : Word := 0x200
def oExcl : Word := 0x400

def eNoMem : Word := -4

/-- The page with a `struct Fd`: words 0 to 3 are `fd_dev_id`, `fd_offset`, `fd_omode` and
`fd_file.id`. What follows is not seen by the server: the mappings of the page in other
environments, each with the number of the open request that it goes back to. -/
structure FdPage where
  data : Block
  clients : List Nat

structure OpenFile where
  fileid : Word
  file : Option FilePtr
  mode : Word
  fd : Option FdPage

def OpenFile.clients (o : OpenFile) : List Nat :=
  match o.fd with
  | none => []
  | some page => page.clients

/-- What the server uses besides the block cache. `top` is not part of the machine: it is where the
bytes at `fsreq` end that the handlers have used as a buffer. -/
structure Desk where
  opentab : Nat → OpenFile
  -- The request page may be an `Fd` page.
  source : Option Nat
  page : Block
  top : Nat

namespace Desk

def setFile (d : Desk) (i : Nat) (o : OpenFile) : Desk :=
  { d with opentab := Function.update d.opentab i o }

def setOpen (d : Desk) (i : Nat) (f : FilePtr) (mode : Word) : Desk :=
  d.setFile i { d.opentab i with file := some f, mode := mode }

def pageref (d : Desk) (i : Nat) : Nat :=
  match (d.opentab i).fd with
  | none => 0
  | some page => (1 + page.clients.length + if d.source = some i then 1 else 0) % 2 ^ 16

def claim (d : Desk) (i : Nat) : Desk :=
  d.setFile i { d.opentab i with
    fileid := (d.opentab i).fileid + BitVec.ofNat 32 maxopen, fd :=
      some ⟨fun _ => 0, (d.opentab i).clients⟩ }

def fdData (d : Desk) (i : Nat) : Block :=
  match (d.opentab i).fd with
  | none => fun _ => 0
  | some page => page.data

def setFd (d : Desk) (i : Nat) (data : Block) : Desk :=
  match (d.opentab i).fd with
  | none => d
  | some page => d.setFile i { d.opentab i with fd := some { page with data := data } }

def words (d : Desk) : Block :=
  match d.source with
  | none => d.page
  | some i => d.fdData i

def setWords (d : Desk) (data : Block) : Desk :=
  match d.source with
  | none => { d with page := data }
  | some i => d.setFd i data

def reach (d : Desk) (top : Nat) : Desk := { d with top := max d.top top }

end Desk

abbrev ServM := BufM Desk

namespace ServM

def desk : ServM Desk := fun s => .ok s.2 s

def update (change : Desk → Desk) : ServM Unit := fun s => .ok () (s.1, change s.2)

def storePage (blk : Block) (i : Nat) (bytes : List Byte) : Block :=
  wordsOf fun o => if o < 4096 then overwrite (byteAt blk) i bytes o else byteAt blk o

def putReply (i : Nat) (bytes : List Byte) : ServM Unit := do
  update fun d => (d.setWords (storePage d.words i bytes)).reach (i + bytes.length)
  if i + bytes.length ≤ 4096 then pure ()
  else BufM.lift (FsM.storeBytes (i - 4096) (bytes.drop (4096 - i)))

def fetchData (i n : Nat) : ServM (List Byte) := do
  let d ← desk
  update fun d => d.reach (8 + i + n)
  let bytes := (List.range (min n (4096 - (8 + i)))).map fun k => byteAt d.words (8 + i + k)
  if 8 + i + n ≤ 4096 then pure bytes
  else do
    let more ← BufM.lift (FsM.loadBytes (8 + i - 4096) (n - (4096 - (8 + i))))
    pure (bytes ++ more)

@[irreducible]
def freeEntry (d : Desk) : Option Nat := (List.range maxopen).find? (d.pageref · ≤ 1)

def openfileAlloc (memory : Bool) (d : Desk) : Except Word Nat × Desk :=
  match freeEntry d with
  | none => (.error Errno.maxOpen.code, d)
  | some i =>
    if d.pageref i = 0 ∧ memory = false then (.error eNoMem, d)
    else
      let fileid := ((d.claim i).opentab i).fileid
      (if fileid.slt 0 then .error fileid else .ok i, d.claim i)

def openfileLookup (d : Desk) (fileid : Word) : Option Nat :=
  let i := fileid.toNat % maxopen
  if d.pageref i ≤ 1 ∨ (d.opentab i).fileid ≠ fileid then none else some i

def withFile (run : Nat → FilePtr → ServM Word) : ServM Word := do
  let d ← desk
  match openfileLookup d (d.words 0) with
  | none => pure Errno.inval.code
  | some i =>
    match (d.opentab i).file with
    | none => throw .pageFault
    | some f => run i f

def advance (i : Nat) : Except Errno Word → ServM Word
  | .error e => pure e.code
  | .ok r =>
    -- `int r` may be negative when `count` is huge.
    if r.slt 0 then pure r
    else do
      update fun d => d.setFd i (Function.update (d.fdData i) 1 (d.fdData i 1 + r))
      pure r

def serveRead : ServM Word := withFile fun i f => do
  let d ← desk
  let r ← BufM.fileRead putReply f (d.words 1) (d.fdData i 1)
  advance i r

def serveWrite : ServM Word := withFile fun i f => do
  let d ← desk
  let r ← BufM.fileWrite fetchData f (d.words 1) (d.fdData i 1)
  advance i r

def serveSetSize : ServM Word := withFile fun _ f => do
  let d ← desk
  BufM.lift (FsM.fileSetSize f (d.words 1))
  pure 0

def serveFlush : ServM Word := withFile fun _ f => do
  BufM.lift (FsM.fileFlush f)
  pure 0

-- The string at byte `o` of a block, with the zero at its end, if it ends in the block.
def stringAt (blk : Block) (o : Nat) : Option (List Byte) :=
  (((List.range (4096 - o)).find? fun k => byteAt blk (o + k) = 0).map fun n =>
    (List.range (n + 1)).map fun k => byteAt blk (o + k))

-- `strcpy` reads on in the next block until it meets a zero; the cache has at most `blocks` of
-- them.
def stringFrom : Nat → Nat → Nat → FsM (List Byte)
  | 0, _, _ => throw .pageFault
  | blocks + 1, b, o => do
    FsM.touch b
    let s ← get
    match stringAt (s.content b) o with
    | some name => pure name
    | none => do
      let rest ← stringFrom blocks (b + 1) 0
      pure ((List.range (4096 - o)).map (fun k => byteAt (s.content b) (o + k)) ++ rest)

def serveStat : ServM Word := withFile fun _ f => do
  let name ← BufM.lift (stringFrom diskBlocks f.block f.fName)
  putReply 0 name
  let size ← BufM.lift (FsM.load f.block f.fSize)
  let type ← BufM.lift (FsM.load f.block f.fType)
  update fun d =>
    d.setWords (Function.update (Function.update d.words 32 size) 33 (if type = ftypeDir then 1
    else 0))
  pure 0

def serveSync : ServM Word := do
  BufM.lift FsM.fsSync
  pure 0

def reqPath (words : Block) : List Byte :=
  ((List.range (maxpathlen - 1)).map (byteAt words)).takeWhile (· ≠ 0)

def reqOmode (words : Block) : Word := words 256

def findFile (path : List Byte) (omode : Word) : FsM (Except Errno FilePtr) :=
  if omode &&& oCreat ≠ 0 then do
    match ← FsM.fileCreate path with
    | .ok f => pure (.ok f)
    | .error e => if omode &&& oExcl = 0 ∧ e = .fileExists then FsM.fileOpen path else pure (.error e)
  else FsM.fileOpen path

def openFile (path : List Byte) (omode : Word) : FsM (Except Errno FilePtr) := do
  match ← findFile path omode with
  | .error e => pure (.error e)
  | .ok f => do
    if omode &&& oTrunc ≠ 0 then FsM.fileSetSize f 0 else pure ()
    FsM.fileOpen path

def fdOf (d : Desk) (i : Nat) (omode : Word) : Block :=
  Function.update (Function.update (Function.update (d.fdData i) 3 (d.opentab i).fileid) 2
    (omode &&& oAccmode)) 0 0x66

def occupy (i : Nat) (f : FilePtr) (omode : Word) (d : Desk) : Desk :=
  (d.setFd i (fdOf d i omode)).setOpen i f omode

-- The rest of `serve_open`, with an entry. The second part of the answer is the entry whose page is
-- sent along.
def openAs (i : Nat) (path : List Byte) (omode : Word) : ServM (Word × Option Nat) := do
  match ← BufM.lift (openFile path omode) with
  | .error e => pure (e.code, none)
  | .ok f => do
    update (occupy i f omode)
    pure (0, some i)

def serveOpen (memory : Bool) : ServM (Word × Option Nat) := do
  let d ← desk
  update fun _ => (openfileAlloc memory d).2
  match (openfileAlloc memory d).1 with
  | .error r => pure (r, none)
  | .ok i => openAs i (reqPath d.words) (reqOmode d.words)

def handlers : Nat → Option (ServM Word)
  | 2 => some serveSetSize
  | 3 => some serveRead
  | 4 => some serveWrite
  | 5 => some serveStat
  | 6 => some serveFlush
  | 8 => some serveSync
  | _ => none

def dispatch (req : Word) : ServM Word :=
  match handlers req.toNat with
  | none => pure Errno.inval.code
  | some handler => handler

def handle (req : Word) (memory : Bool) : ServM (Word × Option Nat) :=
  if req = 1 then serveOpen memory
  else do
    let r ← dispatch req
    pure (r, none)

end ServM

structure Opening where
  slot : Nat
  id : Word
  file : FilePtr
  omode : Word

structure Request where
  req : Word
  source : Option Nat

/-- The server and what its clients share with it. The requests that have been granted, in order,
are not part of the machine. -/
structure Service where
  cache : Cache
  opentab : Nat → OpenFile
  inbox : Option Request
  log : List Opening

inductive ClientEvent where
  | send (req : Word) (source : Option Nat)
  -- `page` is what the request page holds by now, if it is one of the sender's own; `takes` says
  -- whether the sender wants the page that it is sent.
  | serve (page : Block) (memory takes : Bool)
  -- A mapping of an `Fd` page is removed (`close`, `exit`), or copied (`dup`, `fork`, `spawn`).
  | unmap (i k : Nat)
  | share (i k : Nat)
  | poke (i k : Nat) (word : Word)

namespace Service

def clients (s : Service) (i : Nat) : List Nat := (s.opentab i).clients

def setClients (s : Service) (i : Nat) (clients : List Nat) : Service :=
  match (s.opentab i).fd with
  | none => s
  | some page =>
    { s with
      opentab := Function.update s.opentab i
        { s.opentab i with fd := some { page with clients := clients } } }

def setData (s : Service) (i : Nat) (change : Block → Block) : Service :=
  match (s.opentab i).fd with
  | none => s
  | some page =>
    { s with
      opentab := Function.update s.opentab i
        { s.opentab i with fd := some { page with data := change page.data } } }

def start (image : Image) : Service where
  cache := .mount image
  opentab i := ⟨BitVec.ofNat 32 i, none, if i = 0 then 1 else 0, none⟩
  inbox := none
  log := []

def desk (s : Service) (r : Request) (page : Block) : Desk := ⟨s.opentab, r.source, page, 0⟩

def reply (s : Service) (cache : Cache) (d : Desk) (takes : Bool) : Option Nat → Service
  | none => { s with cache := cache, opentab := d.opentab, inbox := none }
  | some i =>
    let o := d.opentab i
    let s' : Service :=
      ⟨cache, d.opentab, none, s.log ++ o.file.toList.map fun f => ⟨i, o.fileid, f, o.mode⟩⟩
    if takes then s'.setClients i (s.log.length :: s'.clients i) else s'

def step (s : Service) : ClientEvent → Option Service
  | .send req source =>
    if s.inbox.isNone ∧ (∀ i ∈ source, s.clients i ≠ []) then some
      { s with inbox := some ⟨req, source⟩ } else none
  | .serve page memory takes =>
    match s.inbox with
    | none => none
    | some r =>
      match ServM.handle r.req memory (s.cache, s.desk r page) with
      | .error _ _ => none
      | .ok (_, sent) (cache, d) => some (s.reply cache d takes sent)
  | .unmap i k =>
    if k < (s.clients i).length then some (s.setClients i ((s.clients i).eraseIdx k)) else none
  | .share i k =>
    -- No client makes so many mappings that `pp_ref` overflows.
    match (s.clients i)[k]? with
    | none => none
    | some n =>
      if (s.clients i).length + 3 < 2 ^ 16 then some (s.setClients i (n :: s.clients i)) else none
  | .poke i k word => if s.clients i ≠ [] then some (s.setData i (Function.update · k word)) else none

end Service

end Jos.Fs
