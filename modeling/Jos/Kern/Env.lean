import Jos.Kern.Access

namespace Jos.Kern

open Function

abbrev Slot := Fin 1024

@[irreducible]
def slots : List Slot := List.finRange 1024

theorem mem_slots (e : Slot) : e ∈ slots := by
  unfold slots
  exact List.mem_finRange e

def envx (envid : Word) : Slot := Fin.ofNat 1024 envid.toNat

inductive EnvStatus where
  | free
  | dying
  | runnable
  | running
  | notRunnable
  deriving DecidableEq

inductive EnvType where
  | user
  | fs
  | ns
  | outNs
  | inNs
  deriving DecidableEq

inductive Errno where
  | badEnv
  | inval
  | noMem
  | noFreeEnv
  | ipcNotRecv
  | txPoolFull
  | rxPoolEmpty
  deriving DecidableEq

def Errno.code : Errno → Word
  | badEnv => -2
  | inval => -3
  | noMem => -4
  | noFreeEnv => -5
  | ipcNotRecv => -7
  | txPoolFull => -16
  | rxPoolEmpty => -17

def gdKT : BitVec 16 := 0x08
def gdUT : BitVec 16 := 0x18
def gdUD : BitVec 16 := 0x20

def flIF : Word := 0x200
def flIOPL3 : Word := 0x3000
def flVM : Word := 0x20000

structure PushRegs where
  regEdi : Word
  regEsi : Word
  regEbp : Word
  regOesp : Word
  regEbx : Word
  regEdx : Word
  regEcx : Word
  regEax : Word
  deriving DecidableEq

structure Trapframe where
  tfRegs : PushRegs
  tfEs : BitVec 16
  tfDs : BitVec 16
  tfTrapno : Word
  tfErr : Word
  tfEip : Word
  tfCs : BitVec 16
  tfEflags : Word
  tfEsp : Word
  tfSs : BitVec 16
  deriving DecidableEq

def Trapframe.zero : Trapframe := ⟨⟨0, 0, 0, 0, 0, 0, 0, 0⟩, 0, 0, 0, 0, 0, 0, 0, 0, 0⟩

def Trapframe.setEax (tf : Trapframe) (value : Word) : Trapframe :=
  { tf with tfRegs := { tf.tfRegs with regEax := value } }

structure Env where
  envTf : Trapframe
  envLink : Option Slot
  envId : Word
  envParentId : Word
  envType : EnvType
  envStatus : EnvStatus
  envRuns : Word
  envCpunum : Nat
  envPgdir : Option Nat
  envPgfaultUpcall : Word
  envIpcRecving : Bool
  envIpcDstva : Word
  envIpcValue : Word
  envIpcFrom : Word
  envIpcPerm : Word
  envPriority : Byte
  deriving DecidableEq

/-- What a CPU was last left in; while it holds the big kernel lock it is in the kernel. -/
inductive CpuMode where
  | unused
  | user
  | halted
  deriving DecidableEq

structure CpuInfo where
  cpuMode : CpuMode
  cpuEnv : Option Slot
  deriving DecidableEq

inductive LockOp where
  | acquire (c : Nat)
  | release (c : Nat)
  deriving DecidableEq

/-- What `env.c` and `sched.c` keep: the environments, what each CPU runs, and which CPU holds the
big kernel lock. `lockOps` is not in the source: it records what has been done to the lock, last
first. -/
structure Table where
  envs : Slot → Env
  envFreeList : Option Slot
  ncpu : Nat
  cpus : Nat → CpuInfo
  kernelLock : Option Nat
  lockOps : List LockOp := []

namespace Table

def curenv (t : Table) (c : Nat) : Option Slot := (t.cpus c).cpuEnv

def status (t : Table) (e : Slot) : EnvStatus := (t.envs e).envStatus

def dirs (t : Table) : Slot → Option Nat := fun e => (t.envs e).envPgdir

def setEnv (t : Table) (e : Slot) (env : Env) : Table := { t with envs := update t.envs e env }

def setStatus (t : Table) (e : Slot) (status : EnvStatus) : Table :=
  t.setEnv e { t.envs e with envStatus := status }

def setTf (t : Table) (e : Slot) (tf : Trapframe) : Table := t.setEnv e { t.envs e with envTf := tf }

def setCpu (t : Table) (c : Nat) (info : CpuInfo) : Table := { t with cpus := update t.cpus c info }

def release (t : Table) (e : Slot) : Table :=
  { t.setEnv e { t.envs e with envPgdir := none, envStatus := .free, envLink := t.envFreeList } with
    envFreeList := some e }

def yieldCpu (t : Table) (c : Nat) : Table :=
  match t.curenv c with
  | some cur => if t.status cur = .running then t.setStatus cur .runnable else t
  | none => t

def leave (t : Table) (c : Nat) (info : CpuInfo) : Table :=
  { t.setCpu c info with kernelLock := none, lockOps := .release c :: t.lockOps }

def runOn (t : Table) (c : Nat) (e : Slot) : Table :=
  (t.setEnv e { t.envs e with
    envStatus := .running, envRuns := (t.envs e).envRuns + 1, envCpunum := c }).leave c ⟨.user, some e⟩

end Table

structure TxDesc where
  addr : Word
  length : BitVec 16
  done : Bool
  deriving DecidableEq

structure RxDesc where
  length : BitVec 16
  done : Bool
  deriving DecidableEq

structure Nic where
  txDescPool : Fin 64 → TxDesc
  tdt : Fin 64
  rxDescPool : Fin 128 → RxDesc
  rdt : Fin 128
  recHeadIndex : Fin 128
  e1000Mac : Fin 6 → Byte
  outNs : Int
  inNs : Int

/-- A check or a use of user memory by the kernel. `check` is a call of `user_mem_assert` on an
environment, with its answer. -/
inductive Access where
  | check (env : Slot) (va len perm : Word) (ok : Bool)
  | read (va len : Word)
  | write (va len : Word)
  deriving DecidableEq

/-- The kernel. `trace` is not part of the machine: it records the accesses to user memory since the
kernel was entered, the latest first. -/
structure Kernel extends Table where
  vm : Pmap
  nic : Nic
  trace : List Access

/-- How the kernel is left: a function that does not return ends in one of these. A CPU that enters
the monitor never leaves it and keeps the lock. -/
inductive Exit where
  | user (s : Kernel)
  | halted (s : Kernel)
  | monitor (s : Kernel)
  | panic (why : Panic) (s : Kernel)

namespace Kernel

def setTable (s : Kernel) (t : Table) : Kernel := { s with toTable := t }

def enter (s : Kernel) (c : Nat) : Kernel :=
  { s with kernelLock := some c, lockOps := .acquire c :: s.lockOps, trace := [] }

def note (s : Kernel) (access : Access) : Kernel := { s with trace := access :: s.trace }

def liftVm {α : Type} (s : Kernel) : Except Panic (Pmap × α) → Except Exit (Kernel × α)
  | .ok (vm, result) => .ok ({ s with vm := vm }, result)
  | .error why => .error (.panic why s)

def updateVm (s : Kernel) : Except Panic Pmap → Except Exit Kernel
  | .ok vm => .ok { s with vm := vm }
  | .error why => .error (.panic why s)

def readVm {α : Type} (s : Kernel) : Except Panic α → Except Exit α
  | .ok result => .ok result
  | .error why => .error (.panic why s)

def pgdir (s : Kernel) (e : Slot) : Except Exit Nat :=
  match (s.envs e).envPgdir with
  | some g => .ok g
  | none => .error (.panic .nullPgdir s)

def envid2env (s : Kernel) (cur : Slot) (envid : Word) (checkperm : Bool) : Option Slot :=
  if envid = 0 then
    some cur
  else if s.status (envx envid) = .free ∨ (s.envs (envx envid)).envId ≠ envid then
    none
  else if checkperm ∧ envx envid ≠ cur ∧ (s.envs (envx envid)).envParentId ≠ (s.envs cur).envId then
    none
  else
    some (envx envid)

def envSetupVm (s : Kernel) (e : Slot) : Except Exit (Kernel × Bool) := do
  match ← s.liftVm (s.vm.pageAlloc true) with
  | (s, none) => .ok (s, false)
  | (s, some p) =>
    let vm := s.vm.setPage p { s.vm.pages p with ppRef := (s.vm.pages p).ppRef + 1 }
    let kva ← s.readVm (vm.kaddr (page2pa p))
    let vm := { vm with mem := update vm.mem kva (vm.mem vm.kernPgdir) }
    let vm := vm.store (kva, pdx uvpt) (page2pa p ||| pteP ||| pteU)
    let s := { s with vm := vm }
    .ok (s.setTable (s.setEnv e { s.envs e with envPgdir := some kva }), true)

def nextId (old : Word) (e : Slot) : Word :=
  let generation := (old + 0x1000) &&& ~~~1023#32
  let generation := if generation.sle 0 then 0x1000 else generation
  generation ||| BitVec.ofNat 32 e

def freshEnv (old : Env) (e : Slot) (parentId : Word) : Env :=
  { old with
    envId := nextId old.envId e
    envParentId := parentId
    envType := .user
    envStatus := .runnable
    envRuns := 0
    envPriority := 0
    envTf := { Trapframe.zero with
      tfDs := gdUD ||| 3
      tfEs := gdUD ||| 3
      tfSs := gdUD ||| 3
      tfEsp := ustacktop
      tfCs := gdUT ||| 3
      tfEflags := flIF }
    envPgfaultUpcall := 0
    envIpcRecving := false }

def envAlloc (s : Kernel) (parentId : Word) : Except Exit (Kernel × Except Errno Slot) :=
  match s.envFreeList with
  | none => .ok (s, .error .noFreeEnv)
  | some e => do
    match ← s.envSetupVm e with
    | (s, false) => .ok (s, .error .noMem)
    | (s, true) =>
      let s := s.setTable (s.setEnv e (freshEnv (s.envs e) e parentId))
      .ok ({ s with envFreeList := (s.envs e).envLink }, .ok e)

def regionAlloc (s : Kernel) (e : Slot) (va len : Word) : Except Exit Kernel :=
  let vaRound := roundDown va 4096
  let vaPlusLen := roundUp (va + len) 4096
  (List.range ((vaPlusLen.toNat - vaRound.toNat) / pgsize)).foldlM (fun s k => do
    match ← s.liftVm (s.vm.pageAlloc false) with
    | (s, none) => .error (.panic .outOfMemory s)
    | (s, some page) =>
      let g ← s.pgdir e
      match ← s.liftVm (s.vm.pageInsert g page (vaRound + BitVec.ofNat 32 (k * pgsize))
        (pteU ||| pteW)) with
      | (s, false) => .error (.panic .outOfMemory s)
      | (s, true) => .ok s) s

structure Proghdr where
  pVa : Word
  pMemsz : Word
  content : List Byte

def loadIcode (s : Kernel) (e : Slot) (segments : List Proghdr) (entry : Word) : Except Exit Kernel := do
  let s ← segments.foldlM (fun s ph => do
    if ph.pMemsz.toNat < ph.content.length then
      .error (.panic .envCreate s)
    else
      let s ← s.regionAlloc e ph.pVa ph.pMemsz
      let g ← s.pgdir e
      let padding := List.replicate (ph.pMemsz.toNat - ph.content.length) 0
      s.updateVm (s.vm.storeBytes g ph.pVa (ph.content ++ padding))) s
  let s := s.setTable (s.setTf e { (s.envs e).envTf with tfEip := entry })
  s.regionAlloc e (ustacktop - 4096) 4096

def envCreate (s : Kernel) (type : EnvType) (segments : List Proghdr) (entry : Word) :
    Except Exit Kernel := do
  match ← s.envAlloc 0 with
  | (s, .error _) => .error (.panic .envCreate s)
  | (s, .ok e) =>
    let s := s.setTable (s.setEnv e { s.envs e with envType := type })
    let tf := (s.envs e).envTf
    let tf := if type = .fs then { tf with tfEflags := tf.tfEflags ||| flIOPL3 } else tf
    (s.setTable (s.setTf e tf)).loadIcode e segments entry

def envFree (s : Kernel) (e : Slot) : Except Exit Kernel := do
  let g ← s.pgdir e
  let s ← s.updateVm (s.vm.freeSpace g)
  .ok (s.setTable (s.release e))

def envRun (s : Kernel) (c : Nat) (e : Slot) : Exit :=
  let s := s.setTable ((s.yieldCpu c).runOn c e)
  match (s.envs e).envPgdir with
  | none => .panic .invalidPa s
  | some _ => .user s

def envFindByType (s : Kernel) (type : EnvType) : Int :=
  if type ≠ .outNs ∧ type ≠ .inNs then
    -1
  else
    match slots.find? fun i => decide ((s.envs i).envType = type) with
    | some i => i.val
    | none => -1

def schedHalt (s : Kernel) (c : Nat) : Exit :=
  if slots.any fun i => decide (s.status i ≠ .free ∧ (s.envs i).envType = .user) then
    .halted (s.setTable (s.leave c ⟨.halted, none⟩))
  else
    .monitor s

def nextRunnable (s : Kernel) (start : Nat) : Option Slot :=
  (slots.map fun j => Fin.ofNat 1024 (start + j)).find? fun i => decide (s.status i = .runnable)

def schedYield (s : Kernel) (c : Nat) : Exit :=
  let start := match s.curenv c with
    | some idle => (envx (s.envs idle).envId).val + 1
    | none => 0
  match s.nextRunnable start, s.curenv c with
  | some e, _ => s.envRun c e
  | none, some idle => if s.status idle = .running then s.envRun c idle else s.schedHalt c
  | none, none => s.schedHalt c

def envDestroy (s : Kernel) (c : Nat) (e : Slot) : Except Exit Kernel :=
  if s.status e = .running ∧ s.curenv c ≠ some e then
    .ok (s.setTable (s.setStatus e .dying))
  else do
    let s ← s.envFree e
    if s.curenv c = some e then
      .error ((s.setTable (s.setCpu c { s.cpus c with cpuEnv := none })).schedYield c)
    else
      .ok s

def userMemAssert (s : Kernel) (c : Nat) (env : Slot) (va len perm : Word) : Except Exit Kernel := do
  let g ← s.pgdir env
  let ok ← s.readVm (s.vm.userMemCheck g va len (perm ||| pteU))
  let s := s.note (.check env va len perm ok)
  if ok then .ok s else s.envDestroy c env

end Kernel

end Jos.Kern
