import Jos.Kern.E1000

namespace Jos.Kern

inductive SyscallNo where
  | cputs | cgetc | getenvid | envDestroy | pageAlloc | pageMap | pageUnmap | exofork | envSetStatus
  | envSetTrapframe | envSetPgfaultUpcall | yield | ipcTrySend | ipcRecv | timeMsec | changePriority
  | tryTransmit | receive | envSetType | getMacAddr | draw | clearScreen | freeRxBuf | mouseGetp
  deriving DecidableEq

def syscalls : List SyscallNo :=
  [.cputs, .cgetc, .getenvid, .envDestroy, .pageAlloc, .pageMap, .pageUnmap, .exofork, .envSetStatus,
    .envSetTrapframe, .envSetPgfaultUpcall, .yield, .ipcTrySend, .ipcRecv, .timeMsec, .changePriority,
    .tryTransmit, .receive, .envSetType, .getMacAddr, .draw, .clearScreen, .freeRxBuf, .mouseGetp]

structure MousePkt where
  x : Word
  y : Word
  type : Word

structure Inputs where
  cr2 : Word
  icr : Word
  timeMsec : Word
  consGetc : Word
  mousePkt : Option MousePkt

structure Args where
  a1 : Word
  a2 : Word
  a3 : Word
  a4 : Word
  a5 : Word

def permOk (perm : Word) : Bool :=
  perm &&& pteU ≠ 0 && perm &&& pteP ≠ 0 && perm &&& ~~~pteSyscall = 0

def vaOk (va : Word) : Bool := va < utop && pgoff va = 0

namespace Kernel

def sysCputs (s : Kernel) (c : Nat) (cur : Slot) (str len : Word) : Except Exit Kernel := do
  let s ← s.userMemAssert c cur str len 0
  -- `%.*s`: a null pointer prints as a constant, a negative precision is no precision.
  if str = 0 then .ok s
  else s.scanString cur str (if len.msb then none else some len.toNat) (2 ^ 32)

def sysEnvDestroy (s : Kernel) (c : Nat) (cur : Slot) (envid : Word) : Except Exit (Kernel × Word) :=
  match s.envid2env cur envid true with
  | none => .ok (s, Errno.badEnv.code)
  | some e => do
    let s ← s.envDestroy c e
    .ok (s, 0)

def sysExofork (s : Kernel) (cur : Slot) : Except Exit (Kernel × Word) := do
  match ← s.envAlloc (s.envs cur).envId with
  | (s, .error err) => .ok (s, err.code)
  | (s, .ok e) =>
    let s := s.setTable (s.setStatus e .notRunnable)
    let s := s.setTable (s.setTf e ((s.envs cur).envTf.setEax 0))
    .ok (s, (s.envs e).envId)

def statusArg (status : Word) : Option EnvStatus :=
  if status = 2 then some .runnable else if status = 4 then some .notRunnable else none

def sysEnvSetStatus (s : Kernel) (cur : Slot) (envid status : Word) : Kernel × Word :=
  match statusArg status with
  | none => (s, Errno.inval.code)
  | some status =>
    match s.envid2env cur envid true with
    | none => (s, Errno.badEnv.code)
    | some e => (s.setTable (s.setStatus e status), 0)

def trapframeOf (words : List Word) : Trapframe :=
  let w k := words.getD k 0
  { tfRegs := ⟨w 0, w 1, w 2, w 3, w 4, w 5, w 6, w 7⟩
    tfEs := (w 8).setWidth 16
    tfDs := (w 9).setWidth 16
    tfTrapno := w 10
    tfErr := w 11
    tfEip := w 12
    tfCs := (w 13).setWidth 16
    tfEflags := w 14
    tfEsp := w 15
    tfSs := (w 16).setWidth 16 }

def maskFrame (tf : Trapframe) : Trapframe :=
  { tf with tfCs := tf.tfCs ||| 3, tfEflags := (tf.tfEflags ||| flIF) &&& ~~~flIOPL3 }

def sysEnvSetTrapframe (s : Kernel) (c : Nat) (cur : Slot) (envid tf : Word) :
    Except Exit (Kernel × Word) :=
  match s.envid2env cur envid true with
  | none => .ok (s, Errno.badEnv.code)
  | some e => do
    let s ← s.userMemAssert c e tf 68 pteW
    let (s, words) ← s.loadWords cur tf 17
    .ok (s.setTable (s.setTf e (maskFrame (trapframeOf words))), 0)

def sysEnvSetPgfaultUpcall (s : Kernel) (cur : Slot) (envid func : Word) : Kernel × Word :=
  match s.envid2env cur envid true with
  | none => (s, Errno.badEnv.code)
  | some e => (s.setTable (s.setEnv e { s.envs e with envPgfaultUpcall := func }), 0)

def sysPageAlloc (s : Kernel) (cur : Slot) (envid va perm : Word) : Except Exit (Kernel × Word) :=
  match s.envid2env cur envid true with
  | none => .ok (s, Errno.badEnv.code)
  | some e =>
    if !vaOk va || !permOk perm then
      .ok (s, Errno.inval.code)
    else do
      match ← s.liftVm (s.vm.pageAlloc true) with
      | (s, none) => .ok (s, Errno.noMem.code)
      | (s, some page) =>
        let g ← s.pgdir e
        match ← s.liftVm (s.vm.pageInsert g page va perm) with
        | (s, false) => do
          let s ← s.updateVm (s.vm.pageFree page)
          .ok (s, Errno.noMem.code)
        | (s, true) => .ok (s, 0)

def sysPageMap (s : Kernel) (cur : Slot) (srcenvid srcva dstenvid dstva perm : Word) :
    Except Exit (Kernel × Word) :=
  match s.envid2env cur srcenvid true, s.envid2env cur dstenvid true with
  | some src, some dst =>
    if !vaOk srcva || !vaOk dstva || !permOk perm then
      .ok (s, Errno.inval.code)
    else do
      let g ← s.pgdir src
      match ← s.readVm (s.vm.pageLookup g srcva) with
      | none => .ok (s, Errno.inval.code)
      | some (page, pte) =>
        if s.vm.load pte &&& pteW = 0 ∧ perm &&& pteW ≠ 0 then
          .ok (s, Errno.inval.code)
        else do
          let g' ← s.pgdir dst
          match ← s.liftVm (s.vm.pageInsert g' page dstva perm) with
          | (s, false) => .ok (s, Errno.noMem.code)
          | (s, true) => .ok (s, 0)
  | _, _ => .ok (s, Errno.badEnv.code)

def sysPageUnmap (s : Kernel) (cur : Slot) (envid va : Word) : Except Exit (Kernel × Word) :=
  match s.envid2env cur envid true with
  | none => .ok (s, Errno.badEnv.code)
  | some e =>
    if !vaOk va then
      .ok (s, Errno.inval.code)
    else do
      let g ← s.pgdir e
      let s ← s.updateVm (s.vm.pageRemove g va)
      .ok (s, 0)

def received (target : Env) (source value perm : Word) : Env :=
  { target with
    envIpcPerm := perm
    envIpcRecving := false
    envIpcFrom := source
    envIpcValue := value
    envStatus := .runnable
    envTf := target.envTf.setEax 0 }

def deliver (s : Kernel) (cur e : Slot) (value perm : Word) : Kernel :=
  s.setTable (s.setEnv e (received (s.envs e) (s.envs cur).envId value perm))

def sysIpcTrySend (s : Kernel) (cur : Slot) (envid value srcva perm : Word) :
    Except Exit (Kernel × Word) :=
  match s.envid2env cur envid false with
  | none => .ok (s, Errno.badEnv.code)
  | some e =>
    if (s.envs e).envIpcRecving = false then
      .ok (s, Errno.ipcNotRecv.code)
    else if srcva < utop then
      if pgoff srcva ≠ 0 ∨ permOk perm = false then
        .ok (s, Errno.inval.code)
      else do
        let g ← s.pgdir cur
        match ← s.readVm (s.vm.pageLookup g srcva) with
        | none => .ok (s, Errno.inval.code)
        | some (page, pte) =>
          if perm &&& pteW ≠ 0 ∧ s.vm.load pte &&& pteW = 0 then
            .ok (s, Errno.inval.code)
          else if (s.envs e).envIpcDstva < utop then do
            let g' ← s.pgdir e
            match ← s.liftVm (s.vm.pageInsert g' page (s.envs e).envIpcDstva perm) with
            | (s, false) => .ok (s, Errno.noMem.code)
            | (s, true) => .ok (s.deliver cur e value perm, 0)
          else
            -- `env_ipc_perm` keeps its old value here.
            .ok (s.deliver cur e value (s.envs e).envIpcPerm, 0)
    else
      .ok (s.deliver cur e value 0, 0)

def sysIpcRecv (s : Kernel) (c : Nat) (cur : Slot) (dstva : Word) : Except Exit (Kernel × Word) :=
  if dstva < utop ∧ pgoff dstva ≠ 0 then
    .ok (s, Errno.inval.code)
  else
    let s := s.setTable (s.setEnv cur
      { s.envs cur with envIpcDstva := dstva, envIpcRecving := true, envStatus := .notRunnable })
    .error (s.schedYield c)

def sysChangePriority (s : Kernel) (cur : Slot) (p : Byte) : Kernel × Word :=
  if 20 < p then (s, Errno.inval.code)
  else (s.setTable (s.setEnv cur { s.envs cur with envPriority := p }), 0)

def sysTryTransmit (s : Kernel) (c : Nat) (cur : Slot) (data len : Word) :
    Except Exit (Kernel × Word) := do
  let s ← s.userMemAssert c cur data len 0
  s.e1000Transmit cur data (len.setWidth 16)

def sysReceive (s : Kernel) (cur : Slot) (bufIdx : Word) : Except Exit (Kernel × Word) :=
  s.e1000Receive cur bufIdx

def typeArg (type : Word) : Option EnvType :=
  if type = 3 then some .outNs else if type = 4 then some .inNs else none

def sysEnvSetType (s : Kernel) (cur : Slot) (type : Word) : Kernel × Word :=
  match typeArg type with
  | none => (s, Errno.inval.code)
  | some type =>
    if slots.any fun i => decide ((s.envs i).envType = type) then (s, Errno.badEnv.code)
    else (s.setTable (s.setEnv cur { s.envs cur with envType := type }), 0)

def sysGetMacAddr (s : Kernel) (c : Nat) (cur : Slot) (addr : Word) : Except Exit Kernel := do
  let s ← s.userMemAssert c cur addr 6 pteW
  (List.finRange 6).foldlM (fun s (i : Fin 6) =>
    s.storeBytes cur (addr + BitVec.ofNat 32 i) [s.nic.e1000Mac i]) s

def shapeWords (shape : Word) : Option Nat :=
  if shape = 0 ∨ shape = 2 ∨ shape = 3 then some 3 else if shape = 1 then some 2 else none

def sysDraw (s : Kernel) (c : Nat) (cur : Slot) (shape : Word) : Except Exit (Kernel × Word) := do
  let s ← s.userMemAssert c cur shape 20 pteW
  let (s, kind) ← s.loadWords cur shape 1
  if kind.getD 0 0 = 4 then
    let (s, words) ← s.loadWords cur (shape + 8) 2
    let (s, _) ← s.loadWords cur (shape + 4) 1
    let s ← s.scanString cur (words.getD 1 0) none (2 ^ 32)
    .ok (s, 0)
  else
    match shapeWords (kind.getD 0 0) with
    | none => .ok (s, Errno.inval.code)
    | some count =>
      let (s, _) ← s.loadWords cur (shape + 8) count
      let (s, _) ← s.loadWords cur (shape + 4) 1
      .ok (s, 0)

def noClick : Word := 3

def sysMouseGetp (s : Kernel) (c : Nat) (cur : Slot) (pkt : Word) (next : Option MousePkt) :
    Except Exit (Kernel × Word) := do
  let s ← s.userMemAssert c cur pkt 12 pteW
  match next with
  | some m => do
    let s ← s.storeBytes cur pkt (Pmap.bytesOf m.x ++ Pmap.bytesOf m.y ++ Pmap.bytesOf m.type)
    .ok (s, 0)
  | none => do
    let s ← s.storeWord cur (pkt + 8) noClick
    .ok (s, -1)

def void : Except Exit Kernel → Except Exit (Kernel × Word)
  | .ok s => .ok (s, 0)
  | .error exit => .error exit

def syscall (s : Kernel) (c : Nat) (cur : Slot) (hw : Inputs) (no : Word) (a : Args) :
    Except Exit (Kernel × Word) :=
  match syscalls[no.toNat]? with
  | none => .ok (s, Errno.inval.code)
  | some .cputs => void (s.sysCputs c cur a.a1 a.a2)
  | some .cgetc => .ok (s, hw.consGetc)
  | some .getenvid => .ok (s, (s.envs cur).envId)
  | some .envDestroy => s.sysEnvDestroy c cur a.a1
  | some .yield => .error (s.schedYield c)
  | some .exofork => s.sysExofork cur
  | some .envSetStatus => .ok (s.sysEnvSetStatus cur a.a1 a.a2)
  | some .pageAlloc => s.sysPageAlloc cur a.a1 a.a2 a.a3
  | some .pageMap => s.sysPageMap cur a.a1 a.a2 a.a3 a.a4 a.a5
  | some .pageUnmap => s.sysPageUnmap cur a.a1 a.a2
  | some .envSetPgfaultUpcall => .ok (s.sysEnvSetPgfaultUpcall cur a.a1 a.a2)
  | some .ipcRecv => s.sysIpcRecv c cur a.a1
  | some .ipcTrySend => s.sysIpcTrySend cur a.a1 a.a2 a.a3 a.a4
  | some .changePriority => .ok (s.sysChangePriority cur (a.a1.setWidth 8))
  | some .envSetTrapframe => s.sysEnvSetTrapframe c cur a.a1 a.a2
  | some .timeMsec => .ok (s, hw.timeMsec)
  | some .tryTransmit => s.sysTryTransmit c cur a.a1 a.a2
  | some .receive => s.sysReceive cur a.a1
  | some .envSetType => .ok (s.sysEnvSetType cur a.a1)
  | some .getMacAddr => void (s.sysGetMacAddr c cur a.a1)
  | some .draw => s.sysDraw c cur a.a1
  | some .clearScreen => .ok (s, 0)
  | some .freeRxBuf => .ok (s.e1000FreeRxBuf, 0)
  | some .mouseGetp => s.sysMouseGetp c cur a.a1 hw.mousePkt

end Kernel

end Jos.Kern
