import Jos.Kern.Syscall

namespace Jos.Kern

inductive TrapKind where
  | pageFault | breakpoint | syscall | spurious | timer | device | e1000 | other
  deriving DecidableEq

-- The cases of the `switch` in `trap_dispatch`. `device` stands for the keyboard, the serial line
-- and the mouse, which touch nothing but their own buffers.
def trapKind (trapno : Word) : TrapKind :=
  if trapno = 14 then .pageFault
  else if trapno = 3 then .breakpoint
  else if trapno = 48 then .syscall
  else if trapno = 39 then .spurious
  else if trapno = 32 then .timer
  else if trapno = 33 ∨ trapno = 36 ∨ trapno = 44 then .device
  else if trapno = 43 then .e1000
  else .other

def Trapframe.fromUser (tf : Trapframe) : Bool := tf.tfCs &&& 3 = 3

namespace Kernel

def faultFrame (esp : Word) : Word :=
  if uxstacktop - 4096 ≤ esp ∧ esp < uxstacktop then esp - 4 - 52 else uxstacktop - 52

def utrapframe (tf : Trapframe) (faultVa : Word) : List Word :=
  [faultVa, tf.tfErr, tf.tfRegs.regEdi, tf.tfRegs.regEsi, tf.tfRegs.regEbp, tf.tfRegs.regOesp,
    tf.tfRegs.regEbx, tf.tfRegs.regEdx, tf.tfRegs.regEcx, tf.tfRegs.regEax, tf.tfEip, tf.tfEflags,
      tf.tfEsp]

def pageFaultHandler (s : Kernel) (c : Nat) (cur : Slot) (faultVa : Word) : Except Exit Kernel :=
  let tf := (s.envs cur).envTf
  if (s.envs cur).envPgfaultUpcall ≠ 0 then do
    let frame := faultFrame tf.tfEsp
    let s ← s.userMemAssert c cur frame 52 (pteW ||| pteU)
    let s ← s.storeBytes cur frame ((utrapframe tf faultVa).flatMap Pmap.bytesOf)
    let tf := { (s.envs cur).envTf with tfEip := (s.envs cur).envPgfaultUpcall, tfEsp := frame }
    .error ((s.setTable (s.setTf cur tf)).envRun c cur)
  else
    s.envDestroy c cur

def dispatchUser (s : Kernel) (c : Nat) (cur : Slot) (hw : Inputs) : Except Exit Kernel :=
  let tf := (s.envs cur).envTf
  match trapKind tf.tfTrapno with
  | .pageFault => s.pageFaultHandler c cur hw.cr2
  | .syscall => do
    let regs := tf.tfRegs
    let (s, result) ← s.syscall c cur hw regs.regEax
      ⟨regs.regEdx, regs.regEcx, regs.regEbx, regs.regEdi, regs.regEsi⟩
    .ok (s.setTable (s.setTf cur ((s.envs cur).envTf.setEax result)))
  | .timer => .error (s.schedYield c)
  | .e1000 => .ok (s.e1000Intr hw.icr)
  | .breakpoint | .spurious | .device => .ok s
  | .other => s.envDestroy c cur

def dispatchKernel (s : Kernel) (c : Nat) (tf : Trapframe) (hw : Inputs) : Except Exit Kernel :=
  match trapKind tf.tfTrapno with
  | .timer => .error (s.schedYield c)
  | .e1000 => .ok (s.e1000Intr hw.icr)
  | .breakpoint | .spurious | .device => .ok s
  | .pageFault => .error (.panic .kernelFault s)
  | .syscall | .other => .error (.panic .unhandledTrap s)

def trapReturn (s : Kernel) (c : Nat) : Exit :=
  match s.curenv c with
  | some cur => if s.status cur = .running then s.envRun c cur else s.schedYield c
  | none => s.schedYield c

def finish (c : Nat) : Except Exit Kernel → Exit
  | .ok s => s.trapReturn c
  | .error exit => exit

-- `trap` from the point where it holds the lock.
def trapLocked (s : Kernel) (c : Nat) (tf : Trapframe) (hw : Inputs) : Exit :=
  if tf.fromUser then
    match s.curenv c with
    | none => .panic .noCurenv s
    | some cur =>
      if s.status cur = .dying then
        match s.envFree cur with
        | .error exit => exit
        | .ok s => (s.setTable (s.setCpu c { s.cpus c with cpuEnv := none })).schedYield c
      else
        finish c ((s.setTable (s.setTf cur tf)).dispatchUser c cur hw)
  else
    finish c (s.dispatchKernel c tf hw)

def trap (s : Kernel) (c : Nat) (tf : Trapframe) (hw : Inputs) : Exit := (s.enter c).trapLocked c tf hw

end Kernel

end Jos.Kern
