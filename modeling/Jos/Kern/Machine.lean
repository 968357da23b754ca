import Jos.Kern.Trap

namespace Jos.Kern

def Exit.state? : Exit → Option Kernel
  | .user s | .halted s | .monitor s => some s
  | .panic _ _ => none

/-- What can happen to the machine. The big kernel lock makes every kernel entry one event; between
two of them programs store into their memory and the network card writes descriptors back. -/
inductive Event where
  | create (type : EnvType) (segments : List Kernel.Proghdr) (entry : Word)
  | start (c : Nat)
  | trap (c : Nat) (tf : Trapframe) (hw : Inputs)
  | store (c : Nat) (va : Word) (value : Byte)
  | txDone (i : Fin 64)
  | rxDone (i : Fin 128) (length : BitVec 16)

namespace Kernel

def canTrap (s : Kernel) (c : Nat) (tf : Trapframe) : Bool :=
  match (s.cpus c).cpuMode with
  | .user => tf.fromUser
  | .halted => !tf.fromUser && (trapKind tf.tfTrapno = .timer || trapKind tf.tfTrapno = .e1000 ||
      trapKind tf.tfTrapno = .device || trapKind tf.tfTrapno = .spurious)
  | .unused => false

-- No mapping from `UTOP` on is writable by user programs.
def storeUser (s : Kernel) (c : Nat) (va : Word) (value : Byte) : Option Kernel := do
  if (s.cpus c).cpuMode = .user ∧ va < utop then
    let cur ← s.curenv c
    let g ← (s.envs cur).envPgdir
    let vm ← s.vm.userStore g va value
    some { s with vm := vm }
  else
    none

-- Kernel entries wait for the lock.
def step (s : Kernel) : Event → Option Kernel
  | .create type segments entry =>
    if s.kernelLock = none then
      match s.envCreate type segments entry with
      | .ok s => some s
      | .error _ => none
    else none
  | .start c =>
    if s.kernelLock = none ∧ c < s.ncpu ∧ (s.cpus c).cpuMode = .unused then
      ((s.enter c).schedYield c).state?
    else none
  | .trap c tf hw =>
    if s.kernelLock = none ∧ s.canTrap c tf then (s.trap c tf hw).state? else none
  | .store c va value => s.storeUser c va value
  | .txDone i =>
    let desc := { s.nic.txDescPool i with done := true }
    some { s with nic := { s.nic with txDescPool := Function.update s.nic.txDescPool i desc } }
  | .rxDone i length =>
    let desc : RxDesc := { length := length, done := true }
    some { s with nic := { s.nic with rxDescPool := Function.update s.nic.rxDescPool i desc } }

end Kernel

end Jos.Kern
