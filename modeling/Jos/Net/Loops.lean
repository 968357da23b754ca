import Jos.Kern.Env

namespace Jos.Net

open Jos.Kern

def nsreqOutput : Word := 11
def nsreqTimer : Word := 12

def sleepMinMs : Word := 300

def tailIndexDdFlag : Word := 1 <<< 30

def clearFlag (tailIndex : Word) : Word := tailIndex &&& (~~~1#32 <<< 30)

def slotOf (tailIndex : Word) : Nat := tailIndex.toNat % 2 ^ 20

inductive OutputPc where
  | mark
  | yieldTop
  | recv
  | transmit
  | time
  | markFull
  | yieldFull
  deriving DecidableEq

structure OutputLoop where
  pc : OutputPc
  tailIndex : Word
  deriving DecidableEq

namespace OutputLoop

def again (tailIndex : Word) : OutputLoop :=
  if tailIndex &&& tailIndexDdFlag = 0 then ⟨.mark, tailIndex⟩ else ⟨.recv, clearFlag tailIndex⟩

def start : OutputLoop := again tailIndexDdFlag

def received (loop : OutputLoop) (nsEnvid whom req : Word) : OutputLoop :=
  if whom ≠ nsEnvid then again loop.tailIndex
  else if req ≠ nsreqOutput then again loop.tailIndex
  else { loop with pc := .transmit }

def transmitted (loop : OutputLoop) (r : Word) : OutputLoop :=
  if r.msb = false ∨ r = Errno.inval.code then again r else { loop with pc := .time }

def timed (loop : OutputLoop) (msec : Word) : OutputLoop :=
  { loop with pc := if sleepMinMs < msec then .markFull else .yieldFull }

def marked (loop : OutputLoop) : OutputLoop :=
  { loop with pc := if loop.pc = .mark then .yieldTop else .yieldFull }

def yielded (loop : OutputLoop) : OutputLoop :=
  if loop.pc = .yieldTop then ⟨.recv, clearFlag loop.tailIndex⟩ else { loop with pc := .transmit }

end OutputLoop

/-- What `input` is about to do: make a system call, or store the index it was given. `send` and
`sleep` are loops of calls. -/
inductive InputPc where
  | receive
  | time
  | mark
  | yield
  | index
  | send
  | sleep
  | free
  deriving DecidableEq

namespace InputPc

def received (r : Word) : InputPc := if r = Errno.rxPoolEmpty.code then .time else .index

def timed (msec : Word) : InputPc := if sleepMinMs < msec then .mark else .yield

end InputPc

theorem slotOf_clearFlag (tailIndex : Word) : slotOf (clearFlag tailIndex) = 0 := by
  have none : (~~~1#32 <<< 30).toNat % 2 ^ 20 = 0 := by decide
  rw [slotOf, clearFlag, BitVec.toNat_and, Nat.and_mod_two_pow, none, Nat.and_zero]

end Jos.Net
