import Jos.Fs.Cache

namespace Jos.Fs

open Jos.Shared
open Jos.Kern (Word Byte)

inductive Panic where
  | badBlock
  | pageFault
  | noBlock
  | freeBlock
  | zeroBlock
  | assertion
  | exceptionStack
  | endless
  deriving DecidableEq

inductive Errno where
  | inval
  | noDisk
  | notFound
  | badPath
  | fileExists
  | maxOpen
  deriving DecidableEq

def Errno.code : Errno → Word
  | inval => -3
  | noDisk => -9
  | maxOpen => -10
  | notFound => -11
  | badPath => -12
  | fileExists => -13

abbrev FsM := EStateM Panic Cache

namespace FsM

section Fault

variable (touch : Nat → FsM Unit)

def loadBy (b k : Nat) : FsM Word := do
  touch b
  let s ← get
  pure (s.content b k)

def blockIsFree (blockno : Nat) : FsM Bool := do
  let sNblocks ← loadBy touch 1 1
  if sNblocks.toNat ≤ blockno then
    pure false
  else do
    let word ← loadBy touch (2 + blockno / 32768) (blockno / 32 % 1024)
    pure (word.getLsbD (blockno % 32))

-- A fault in the block cache, once `fs_init` has set `super` and `bitmap`. The handler uses both of
-- them, and so it may fault itself.
def bcPgfault (blockno : Nat) : FsM Unit := do
  if diskBlocks ≤ blockno then
    throw .pageFault
  else do
    let sNblocks ← loadBy touch 1 1
    if sNblocks.toNat ≤ blockno then
      throw .noBlock
    else do
      modify (·.pageIn blockno)
      if ← blockIsFree touch blockno then throw .freeBlock else pure ()

end Fault

-- An instruction uses a page of the block cache. Each fault inside the handler takes its share of
-- the exception stack, `depth` of which are left.
def access (depth b : Nat) : FsM Unit := do
  let s ← get
  if s.vaIsMapped b then
    modify (·.mark b)
  else
    match depth with
    | 0 => throw .exceptionStack
    | depth + 1 => do
      bcPgfault (access depth) b
      modify (·.mark b)

-- A fault on any other block needs no more than the bitmap block of its bitmap block in turn.
def touch (b : Nat) : FsM Unit := access 4 b

def load (b k : Nat) : FsM Word := loadBy touch b k

def change (b : Nat) (change : Block → Block) : FsM Unit := do
  touch b
  modify (·.poke b change)

def store (b k : Nat) (word : Word) : FsM Unit := change b (Function.update · k word)

def clear (b : Nat) : FsM Unit := change b fun _ _ => 0

def sNblocks : FsM Nat := do
  let word ← load 1 1
  pure word.toNat

def diskaddr (blockno : Nat) : FsM Unit := do
  if blockno = 0 then throw .badBlock
  else if (← sNblocks) ≤ blockno then throw .badBlock
  else pure ()

def flushBlock (b : Nat) : FsM Unit :=
  if diskBlocks ≤ b then throw .pageFault else modify (·.flushBlock b)

end FsM

end Jos.Fs
