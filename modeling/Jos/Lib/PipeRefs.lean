import Jos.Shared.Run
import Jos.Kern.Mmu

namespace Jos.Lib

open Jos.Shared
open Jos.Kern (Word)
open Function

/-! The pages of one pipe in the descriptor tables of all environments. -/

inductive PipeEnd where
  | read
  | write
  deriving DecidableEq

def PipeEnd.opposite : PipeEnd → PipeEnd
  | .read => .write
  | .write => .read

inductive Frame where
  | fd (kind : PipeEnd)
  | pipe
  | other
  deriving DecidableEq

inductive Place where
  | fd (i : Fin 32)
  | data (i : Fin 32)
  deriving DecidableEq, Fintype

abbrev Pages := Place → Option Frame

def places : List Place := (List.finRange 32).map .fd ++ (List.finRange 32).map .data

def fdAlloc (m : Pages) : Option (Fin 32) := (List.finRange 32).find? fun i => m (.fd i) = none

def unmap (m : Pages) (p : Place) : Pages := update m p none

-- The pages that `close` unmaps. `devpipe_close` unmaps both, and then `fd_close` unmaps the
-- descriptor again.
def close (m : Pages) (i : Fin 32) : List Place :=
  match m (.fd i) with
  | none => []
  | some .other => [.fd i]
  | some _ => [.fd i, .data i, .fd i]

inductive Task (E : Type) where
  | free
  -- A child that may not run yet.
  | newborn
  | idle
  | pipeFd (i : Fin 32)
  | pipeFds (i j : Fin 32)
  | pipeData (i j : Fin 32)
  | undo (rest : List Place)
  | unmap (rest : List Place)
  | dup (old new : Fin 32) (rest : List Place)
  | dupFd (old new : Fin 32)
  | copy (child : E) (rest : List Place)
  | ask (i : Fin 32)
  | asked (i : Fin 32) (n : Word) (fd data : Option Nat)
  deriving DecidableEq

structure Envs (E : Type) where
  mem : E → Pages
  task : E → Task E
  runs : E → Word
  current : E
  -- `pipe` has been called for this pipe.
  born : Bool

inductive EnvEvent (E : Type) where
  | run (e : E)
  | pipe
  | close (i : Fin 32)
  | dup (old new : Fin 32)
  | fork (child : E)
  | exit
  | pipeisclosed (i : Fin 32)
  | other (p : Place) (mapped : Bool)
  | go (flag : Bool)

namespace Envs

variable {E : Type} [Fintype E] [DecidableEq E]

def start (first : E) : Envs E where
  mem _ _ := none
  task e := if e = first then .idle else .free
  runs _ := 0
  current := first
  born := false

def refs (s : Envs E) (f : Frame) : Nat :=
  (Finset.univ.filter fun q : E × Place => s.mem q.1 q.2 = some f).card

def pageref (s : Envs E) (e : E) (p : Place) : Nat :=
  match s.mem e p with
  | none => 0
  | some f => s.refs f

def set (s : Envs E) (m : Pages) (t : Task E) : Envs E :=
  { s with mem := update s.mem s.current m, task := update s.task s.current t }

def trap (s : Envs E) : Envs E :=
  { s with runs := update s.runs s.current (s.runs s.current + 1) }

def answer (s : Envs E) : Option (Fin 32 × Bool) :=
  match s.task s.current with
  | .asked i n (some f) (some d) => if n = s.runs s.current then some (i, decide (f = d)) else none
  | _ => none

def go (s : Envs E) (flag : Bool) : Option (Envs E) :=
  let m := s.mem s.current
  match s.task s.current with
  | .pipeFd i =>
    match flag, fdAlloc m with
    | true, some j => some (s.set (update m (.fd j) (some (.fd .write))) (.pipeFds i j)).trap
    | _, _ => some (s.set m (.undo [.fd i])).trap
  | .pipeFds i j =>
    if flag then some (s.set (update m (.data i) (some .pipe)) (.pipeData i j)).trap
    else some (s.set m (.undo [.fd j, .fd i])).trap
  | .pipeData i j =>
    if flag then some (s.set (update m (.data j) (m (.data i))) .idle).trap
    else some (s.set m (.undo [.data i, .fd j, .fd i])).trap
  | .undo (p :: rest) => some (s.set (Lib.unmap m p) (.undo rest)).trap
  | .undo [] => some (s.set m .idle)
  | .unmap (p :: rest) => some (s.set (Lib.unmap m p) (.unmap rest)).trap
  | .unmap [] => some (s.set m .idle)
  | .dup old new (p :: rest) => some (s.set (Lib.unmap m p) (.dup old new rest)).trap
  | .dup old new [] =>
    match m (.data old) with
    | some f => some (s.set (update m (.data new) (some f)) (.dupFd old new)).trap
    | none => some (s.set m (.dupFd old new))
  | .dupFd old new =>
    match m (.fd old) with
    | some f => some (s.set (update m (.fd new) (some f)) .idle).trap
    | none => some (s.set m (.unmap [.fd new, .data new])).trap
  | .copy child (p :: rest) =>
    -- `duppage`, or one round of `copy_shared_pages`; the pages are shared.
    match m p with
    | some f =>
      let s := s.set m (.copy child rest)
      some { s with mem := update s.mem child (update (s.mem child) p (some f)) }.trap
    | none => some (s.set m (.copy child rest))
  | .copy child [] =>
    let s := s.set m .idle
    some { s with task := update s.task child .idle }.trap
  | .ask i => some (s.set m (.asked i (s.runs s.current) none none))
  | .asked i _ (some _) (some _) => some (s.set m (if s.answer = none then .ask i else .idle))
  | .asked i n f d =>
    -- The two calls of `pageref` come in either order.
    if flag then some (s.set m (.asked i n (some (s.pageref s.current (.fd i))) d))
    else some (s.set m (.asked i n f (some (s.pageref s.current (.data i)))))
  | _ => none

def step (s : Envs E) : EnvEvent E → Option (Envs E)
  | .run e =>
    if s.task e = .free ∨ s.task e = .newborn then none else some { s with current := e }.trap
  | .go flag => s.go flag
  | event =>
    let m := s.mem s.current
    if s.task s.current = .idle then
      match event with
      | .pipe =>
        match s.born, fdAlloc m with
        | false, some i =>
          some { s.set (update m (.fd i) (some (.fd .read))) (.pipeFd i) with born := true }.trap
        | _, _ => none
      | .close i => some (s.set m (.unmap (Lib.close m i)))
      | .dup old new =>
        if m (.fd old) = none then none else some (s.set m (.dup old new (Lib.close m new)))
      | .fork child =>
        if s.task child = .free then
          let s := s.set m (.copy child places)
          some { s with task := update s.task child .newborn }.trap
        else none
      | .exit => some (s.set (fun _ => none) .free)
      | .pipeisclosed i =>
        match m (.fd i) with
        | some (.fd _) => some (s.set m (.ask i))
        | _ => none
      | .other p mapped =>
        if m p = none ∨ m p = some .other then
          some (s.set (update m p (if mapped then some .other else none)) .idle).trap
        else none
      | _ => none
    else none

end Envs

end Jos.Lib
