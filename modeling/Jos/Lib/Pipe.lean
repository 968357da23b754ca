import Jos.Shared.Run
import Jos.Kern.Mmu

namespace Jos.Lib

open Jos.Shared
open Jos.Kern (Word Byte)
open Function

def pipebufsiz : Nat := 32

def slot (pos : Word) : Nat := (pos.srem 32).toNat

inductive Reader where
  | idle
  -- The loop condition loads both positions, in any order.
  | test (left got : Nat) (rpos wpos : Option Word)
  | empty (left : Nat)
  | index (left got : Nat)
  | fetch (left got : Nat) (pos : Word)
  | bump (left got : Nat)
  | store (left got : Nat) (pos : Word)
  | closing
  deriving DecidableEq

inductive Writer where
  | idle
  | test (rest : List Byte) (wpos rpos : Option Word)
  | full (rest : List Byte)
  | index (rest : List Byte)
  | put (rest : List Byte) (pos : Word)
  | bump (rest : List Byte)
  | store (rest : List Byte) (pos : Word)
  | closing
  deriving DecidableEq

structure Mapped where
  fd : Bool
  data : Bool
  deriving DecidableEq

/-- A pipe with one reading environment and the writing ones in `W`. What has been handed to
`devpipe_write`, stored by it and delivered by `devpipe_read` is kept along. -/
structure PipeState (W : Type) where
  rpos : Word
  wpos : Word
  buf : Nat → Byte
  reader : Reader
  readerEnds : Mapped
  writer : W → Writer
  writerEnds : W → Mapped
  returned : Option Nat
  handed : List Byte
  written : List Byte
  delivered : List Byte

inductive PipeEvent (W : Type) where
  | readCall (n : Nat)
  | readLoad (rpos : Bool)
  | read
  | readClose
  | writeCall (w : W) (bytes : List Byte)
  | writeLoad (w : W) (wpos : Bool)
  | write (w : W)
  | writeClose (w : W)

def Reader.InCall : Reader → Prop
  | .idle => False
  | .closing => False
  | _ => True

def Writer.InCall : Writer → Prop
  | .idle => False
  | .closing => False
  | _ => True

def Writer.next (rest : List Byte) : Writer :=
  if rest = [] then .idle else .test rest none none

namespace PipeState

variable {W : Type} [Fintype W] [DecidableEq W]

def start (buf : Nat → Byte) : PipeState W where
  rpos := 0
  wpos := 0
  buf := buf
  reader := .idle
  readerEnds := ⟨true, true⟩
  writer _ := .idle
  writerEnds _ := ⟨true, true⟩
  returned := none
  handed := []
  written := []
  delivered := []

def dataRefs (s : PipeState W) : Nat :=
  (Finset.univ.filter fun w => (s.writerEnds w).data).card + s.readerEnds.data.toNat

def readerSeesClosed (s : PipeState W) : Bool := s.readerEnds.fd.toNat = s.dataRefs

def writerSeesClosed (s : PipeState W) : Bool :=
  (Finset.univ.filter fun w => (s.writerEnds w).fd).card = s.dataRefs

def readReturn (s : PipeState W) (r : Nat) : PipeState W := { s with reader := .idle, returned := some r }

def readStep (s : PipeState W) : Option (PipeState W) :=
  match s.reader with
  | .test left got (some r) (some w) =>
    if r = w then
      if 0 < got then some (s.readReturn got) else some { s with reader := .empty left }
    else some { s with reader := .index left got }
  | .empty left =>
    if s.readerSeesClosed then some (s.readReturn 0) else some { s with reader := .test left 0 none none }
  | .index left got => some { s with reader := .fetch left got s.rpos }
  | .fetch left got pos =>
    some { s with reader := .bump left (got + 1), delivered := s.delivered ++ [s.buf (slot pos)] }
  | .bump left got => some { s with reader := .store left got s.rpos }
  | .store left got pos =>
    let s := { s with rpos := pos + 1 }
    if left ≤ 1 then some (s.readReturn got) else some { s with reader := .test (left - 1) got none none }
  | .closing => some { s with reader := .idle, readerEnds := { s.readerEnds with data := false } }
  | _ => none

def setWriter (s : PipeState W) (w : W) (pc : Writer) : PipeState W :=
  { s with writer := update s.writer w pc }

def writeStep (s : PipeState W) (w : W) : Option (PipeState W) :=
  match s.writer w with
  | .test rest (some wp) (some rp) =>
    -- The comparison is unsigned because `sizeof` is.
    if rp + 32 ≤ wp then some (s.setWriter w (.full rest)) else some (s.setWriter w (.index rest))
  | .full rest =>
    if s.writerSeesClosed then some (s.setWriter w .idle) else some (s.setWriter w (.test rest none none))
  | .index rest => some (s.setWriter w (.put rest s.wpos))
  | .put (b :: rest) pos =>
    some { s.setWriter w (.bump rest) with buf := update s.buf (slot pos) b, written := s.written ++ [b] }
  | .bump rest => some (s.setWriter w (.store rest s.wpos))
  | .store rest pos =>
    some { s.setWriter w (.next rest) with wpos := pos + 1 }
  | .closing =>
    some { s.setWriter w .idle with
      writerEnds := update s.writerEnds w { s.writerEnds w with data := false } }
  | _ => none

-- One load or store of an environment, the beginning of a call, or one of the two system calls of
-- `devpipe_close`.
def step (s : PipeState W) : PipeEvent W → Option (PipeState W)
  | .readCall n =>
    if s.reader = .idle ∧ s.readerEnds.fd then
      if n = 0 then some (s.readReturn 0) else some
        { s with reader := .test n 0 none none, returned := none }
    else none
  | .readLoad rpos =>
    match s.reader with
    | .test left got r w =>
      some { s with reader :=
        if rpos then .test left got (some s.rpos) w else .test left got r (some s.wpos) }
    | _ => none
  | .read => s.readStep
  | .readClose =>
    if s.reader = .idle ∧ s.readerEnds.fd then
      some { s with reader := .closing, readerEnds := { s.readerEnds with fd := false } }
    else none
  | .writeCall w bytes =>
    if s.writer w = .idle ∧ (s.writerEnds w).fd then
      some { s.setWriter w (.next bytes) with handed := s.handed ++ bytes }
    else none
  | .writeLoad w wpos =>
    match s.writer w with
    | .test rest wp rp =>
      some (s.setWriter w (if wpos then .test rest (some s.wpos) rp else .test rest wp (some s.rpos)))
    | _ => none
  | .write w => s.writeStep w
  | .writeClose w =>
    if s.writer w = .idle ∧ (s.writerEnds w).fd then
      some { s.setWriter w .closing with
        writerEnds := update s.writerEnds w { s.writerEnds w with fd := false } }
    else none

structure Tied (s : PipeState W) : Prop where
  reader : s.reader.InCall → s.readerEnds.fd = true
  readerClosing : s.reader = .closing → s.readerEnds.fd = false
  readerData : s.readerEnds.fd = true → s.readerEnds.data = true
  writer : ∀ w, (s.writer w).InCall → (s.writerEnds w).fd = true
  writerClosing : ∀ w, s.writer w = .closing → (s.writerEnds w).fd = false
  writerData : ∀ w, (s.writerEnds w).fd = true → (s.writerEnds w).data = true

variable {s s' : PipeState W}

omit [DecidableEq W] in
theorem readStep_frame (next : s.readStep = some s') :
    s'.writer = s.writer ∧ s'.writerEnds = s.writerEnds ∧ s'.wpos = s.wpos ∧ s'.written = s.written := by
  unfold readStep at next
  split at next <;> (try split at next) <;> (try split at next) <;> cases next <;>
    exact ⟨rfl, rfl, rfl, rfl⟩

theorem writeStep_frame {w : W} (next : s.writeStep w = some s') :
    s'.reader = s.reader ∧ s'.readerEnds = s.readerEnds ∧ s'.rpos = s.rpos ∧ s'.delivered = s.delivered ∧
      s.written <+: s'.written := by
  unfold writeStep at next
  split at next <;> (try split at next) <;> cases next <;> refine ⟨rfl, rfl, rfl, rfl, ?_⟩
  any_goals exact List.prefix_refl _
  exact List.prefix_append _ _

theorem step_written {e : PipeEvent W} (next : s.step e = some s') : s.written <+: s'.written := by
  cases e with
  | read =>
    rw [(readStep_frame next).2.2.2]
  | write w => exact (writeStep_frame next).2.2.2.2
  | _ =>
    simp only [step] at next
    split at next <;> (try split at next) <;> cases next <;> exact List.prefix_refl _

namespace Tied

omit [Fintype W] [DecidableEq W] in
theorem start (buf : Nat → Byte) : Tied (start (W := W) buf) :=
  ⟨fun _ => rfl, nofun, fun _ => rfl, fun _ _ => rfl, nofun, fun _ _ => rfl⟩

theorem step {e : PipeEvent W} (tied : Tied s) (next : s.step e = some s') : Tied s' := by
  obtain ⟨reader, readerClosing, readerData, writer, writerClosing, writerData⟩ := tied
  cases e <;> simp only [PipeState.step, PipeState.readStep, PipeState.writeStep] at next <;>
    (repeat' split at next) <;> cases next <;> constructor <;>
    simp only [setWriter, readReturn, update_apply] <;>
      grind -ring -linarith -order [Reader.InCall, Writer.InCall, Writer.next]

end Tied

end PipeState

end Jos.Lib
