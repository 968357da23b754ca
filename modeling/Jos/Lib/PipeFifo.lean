import Jos.Shared.Ring
import Jos.Lib.Pipe

namespace Jos.Lib

open Jos.Shared
open Jos.Kern (Word Byte)

theorem slot_eq {pos : Word} (small : pos.toNat < 2 ^ 31) : slot pos = pos.toNat % pipebufsiz := by
  have positive : pos.msb = false := by
    rw [BitVec.msb_eq_false_iff_two_mul_lt]
    omega
  rw [slot, BitVec.srem_eq, positive, show (32 : Word).msb = false from rfl]
  exact BitVec.toNat_umod

def Reader.pending : Reader → Nat
  | .bump _ _ => 1
  | .store _ _ _ => 1
  | _ => 0

def Writer.pending : Writer → Nat
  | .bump _ => 1
  | .store _ _ => 1
  | _ => 0

def Writer.rest : Writer → List Byte
  | .idle => []
  | .test rest _ _ => rest
  | .full rest => rest
  | .index rest => rest
  | .put rest _ => rest
  | .bump rest => rest
  | .store rest _ => rest
  | .closing => []

def Reader.Knows (rpos wpos : Word) : Reader → Prop
  | .test _ _ r w =>
    (∀ x, r = some x → x = rpos) ∧ ∀ y, w = some y → rpos.toNat ≤ y.toNat ∧ y.toNat ≤ wpos.toNat
  | .index _ _ => rpos.toNat < wpos.toNat
  | .fetch _ _ pos => rpos.toNat < wpos.toNat ∧ pos = rpos
  | .store _ _ pos => pos = rpos
  | _ => True

def Writer.Knows (rpos wpos : Word) : Writer → Prop
  | .test _ w r => (∀ x, w = some x → x = wpos) ∧ ∀ y, r = some y → y.toNat ≤ rpos.toNat
  | .index _ => wpos.toNat < rpos.toNat + pipebufsiz
  | .put _ pos => wpos.toNat < rpos.toNat + pipebufsiz ∧ pos = wpos
  | .store _ pos => pos = wpos
  | _ => True

theorem Writer.Knows.mono {rpos rpos' wpos : Word} {pc : Writer} (knows : pc.Knows rpos wpos)
    (later : rpos.toNat ≤ rpos'.toNat) : pc.Knows rpos' wpos := by
  cases pc <;> simp only [Writer.Knows] at knows ⊢ <;> grind -ring -linarith -order

theorem Reader.Knows.mono {rpos wpos wpos' : Word} {pc : Reader} (knows : pc.Knows rpos wpos)
    (later : wpos.toNat ≤ wpos'.toNat) : pc.Knows rpos wpos' := by
  cases pc <;> simp only [Reader.Knows] at knows ⊢ <;> grind -ring -linarith -order

theorem succ_toNat {pos : Word} (small : pos.toNat < 2 ^ 31) : (pos + 1).toNat = pos.toNat + 1 := by
  rw [BitVec.toNat_add, show (1 : Word).toNat = 1 from rfl]
  omega

namespace PipeState

structure Fifo (s : PipeState Unit) (pc : Writer) : Prop where
  small : s.written.length < 2 ^ 31
  stored : s.wpos.toNat + pc.pending = s.written.length
  read : s.rpos.toNat + s.reader.pending = s.delivered.length
  behind : s.delivered.length ≤ s.wpos.toNat
  room : s.written.length ≤ s.rpos.toNat + pipebufsiz
  ring : RingHolds s.buf pipebufsiz s.rpos.toNat s.written
  order : s.delivered <+: s.written
  reader : s.reader.Knows s.rpos s.wpos
  writer : pc.Knows s.rpos s.wpos
  -- A writer gives up only after the reader has closed its end.
  handed : s.readerEnds.fd = true → s.handed = s.written ++ pc.rest
  delivered : s.delivered <+: s.handed

namespace Fifo

variable {s s' : PipeState Unit} {pc : Writer}

theorem start (buf : Nat → Byte) : Fifo (start buf) .idle where
  small := Nat.zero_lt_succ _
  stored := rfl
  read := rfl
  behind := le_refl 0
  room := Nat.zero_le _
  ring k inside := absurd inside (Nat.not_lt_zero k)
  order := List.nil_prefix
  reader := trivial
  writer := trivial
  handed _ := rfl
  delivered := List.nil_prefix

theorem fetch (fifo : Fifo s pc) (tied : Tied s) {left got : Nat} {pos : Word}
    (here : s.reader = .fetch left got pos) : s.delivered ++ [s.buf (slot pos)] <+: s.written ∧
    s.delivered ++ [s.buf (slot pos)] <+: s.handed := by
  obtain ⟨small, stored, read, behind, room, ring, order, reader, -, handed, -⟩ := fifo
  have handed := handed (tied.reader (by rw [here]; trivial))
  rw [here] at reader read
  obtain ⟨more, rfl⟩ := reader
  have number : s.rpos.toNat = s.delivered.length := read
  have inside : s.delivered.length < s.written.length := by omega
  -- The byte that is read is the first one that has not been delivered.
  have byte : s.buf (slot s.rpos) = s.written[s.delivered.length] := by
    rw [slot_eq (by omega), number]
    exact ring _ inside (by omega)
  have order' : s.delivered ++ [s.buf (slot s.rpos)] <+: s.written := by
    have taken := List.take_append_getElem inside
    rw [← List.prefix_iff_eq_take.mp order] at taken
    rw [byte, taken]
    exact List.take_prefix _ _
  exact ⟨order', order'.trans (handed ▸ List.prefix_append _ _)⟩

theorem readStep (fifo : Fifo s pc) (tied : Tied s) (next : s.readStep = some s') : Fifo s' pc := by
  have fetched := fun left got pos (here : s.reader = .fetch left got pos) => fifo.fetch tied here
  obtain ⟨small, stored, read, behind, room, ring, order, reader, writer, handed, delivered⟩ := fifo
  have advanced := @succ_toNat s.rpos
  have dropped := fun r (later : s.rpos.toNat ≤ r) => ring.drop later
  have apart : ∀ x y : Word, x.toNat = y.toNat → x = y := fun _ _ => BitVec.eq_of_toNat_eq
  unfold PipeState.readStep at next
  (repeat' split at next) <;> cases next <;> constructor <;> dsimp only [readReturn] <;>
    first | assumption | grind -ring -linarith -order [Reader.Knows, Reader.pending, Writer.Knows.mono]

theorem fd_of_seesClosed (tied : Tied s) (mapped : (s.writerEnds ()).fd = true)
    (closed : s.writerSeesClosed = true) : s.readerEnds.fd = false := by
  have one : ∀ p : Unit → Bool, p () = true → (Finset.univ.filter fun w => p w).card = 1 := by
    intro p holds
    rw [Finset.filter_true_of_mem (fun w _ => holds)]
    rfl
  rw [writerSeesClosed, dataRefs, decide_eq_true_eq, one _ mapped,
    one _ (tied.writerData () mapped)] at closed
  have none_ : s.readerEnds.data.toNat = 0 := by omega
  cases fd : s.readerEnds.fd with
  | false => rfl
  | true =>
    rw [tied.readerData fd] at none_
    cases none_

theorem setWriter_unit (w : Unit) (pc : Writer) : s.setWriter w pc =
    { s with writer := fun _ => pc } := rfl

theorem writeStep (fifo : Fifo s (s.writer ())) (tied : Tied s) {w : Unit}
    (next : s.writeStep w = some s') (small' : s'.written.length < 2 ^ 31) :
    Fifo s' (s'.writer ()) := by
  have gone : (s.writerEnds w).fd = true → _ := fd_of_seesClosed tied
  have calling := tied.writer w
  change Fifo s (s.writer w) at fifo
  obtain ⟨small, stored, read, behind, room, ring, order, reader, writer, handed, delivered⟩ := fifo
  have advanced := @succ_toNat s.wpos
  have pushed := fun b : Byte => ring.push (x := b)
  have place := @slot_eq s.wpos
  have full : ∀ r : Word, r.toNat < 2 ^ 31 → (r + 32 ≤ s.wpos ↔ r.toNat + 32 ≤ s.wpos.toNat) := by
    intro r small
    rw [BitVec.le_def, BitVec.toNat_add, show (32 : Word).toNat = 32 from rfl,
      Nat.mod_eq_of_lt (by omega)]
  simp only [PipeState.writeStep, setWriter_unit] at next
  (repeat' split at next) <;> cases next <;> constructor <;> dsimp only at small' ⊢ <;>
    first | assumption | grind -ring -linarith -order [Writer.Knows, Writer.pending, Writer.rest,
      Writer.next, Writer.InCall, Reader.Knows.mono, pipebufsiz]

theorem step (fifo : Fifo s (s.writer ())) (tied : Tied s) {e : PipeEvent Unit}
    (next : s.step e = some s') (small' : s'.written.length < 2 ^ 31) : Fifo s' (s'.writer ()) := by
  cases e with
  | read =>
    rw [(readStep_frame next).1]
    exact fifo.readStep tied next
  | write w => exact fifo.writeStep tied next small'
  | _ =>
    have stored : ∀ w, s.wpos.toNat + (s.writer w).pending = s.written.length := fun _ => fifo.stored
    have writer : ∀ w, (s.writer w).Knows s.rpos s.wpos := fun _ => fifo.writer
    have handed : ∀ w, s.readerEnds.fd = true → s.handed = s.written ++ (s.writer w).rest :=
      fun _ => fifo.handed
    obtain ⟨small, -, read, behind, room, ring, order, reader, -, -, delivered⟩ := fifo
    simp only [PipeState.step] at next
    (repeat' split at next) <;> cases next <;> constructor <;> dsimp only [readReturn, setWriter_unit] <;>
      first | assumption | grind -ring -linarith -order [Reader.Knows, Writer.Knows, Reader.pending,
        Writer.pending, Writer.rest, Writer.next]

end Fifo

theorem pipe_fifo (buf : Nat → Byte) (es : List (PipeEvent Unit)) (s : PipeState Unit)
    (run : Run step (fun _ _ => True) (start buf) es s) (total : s.written.length < 2 ^ 31) :
    s.rpos.toInt ≤ s.wpos.toInt ∧ s.wpos.toInt ≤ s.rpos.toInt + pipebufsiz ∧
    s.delivered <+: s.handed := by
  have holds : Tied s ∧ (s.written.length < 2 ^ 31 → Fifo s (s.writer ())) := by
    refine run.invariant (motive := fun s => Tied s ∧ (s.written.length < 2 ^ 31 → Fifo s (s.writer ())))
      ⟨Tied.start buf, fun _ => Fifo.start buf⟩ ?_
    rintro s e t ⟨tied, fifo⟩ _ next
    have grows := (step_written next).length_le
    exact ⟨tied.step next, fun small => (fifo (by omega)).step tied next small⟩
  have fifo := holds.2 total
  have stored := fifo.stored
  have read := fifo.read
  have behind := fifo.behind
  have room := fifo.room
  have low : s.rpos.toInt = s.rpos.toNat := BitVec.toInt_eq_toNat_of_lt (by omega)
  have high : s.wpos.toInt = s.wpos.toNat := BitVec.toInt_eq_toNat_of_lt (by omega)
  exact ⟨by omega, by omega, fifo.delivered⟩

-- The reader looks while the first byte is in the buffer and not yet counted, and takes both bytes
-- in the end.
def interrupted : List (PipeEvent Unit) :=
  [.writeCall () [7, 8], .writeLoad () true, .writeLoad () false, .write (), .write (), .write (),
    .readCall 2, .readLoad false, .readLoad true, .read, .write (), .write (), .read,
    .writeLoad () true, .writeLoad () false, .write (), .write (), .write (), .write (), .write (),
    .readLoad true, .readLoad false, .read, .read, .read, .read, .read,
    .readLoad false, .readLoad true, .read, .read, .read, .read, .read]

theorem pipe_fifo_interrupted : ∃ s : PipeState Unit,
    Run step (fun _ _ => True) (start fun _ => 0) interrupted s ∧ s.delivered = [7, 8] ∧
    s.delivered <+: s.handed := by
  refine Run.of_exec_imp (p := fun s => s.delivered = [7, 8] ∧ s.written.length < 2 ^ 31)
    (by decide +kernel) ?_
  rintro s run ⟨got, total⟩
  exact ⟨got, (pipe_fifo _ _ s run total).2.2⟩

end PipeState

end Jos.Lib
