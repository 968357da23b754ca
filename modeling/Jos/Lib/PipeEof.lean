import Jos.Lib.PipeFifo

namespace Jos.Lib

open Jos.Shared
open Jos.Kern (Word Byte)

def Reader.Sound (rpos : Word) : Reader → Prop
  | .test _ _ r _ => ∀ x, r = some x → x = rpos
  | .fetch _ _ pos => pos = rpos
  | .bump _ got => 0 < got
  | .store _ got pos => 0 < got ∧ pos = rpos
  | _ => True

namespace PipeState

variable {W : Type} [Fintype W] [DecidableEq W]

def stale (s : PipeState W) : Bool :=
  match s.reader with
  | .test _ 0 _ (some w) => w ≠ s.wpos
  | .empty _ => s.rpos ≠ s.wpos
  | _ => false

def Patient (s : PipeState W) : PipeEvent W → Prop
  | .writeClose _ => s.stale = false
  | _ => True

instance (s : PipeState W) (e : PipeEvent W) : Decidable (s.Patient e) :=
  match e with
  | .writeClose _ => inferInstanceAs (Decidable (s.stale = false))
  | .readCall _ | .readLoad _ | .read | .readClose | .writeCall _ _ | .writeLoad _ _ | .write _ =>
    .isTrue trivial

structure Eof (s : PipeState W) : Prop where
  reader : s.reader.Sound s.rpos
  -- Some writer will still be open when the reader asks whether the pipe is closed.
  waits : s.stale = true → ∃ w, (s.writerEnds w).fd = true
  count : s.rpos + BitVec.ofNat 32 s.reader.pending = BitVec.ofNat 32 s.delivered.length

namespace Eof

variable {s s' : PipeState W}

omit [Fintype W] [DecidableEq W] in
theorem start (buf : Nat → Byte) : Eof (start (W := W) buf) :=
  ⟨trivial, nofun, rfl⟩

theorem step {e : PipeEvent W} (eof : Eof s) (tied : Tied s) (patient : s.Patient e)
    (next : s.step e = some s') : Eof s' := by
  obtain ⟨sound, waits, count⟩ := eof
  -- Whatever a writer in a call does to `p_wpos`, it is still there itself.
  have mapped := tied.writer
  have longer : ∀ b, BitVec.ofNat 32 (s.delivered ++ [b]).length =
      BitVec.ofNat 32 s.delivered.length + BitVec.ofNat 32 1 := by
    simp [BitVec.ofNat_add]
  cases e <;> simp only [PipeState.step, PipeState.readStep, PipeState.writeStep] at next <;>
    (repeat' split at next) <;> cases next <;> constructor <;>
    simp only [setWriter, readReturn, Function.update_apply, longer] <;>
    grind -ring -linarith -order [Reader.Sound, Reader.pending, Writer.InCall, stale, Patient]

end Eof

omit [DecidableEq W] in
theorem closed_of_readerSees {s : PipeState W} (tied : Tied s) (mapped : s.readerEnds.fd = true)
    (closed : s.readerSeesClosed = true) (w : W) : (s.writerEnds w).fd = false := by
  rw [readerSeesClosed, dataRefs, decide_eq_true_eq, mapped, tied.readerData mapped] at closed
  have none_ : (Finset.univ.filter fun w => (s.writerEnds w).data = true) = ∅ := by
    rw [← Finset.card_eq_zero]
    exact Nat.add_eq_right.mp closed.symm
  cases fd : (s.writerEnds w).fd with
  | false => rfl
  | true =>
    have member : w ∈ Finset.univ.filter fun w => (s.writerEnds w).data = true := by
      simp [tied.writerData w fd]
    rw [none_] at member
    cases member

omit [DecidableEq W] in
theorem sees_of_return_zero {s s' : PipeState W} (sound : s.reader.Sound s.rpos)
    (calling : s.reader.InCall) (next : s.readStep = some s') (done : s'.reader = .idle)
    (zero : s'.returned = some 0) : (∃ left, s.reader = .empty left) ∧ s.readerSeesClosed = true ∧
    s' = s.readReturn 0 := by
  unfold readStep at next
  (repeat' split at next) <;> cases next <;> simp only [readReturn] at done zero ⊢ <;>
    grind -ring -linarith -order [Reader.InCall, Reader.Sound]

theorem eof_at_end (buf : Nat → Byte) (es : List (PipeEvent W)) (s s' : PipeState W)
    (run : Run step Patient (start buf) es s) (calling : s.reader.InCall) (next : s.step .read = some s')
    (done : s'.reader = .idle) (zero : s'.returned = some 0) :
    (∀ w, (s'.writerEnds w).fd = false) ∧ s'.rpos = s'.wpos ∧
    s'.wpos = BitVec.ofNat 32 s'.delivered.length := by
  have holds : Tied s ∧ Eof s := by
    refine run.invariant (motive := fun s => Tied s ∧ Eof s) ⟨Tied.start buf, Eof.start buf⟩ ?_
    rintro s e t ⟨tied, eof⟩ patient next
    exact ⟨tied.step next, eof.step tied patient next⟩
  obtain ⟨tied, eof⟩ := holds
  obtain ⟨⟨left, here⟩, closed, rfl⟩ := sees_of_return_zero eof.reader calling next done zero
  have gone := closed_of_readerSees tied (tied.reader calling) closed
  have same : s.rpos = s.wpos := by
    by_contra differ
    obtain ⟨w, mapped⟩ := eof.waits (by simpa [stale, here] using differ)
    exact absurd ((gone w).symm.trans mapped) nofun
  have count := eof.count
  rw [here] at count
  have all : s.rpos = BitVec.ofNat 32 s.delivered.length := by simpa [Reader.pending] using count
  exact ⟨gone, same, same.symm.trans all⟩

instance (pc : Reader) : Decidable pc.InCall :=
  match pc with
  | .idle | .closing => .isFalse id
  | .test .. | .empty _ | .index .. | .fetch .. | .bump .. | .store .. => .isTrue trivial

-- A byte is written while the reader waits for one.
def oneWritten : List (PipeEvent Unit) :=
  [.readCall 1, .readLoad true, .readLoad false, .read, .writeCall () [7], .writeLoad () true,
    .writeLoad () false, .write (), .write (), .write (), .write (), .write ()]

def oneRead : List (PipeEvent Unit) := oneWritten ++
  [.read, .readLoad true, .readLoad false, .read, .read, .read, .read, .read, .writeClose (), .write (),
    .readCall 1, .readLoad true, .readLoad false, .read]

theorem eof_at_end_one : ∃ s s' : PipeState Unit, Run step Patient (start fun _ => 0) oneRead s ∧
    s.step .read = some s' ∧ s'.returned = some 0 ∧ s'.rpos = s'.wpos ∧ s'.delivered = [7] := by
  have ran : ∃ s : PipeState Unit, Run step Patient (start fun _ => 0) oneRead s ∧ (s.reader.InCall ∧
      (s.step .read).any (fun s' => s'.reader = .idle ∧ s'.returned = some 0 ∧ s'.delivered = [7])) :=
    Run.of_exec_any (by decide +kernel)
  obtain ⟨s, run, calling, ends⟩ := ran
  obtain ⟨s', next, after⟩ := (Option.any_eq_true _ _).mp ends
  obtain ⟨done, zero, got⟩ := of_decide_eq_true after
  exact ⟨s, s', run, next, zero, (eof_at_end _ _ s s' run calling next done zero).2.1, got⟩

-- The writer stores a byte and closes its end between the two tests of the reader.
theorem eof_too_early : ∃ s s' : PipeState Unit,
    Run step (fun _ _ => True) (start fun _ => 0) (oneWritten ++ [.writeClose (), .write ()]) s ∧
      s.reader.InCall ∧ s.step .read = some s' ∧ s'.reader = .idle ∧ s'.returned = some 0 ∧
      s'.rpos ≠ s'.wpos ∧ s'.written = [7] ∧ s'.delivered = [] := by
  have ran : ∃ s : PipeState Unit,
      Run step (fun _ _ => True) (start fun _ => 0) (oneWritten ++ [.writeClose (), .write ()]) s ∧
      (s.reader.InCall ∧ (s.step .read).any (fun s' => s'.reader = .idle ∧ s'.returned = some 0 ∧
        s'.rpos ≠ s'.wpos ∧ s'.written = [7] ∧ s'.delivered = [])) :=
    Run.of_exec_any (by decide +kernel)
  obtain ⟨s, run, calling, ends⟩ := ran
  obtain ⟨s', next, after⟩ := (Option.any_eq_true _ _).mp ends
  exact ⟨s, s', run, calling, next, of_decide_eq_true after⟩

end PipeState

end Jos.Lib
