import Jos.Lib.PipeFifo

namespace Jos.Lib

open Jos.Shared
open Jos.Kern (Word Byte)
open Function

def Usable (pos : Word) : Prop := pos.toNat < 2 ^ 31 ∨ pos.toNat % pipebufsiz = 0

def Stuck (rpos wpos : Word) : Prop := rpos = wpos ∧ 2 ^ 32 - pipebufsiz ≤ wpos.toNat

theorem slot_lt_iff (pos : Word) : slot pos < pipebufsiz ↔ Usable pos := by
  by_cases small : pos.toNat < 2 ^ 31
  · rw [slot_eq small]
    exact iff_of_true (Nat.mod_lt _ (by decide)) (.inl small)
  · have bound := pos.isLt
    have negative : pos.toInt = pos.toNat - 2 ^ 32 := by
      rw [BitVec.toInt_eq_toNat_cond, if_neg (by omega)]
      rfl
    have rem : (pos.srem 32).toInt = pos.toInt.tmod 32 := BitVec.toInt_srem pos 32
    have truncated : pos.toInt.tmod 32 = -(((2 ^ 32 - pos.toNat) % 32 : Nat) : Int) := by
      have value : pos.toInt = -((2 ^ 32 - pos.toNat : Nat) : Int) := by omega
      rw [value, Int.neg_tmod]
      rfl
    rw [truncated, BitVec.toInt_eq_toNat_cond] at rem
    have width := (pos.srem 32).isLt
    unfold slot Usable pipebufsiz
    split at rem <;> omega

theorem both_tests_iff (rpos wpos : Word) : rpos + 32 ≤ wpos ∧ rpos = wpos ↔ Stuck rpos wpos := by
  have bound := wpos.isLt
  constructor
  · rintro ⟨full, rfl⟩
    have full' : (rpos + 32).toNat ≤ rpos.toNat := full
    rw [BitVec.toNat_add, show (32 : Word).toNat = 32 from rfl] at full'
    refine ⟨rfl, ?_⟩
    unfold pipebufsiz
    omega
  · rintro ⟨rfl, high⟩
    refine ⟨?_, rfl⟩
    show (rpos + 32).toNat ≤ rpos.toNat
    rw [BitVec.toNat_add, show (32 : Word).toNat = 32 from rfl]
    unfold pipebufsiz at high
    omega

def Reader.InBounds : Reader → Prop
  | .fetch _ _ pos => slot pos < pipebufsiz
  | _ => True

def Writer.InBounds : Writer → Prop
  | .put _ pos => slot pos < pipebufsiz
  | _ => True

def Reader.Meets (rpos wpos : Word) : Reader → Prop
  | .index _ _ => Usable rpos
  | .store _ _ pos => ¬Stuck (pos + 1) wpos
  | _ => True

def Writer.Meets (rpos wpos : Word) : Writer → Prop
  | .index _ => Usable wpos
  | .store _ pos => ¬Stuck rpos (pos + 1)
  | _ => True

namespace PipeState

variable {W : Type} [Fintype W] [DecidableEq W] {s s' : PipeState W}

structure Sound (s : PipeState W) : Prop where
  reader : s.reader.InBounds
  writer : ∀ w, (s.writer w).InBounds
  positions : ¬(s.rpos + 32 ≤ s.wpos ∧ s.rpos = s.wpos)

-- Every step meets this: a position that is loaded for an index is usable, and no position is
-- stored that stops both sides.
def Meets (s : PipeState W) : PipeEvent W → Prop
  | .read => s.reader.Meets s.rpos s.wpos
  | .write w => (s.writer w).Meets s.rpos s.wpos
  | _ => True

omit [Fintype W] [DecidableEq W] in
theorem sound_iff : s.Sound ↔
    s.reader.InBounds ∧ (∀ w, (s.writer w).InBounds) ∧ ¬(s.rpos + 32 ≤ s.wpos ∧ s.rpos = s.wpos) :=
  ⟨fun ⟨reader, writer, positions⟩ => ⟨reader, writer, positions⟩,
    fun ⟨reader, writer, positions⟩ => ⟨reader, writer, positions⟩⟩

theorem step_sound {e : PipeEvent W} (sound : s.Sound) (next : s.step e = some s') : s'.Sound ↔
    s.Meets e := by
  obtain ⟨reader, writer, positions⟩ := sound
  cases e <;> simp only [step, readStep, writeStep] at next <;> (repeat' split at next) <;> cases next <;>
    simp only [Meets, sound_iff, setWriter, readReturn, update_apply] <;>
    grind -ring -linarith -order [Reader.InBounds, Writer.InBounds, Reader.Meets, Writer.Meets,
      slot_lt_iff, both_tests_iff, Writer.next]

omit [Fintype W] [DecidableEq W] in
theorem start_sound (buf : Nat → Byte) : (start (W := W) buf).Sound where
  reader := trivial
  writer _ := trivial
  positions := by
    show ¬((0 : Word) + 32 ≤ 0 ∧ (0 : Word) = 0)
    decide

theorem positions_safe_iff (buf : Nat → Byte) (es : List (PipeEvent W)) (s : PipeState W)
    (run : Run step Meets (start buf) es s) : s.Sound ∧ ∀ e t, s.step e = some t →
    (t.Sound ↔ s.Meets e) := by
  have sound : s.Sound := run.invariant (motive := Sound) (start_sound buf) fun _ _ _ sound met next =>
    (step_sound sound next).mpr met
  exact ⟨sound, fun e t next => step_sound sound next⟩

theorem short_run_meets {buf : Nat → Byte} {es : List (PipeEvent Unit)} {s : PipeState Unit}
    (run : Run step (fun _ _ => True) (start buf) es s) (total : s.written.length < 2 ^ 31) :
    Run step Meets (start buf) es s := by
  have all : s.written.length < 2 ^ 31 → Run step Meets (start buf) es s ∧ Tied s ∧
    Fifo s (s.writer ()) := by
    clear total
    induction run with
    | nil => exact fun _ => ⟨.nil _, Tied.start buf, Fifo.start buf⟩
    | @snoc t u es e run allowed next ih =>
      intro small
      have grows := (step_written next).length_le
      obtain ⟨run', tied, fifo⟩ := ih (by omega)
      have stored := fifo.stored
      have behind := fifo.behind
      have read := fifo.read
      have met : t.Meets e := by
        cases e with
        | read =>
          show t.reader.Meets t.rpos t.wpos
          cases here : t.reader with
          | index left got => exact .inl (by omega)
          | store left got pos =>
            rintro ⟨same, high⟩
            unfold pipebufsiz at high
            omega
          | _ => trivial
        | write w =>
          show (t.writer w).Meets t.rpos t.wpos
          cases here : t.writer w with
          | index rest => exact .inl (by omega)
          | store rest pos =>
            rintro ⟨same, high⟩
            have value := congrArg BitVec.toNat same
            unfold pipebufsiz at high
            omega
          | _ => trivial
        | _ => trivial
      exact ⟨.snoc run' met next, tied.step next, fifo.step tied next small⟩
  exact (all total).1

theorem positions_safe_one : ∃ s : PipeState Unit,
    Run step (fun _ _ => True) (start fun _ => 0)
      [.writeCall () [7], .writeLoad () true, .writeLoad () false, .write (), .write ()] s ∧ s.Sound := by
  refine Run.of_exec_imp (p := fun s => s.written.length < 2 ^ 31)
    (by decide +kernel) fun s run total => ?_
  exact (positions_safe_iff _ _ s (short_run_meets run total)).1

section Passing

def passOne : List (PipeEvent Unit) :=
  [.writeCall () [7], .writeLoad () true, .writeLoad () false, .write (), .write (), .write (),
    .write (), .write (), .readCall 1, .readLoad true, .readLoad false, .read, .read, .read,
    .read, .read]

structure Quiet (n : Nat) (s : PipeState Unit) : Prop where
  rpos : s.rpos = BitVec.ofNat 32 n
  wpos : s.wpos = BitVec.ofNat 32 n
  reader : s.reader = .idle
  writer : s.writer = fun _ => .idle
  ends : s.readerEnds = ⟨true, true⟩ ∧ s.writerEnds = fun _ => ⟨true, true⟩

theorem Quiet.pass {n : Nat} {s : PipeState Unit} (quiet : Quiet n s) (small : n < 2 ^ 32 - 32) :
    ∃ s', Run step (fun _ _ => True) s passOne s' ∧ Quiet (n + 1) s' := by
  obtain ⟨rpos, wpos, buf, reader, readerEnds, writer, writerEnds, returned, handed, written,
    delivered⟩ := s
  obtain ⟨rfl, rfl, rfl, rfl, rfl, rfl⟩ := quiet
  have room : ¬BitVec.ofNat 32 n + 32#32 ≤ BitVec.ofNat 32 n := by
    intro full
    have full' : (BitVec.ofNat 32 n + 32#32).toNat ≤ (BitVec.ofNat 32 n).toNat := full
    rw [BitVec.toNat_add, BitVec.toNat_ofNat, show (32#32).toNat = 32 from rfl] at full'
    omega
  have some_ : BitVec.ofNat 32 n ≠ BitVec.ofNat 32 n + 1#32 := by
    intro same
    have value := congrArg BitVec.toNat same
    rw [BitVec.toNat_add, BitVec.toNat_ofNat, show (1#32).toNat = 1 from rfl] at value
    omega
  have put : exec step (fun _ _ => True)
      ⟨BitVec.ofNat 32 n, BitVec.ofNat 32 n, buf, .idle, ⟨true, true⟩, fun _ => .idle,
        fun _ => ⟨true, true⟩, returned, handed, written, delivered⟩
      [.writeCall () [7], .writeLoad () true, .writeLoad () false, .write (), .write (), .write (),
        .write (), .write ()] =
      some (⟨BitVec.ofNat 32 n, BitVec.ofNat 32 n + 1, update buf (slot (BitVec.ofNat 32 n)) 7,
        .idle, ⟨true, true⟩, fun _ => .idle, fun _ => ⟨true, true⟩, returned, handed ++ [7],
        written ++ [7], delivered⟩ : PipeState Unit) := by
    simp only [exec, ↓reduceIte, step, and_self, setWriter, Writer.next, BitVec.ofNat_eq_ofNat,
      List.cons_ne_self, Bool.false_eq_true, writeStep, Option.bind_fun_some, Option.bind_some,
      update_self, update_idem, room, update_eq_self]
  have taken : exec step (fun _ _ => True)
      ⟨BitVec.ofNat 32 n, BitVec.ofNat 32 n + 1, update buf (slot (BitVec.ofNat 32 n)) 7, .idle,
        ⟨true, true⟩, fun _ => .idle, fun _ => ⟨true, true⟩, returned, handed ++ [7],
        written ++ [7], delivered⟩
      [.readCall 1, .readLoad true, .readLoad false, .read, .read, .read, .read, .read] =
      some (⟨BitVec.ofNat 32 n + 1, BitVec.ofNat 32 n + 1, update buf (slot (BitVec.ofNat 32 n)) 7,
        .idle, ⟨true, true⟩, fun _ => .idle, fun _ => ⟨true, true⟩, some 1, handed ++ [7],
        written ++ [7], delivered ++ [7]⟩ : PipeState Unit) := by
    simp only [exec, ↓reduceIte, step, and_self, one_ne_zero, BitVec.ofNat_eq_ofNat,
      Bool.false_eq_true, readStep, readReturn, Option.bind_fun_some, Option.bind_some, some_,
      zero_add, update_self, Std.le_refl]
  exact ⟨_, (Run.of_exec put).trans (Run.of_exec taken),
    ⟨(BitVec.ofNat_add ..).symm, (BitVec.ofNat_add ..).symm, rfl, rfl, rfl, rfl⟩⟩

theorem pass_runs (n : Nat) (small : n ≤ 2 ^ 32 - 32) : ∃ s : PipeState Unit,
    Run step (fun _ _ => True) (start fun _ => 0) (List.replicate n passOne).flatten s ∧ Quiet n s := by
  induction n with
  | zero => exact ⟨start fun _ => 0, .nil _, rfl, rfl, rfl, rfl, rfl, rfl⟩
  | succ n ih =>
    obtain ⟨s, run, quiet⟩ := ih (by omega)
    obtain ⟨s', once, quiet'⟩ := quiet.pass (by omega)
    refine ⟨s', ?_, quiet'⟩
    rw [List.replicate_succ', List.flatten_append, List.flatten_singleton]
    exact run.trans once

-- After 2 ^ 31 + 1 bytes have been passed, the next one is stored in front of the buffer.
theorem index_negative : ∃ s : PipeState Unit,
    Run step (fun _ _ => True) (start fun _ => 0)
      ((List.replicate 2147483649 passOne).flatten ++ [.writeCall () [7], .writeLoad () true,
      .writeLoad () false, .write (), .write ()]) s ∧ s.writer () = .put [7] 0x80000001 ∧
      ¬slot 0x80000001 < pipebufsiz ∧ ¬s.Sound := by
  obtain ⟨s, run, quiet⟩ := pass_runs 2147483649 (by decide)
  obtain ⟨rpos, wpos, buf, reader, readerEnds, writer, writerEnds, returned, handed, written,
    delivered⟩ := s
  obtain ⟨rfl, rfl, rfl, rfl, rfl, rfl⟩ := quiet
  have ran : exec step (fun _ _ => True)
      ⟨BitVec.ofNat 32 2147483649, BitVec.ofNat 32 2147483649, buf, .idle, ⟨true, true⟩,
        fun _ => .idle, fun _ => ⟨true, true⟩, returned, handed, written, delivered⟩
      [.writeCall () [7], .writeLoad () true, .writeLoad () false, .write (), .write ()] =
      some (⟨0x80000001, 0x80000001, buf, .idle, ⟨true, true⟩, fun _ => .put [7] 0x80000001,
        fun _ => ⟨true, true⟩, returned, handed ++ [7], written, delivered⟩ : PipeState Unit) := by
    simp only [exec, ↓reduceIte, step, and_self, setWriter, Writer.next, BitVec.ofNat_eq_ofNat,
      List.cons_ne_self, Bool.false_eq_true, writeStep, Option.bind_fun_some, Option.bind_some,
      update_self, update_idem, BitVec.reduceAdd,
      BitVec.ofNat_le_ofNat, Nat.reducePow, Nat.reduceMod, Nat.reduceLeDiff, Option.some.injEq,
        mk.injEq, funext_iff,
      implies_true]
  have outside : ¬slot 0x80000001 < pipebufsiz := by decide
  exact ⟨_, run.trans (Run.of_exec ran), rfl, outside, fun sound => outside (sound.writer ())⟩

end Passing

end PipeState

end Jos.Lib
