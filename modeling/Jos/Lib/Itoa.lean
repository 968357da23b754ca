import Jos.Lib.PrintfmtNumbers

namespace Jos.Lib.Itoa

open Jos.Kern (Word)
open Jos.Lib.Printfmt (strtol strtol_padded toDigits_induction mem_toDigits)
open Function

/-- Memory around the buffer, by the offset from its first byte, and the offsets that have been
stored to. -/
structure Buffer where
  mem : Int → Char
  stores : List Int

def Buffer.store (b : Buffer) (index : Int) (ch : Char) : Buffer :=
  ⟨update b.mem index ch, index :: b.stores⟩

def countLoop (num : Int) : Nat := if 0 < num then countLoop (num.tdiv 10) + 1 else 0
termination_by num.toNat
decreasing_by
  rw [Int.tdiv_eq_ediv_of_nonneg (by omega)]
  omega

def digitCount (num : Int) : Nat := if num = 0 then 1 else countLoop num

def digit (num : Int) : Char := Char.ofNat (num.tmod 10 + '0'.toNat).toNat

def digitLoop (num index : Int) (b : Buffer) : Buffer :=
  if num ≠ 0 then digitLoop (num.tdiv 10) (index - 1) (b.store index (digit num)) else b
termination_by num.natAbs
decreasing_by
  rw [Int.natAbs_tdiv]
  exact Nat.div_lt_self (Int.natAbs_pos.mpr (by assumption)) (by decide)

def itoa (num : Int) (b : Buffer) : Buffer :=
  let dgcount := digitCount num
  let index := (dgcount : Int) - 1
  if num = 0 ∧ dgcount = 1 then (b.store 0 '0').store 1 '\x00'
  else (digitLoop num index b).store dgcount '\x00'

def Represents (num : Word) (mem : Int → Char) : Prop :=
  let b := itoa num.toInt ⟨mem, []⟩
  (∀ i ∈ b.stores, 0 ≤ i) ∧ ∃ text : List Char,
    (∀ i : Nat, i ≤ text.length → (i : Int) ∈ b.stores ∧ b.mem i = text.getD i '\x00') ∧ '\x00' ∉ text ∧
      (strtol text 10).1 = num

section Positive

variable {n : Nat}

theorem countLoop_eq (pos : 0 < n) : countLoop n = (Nat.toDigits 10 n).length := by
  refine toDigits_induction
    (motive := fun n text => 0 < n → countLoop n = text.length) (by decide) ?_ ?_ pos
  · intro n small pos
    rw [countLoop, if_pos (by omega), countLoop, Int.tdiv_eq_ediv_of_nonneg (by omega), if_neg (by omega)]
    rfl
  · intro n large before _
    rw [countLoop, if_pos (by omega), List.length_append, ← before (by omega)]
    rfl

theorem digit_eq (n : Nat) : digit n = (n % 10).digitChar := by
  have known : ∀ d < 10, Char.ofNat (d + '0'.toNat) = d.digitChar := by decide
  exact known (n % 10) (Nat.mod_lt n (by decide))

theorem digitLoop_eq (pos : 0 < n) (b : Buffer) :
    let after := digitLoop n ((Nat.toDigits 10 n).length - 1) b
    (∀ i, after.mem i = if 0 ≤ i then (Nat.toDigits 10 n).getD i.toNat (b.mem i) else b.mem i) ∧
      ∀ i, i ∈ after.stores ↔ i ∈ b.stores ∨ 0 ≤ i ∧ i < (Nat.toDigits 10 n).length := by
  refine toDigits_induction (motive := fun n text => 0 < n → ∀ b,
    (∀ i, (digitLoop n (text.length - 1) b).mem i = if 0 ≤ i then text.getD i.toNat (b.mem i)
      else b.mem i) ∧ ∀ i, i ∈ (digitLoop n (text.length - 1) b).stores ↔ i ∈ b.stores ∨ 0 ≤ i ∧
      i < text.length)
    (by decide) ?_ ?_ pos b
  · intro n small pos b
    rw [digitLoop, if_pos (by omega), digitLoop, Int.tdiv_eq_ediv_of_nonneg (by omega),
      if_neg (by omega), digit_eq, Nat.mod_eq_of_lt small]
    constructor
    · intro i
      simp only [Buffer.store, update_apply]
      grind
    · intro i
      simp only [Buffer.store, List.mem_cons, List.length_singleton]
      grind
  · intro n large before _ b
    obtain ⟨mem, stores⟩ := before (by omega) (b.store (Nat.toDigits 10 (n / 10)).length (digit n))
    rw [digitLoop, if_pos (by omega), List.length_append]
    simp only [List.length_singleton, Nat.cast_add, Nat.cast_one, add_sub_cancel_right]
    rw [show (n : Int).tdiv 10 = (n / 10 : Nat) from rfl]
    constructor
    · intro i
      rw [mem, digit_eq]
      simp only [Buffer.store, update_apply]
      grind
    · intro i
      rw [stores]
      simp only [Buffer.store, List.mem_cons]
      grind

end Positive

theorem itoa_nonnegative (n : Nat) (mem : Int → Char) :
    let b := itoa n ⟨mem, []⟩
    (∀ i, i ∈ b.stores ↔ 0 ≤ i ∧ i ≤ (Nat.toDigits 10 n).length) ∧
      ∀ i : Nat, i ≤ (Nat.toDigits 10 n).length → b.mem i = (Nat.toDigits 10 n).getD i '\x00' := by
  obtain rfl | pos := Nat.eq_zero_or_pos n
  · simp only [itoa, digitCount, Buffer.store, Nat.cast_zero, and_self, if_true, Nat.toDigits_zero,
      List.length_singleton, update_apply, List.mem_cons]
    grind
  · have count : digitCount n = (Nat.toDigits 10 n).length := by
      rw [digitCount, if_neg (by omega), countLoop_eq pos]
    obtain ⟨digits, stores⟩ := digitLoop_eq pos ⟨mem, []⟩
    simp only [itoa, count, if_neg (show ¬((n : Int) = 0 ∧ (Nat.toDigits 10 n).length = 1) by omega)]
    constructor
    · intro i
      simp only [Buffer.store, List.mem_cons, stores]
      grind
    · intro i small
      simp only [Buffer.store, update_apply, digits]
      grind

theorem represents_nonnegative {num : Word} (nonneg : 0 ≤ num.toInt) (mem : Int → Char) :
    Represents num mem := by
  obtain ⟨n, value⟩ := Int.eq_ofNat_of_zero_le nonneg
  obtain ⟨stores, text⟩ := itoa_nonnegative n mem
  rw [Represents, value]
  refine ⟨fun i member => ((stores i).mp member).1, Nat.toDigits 10 n, ?_, ?_, ?_⟩
  · intro i small
    exact ⟨(stores i).mpr (by omega), text i small⟩
  · intro nul
    obtain ⟨d, small, same⟩ := mem_toDigits (by decide) _ nul
    have other : ∀ d < 10, '\x00' ≠ d.digitChar := by decide
    exact other d small same
  · have read := strtol_padded (.inl rfl) (.inl rfl) 0 n
    rw [List.replicate_zero, List.nil_append] at read
    rw [read, ← BitVec.ofInt_natCast, ← value, BitVec.ofInt_toInt]

theorem mem_digitLoop {i : Int} (num index : Int) {b : Buffer} (stored : i ∈ b.stores) :
    i ∈ (digitLoop num index b).stores := by
  fun_induction digitLoop num index b with
  | case1 num index b _ ih => exact ih (List.mem_cons_of_mem _ stored)
  | case2 => exact stored

theorem not_represents_negative {num : Word} (neg : num.toInt < 0) (mem : Int → Char) :
    ¬Represents num mem := by
  intro ⟨inside, _⟩
  have count : digitCount num.toInt = 0 := by
    rw [digitCount, if_neg (by omega), countLoop, if_neg (by omega)]
  have before : -1 ∈ (itoa num.toInt ⟨mem, []⟩).stores := by
    rw [itoa, count, if_neg (by omega), digitLoop, if_pos (by omega)]
    exact List.mem_cons_of_mem _ (mem_digitLoop _ _ List.mem_cons_self)
  exact absurd (inside _ before) (by decide)

theorem itoa_represents_iff (num : Word) (mem : Int → Char) : Represents num mem ↔ 0 ≤ num.toInt := by
  constructor
  · intro represents
    exact not_lt.mp fun neg => not_represents_negative neg mem represents
  · intro nonneg
    exact represents_nonnegative nonneg mem

theorem itoa_minus_one :
    (itoa (-1) ⟨fun _ => 'x', []⟩).stores = [0, -1] ∧ (itoa (-1) ⟨fun _ => 'x', []⟩).mem 0 = '\x00' ∧
      ¬Represents (-1) fun _ => 'x' := by
  refine ⟨?_, ?_, not_represents_negative (by decide) _⟩
  · simp [itoa, digitCount, countLoop, digitLoop, Buffer.store]
  · simp [itoa, digitCount, countLoop, digitLoop, Buffer.store]

end Jos.Lib.Itoa
