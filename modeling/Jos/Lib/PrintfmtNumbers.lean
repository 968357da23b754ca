import Jos.Lib.Printfmt

namespace Jos.Lib.Printfmt

open Jos.Kern (Word)

def digitOf (ch : Char) : Option Nat :=
  if '0' ≤ ch ∧ ch ≤ '9' then some (ch.toNat - '0'.toNat)
  else if 'a' ≤ ch ∧ ch ≤ 'z' then some (ch.toNat - 'a'.toNat + 10)
  else if 'A' ≤ ch ∧ ch ≤ 'Z' then some (ch.toNat - 'A'.toNat + 10)
  else none

def strtolDigits (base : Nat) : List Char → Word → Word × List Char
  | [], val => (val, [])
  | ch :: rest, val =>
    match digitOf ch with
    | some dig =>
      if base ≤ dig then (val, ch :: rest)
      else strtolDigits base rest (val * BitVec.ofNat 32 base + BitVec.ofNat 32 dig)
    | none => (val, ch :: rest)

def strtol (s : List Char) (base : Nat) : Word × List Char :=
  let s := s.dropWhile fun ch => ch = ' ' ∨ ch = '\t'
  let neg := s.head? = some '-'
  let s := if s.head? = some '+' ∨ neg then s.tail else s
  let hex := (base = 0 ∨ base = 16) ∧ s[0]? = some '0' ∧ s[1]? = some 'x'
  let octal := base = 0 ∧ s[0]? = some '0'
  let base := if hex then 16 else if octal then 8 else if base = 0 then 10 else base
  let (val, rest) := strtolDigits base (if hex then s.drop 2 else if octal then s.drop 1 else s) 0
  (if neg then -val else val, rest)

def format (zero : Bool) (w : Option Nat) (ch : Char) : List Char :=
  '%' :: ((if zero then ['0'] else []) ++ (w.elim [] (Nat.toDigits 10) ++ [ch]))

def decimal (n : Word) : List Char :=
  (if n.toInt < 0 then ['-'] else []) ++ Nat.toDigits 10 n.toInt.natAbs

def hexadecimal (n : Word) : List Char := Nat.toDigits 16 n.toNat

def RoundTrips (args : Args) (zero : Bool) (w : Option Nat) (ch : Char) (base : Nat)
    (number : List Char) : Prop :=
  ∃ out, vprintfmt args (format zero w ch) ((format zero w ch).length + 1) 0 0 = .ok out ∧
    out.length = max (w.getD 0) number.length ∧ (strtol out base).1 = args.word 0

section Digits

variable {b n : Nat}

theorem toDigits_induction {motive : Nat → List Char → Prop} (more : 1 < b)
    (one : ∀ n, n < b → motive n [n.digitChar])
    (snoc : ∀ n, b ≤ n → motive (n / b) (Nat.toDigits b (n / b)) →
      motive n (Nat.toDigits b (n / b) ++ [(n % b).digitChar])) : motive n (Nat.toDigits b n) := by
  induction n using Nat.strong_induction_on with
  | _ n ih =>
    rw [Nat.toDigits_eq_if more]
    by_cases small : n < b
    · rw [if_pos small]
      exact one n small
    · rw [if_neg small]
      exact snoc n (not_lt.mp small) (ih _ (Nat.div_lt_self (by omega) more))

theorem printnum_eq (more : 1 < b) (width : Int) (padc : Char) :
    printnum n b width padc =
      List.replicate (width - (Nat.toDigits b n).length).toNat padc ++ Nat.toDigits b n := by
  induction n using Nat.strong_induction_on generalizing width with
  | _ n ih =>
    rw [printnum, Nat.toDigits_eq_if more]
    by_cases small : n < b
    · rw [dif_neg (by omega), if_pos small, Nat.mod_eq_of_lt small]
      rfl
    · rw [dif_pos ⟨not_lt.mp small, more⟩, if_neg small, ih _ (Nat.div_lt_self (by omega) more),
        List.append_assoc, List.length_append, List.length_singleton, Nat.cast_add, Nat.cast_one,
        Int.sub_sub, Int.add_comm 1]

theorem mem_toDigits (more : 1 < b) : ∀ c ∈ Nat.toDigits b n, ∃ d, d < b ∧ c = d.digitChar := by
  apply toDigits_induction (motive := fun _ text => ∀ c ∈ text, ∃ d, d < b ∧ c = d.digitChar) more
  · intro n small c member
    exact ⟨n, small, List.mem_singleton.mp member⟩
  · intro n _ before c member
    obtain member | member := List.mem_append.mp member
    · exact before c member
    · exact ⟨n % b, Nat.mod_lt n (by omega), List.mem_singleton.mp member⟩

theorem foldl_toDigits (more : 1 < b) (value : Char → Nat) (values : ∀ d, d < b → value d.digitChar = d) :
    (Nat.toDigits b n).foldl (fun val c => val * BitVec.ofNat 32 b + BitVec.ofNat 32 (value c)) 0 =
    BitVec.ofNat 32 n := by
  apply toDigits_induction (motive := fun n text =>
    text.foldl (fun val c => val * BitVec.ofNat 32 b + BitVec.ofNat 32 (value c)) 0 =
      BitVec.ofNat 32 n) more
  · intro n small
    simp [values n small]
  · intro n _ before
    rw [List.foldl_append, before, List.foldl_cons, List.foldl_nil,
      values _ (Nat.mod_lt n (by omega)), ← BitVec.ofNat_mul, ← BitVec.ofNat_add, Nat.div_add_mod']

theorem head_toDigits (pos : 0 < n) : (Nat.toDigits 10 n).head? ≠ some '0' := by
  refine toDigits_induction (motive := fun n text => 0 < n → text.head? ≠ some '0') (by decide) ?_ ?_ pos
  · intro n _ pos zero
    exact pos.ne' (Nat.digitChar_eq_zero.mp (Option.some.inj zero))
  · intro n large before _
    rw [List.head?_append_of_ne_nil _ Nat.toDigits_ne_nil]
    exact before (Nat.div_pos large (by decide))

end Digits

section Strtol

variable {base : Nat} {text : List Char}

def Digits (base : Nat) (text : List Char) : Prop := ∀ c ∈ text, ∃ d, d < base ∧ digitOf c = some d

theorem strtolDigits_eq (digits : Digits base text) (val : Word) :
    strtolDigits base text val = (text.foldl
      (fun val c => val * BitVec.ofNat 32 base + BitVec.ofNat 32 ((digitOf c).getD 0)) val, []) := by
  induction text generalizing val with
  | nil => rfl
  | cons c rest ih =>
    obtain ⟨⟨d, small, value⟩, more⟩ := List.forall_mem_cons.mp digits
    rw [strtolDigits, value]
    simp only [if_neg (not_le.mpr small)]
    rw [ih more, List.foldl_cons, value, Option.getD_some]

theorem digits_toDigits {b n : Nat} (more : 1 < b) (few : b ≤ 16) : Digits b (Nat.toDigits b n) := by
  intro c member
  obtain ⟨d, small, rfl⟩ := mem_toDigits more c member
  have known : ∀ d < 16, digitOf d.digitChar = some d := by decide
  exact ⟨d, small, known d (by omega)⟩

theorem strtol_digits (known : base = 10 ∨ base = 16) (digits : Digits base text) (some : text ≠ [])
    (blanks : Nat) (neg : Bool) :
    (strtol ((if neg then ['-'] else List.replicate blanks ' ') ++ text) base).1 =
      if neg then -(strtolDigits base text 0).1 else (strtolDigits base text 0).1 := by
  have other : ∀ c ∈ text, c ∉ [' ', '\t', '+', '-', 'x'] := by
    intro c member bad
    obtain ⟨d, small, value⟩ := digits c member
    have strange : ∀ c ∈ [' ', '\t', '+', '-', 'x'], ∀ d ∈ digitOf c, 16 ≤ d := by simp [digitOf]
    have large := strange c bad d value
    omega
  obtain ⟨c, rest, split⟩ := List.exists_cons_of_ne_nil some
  have first := other c (by simp [split])
  simp only [List.mem_cons, not_or] at first
  have stripped : ((if neg then ['-'] else List.replicate blanks ' ') ++ text).dropWhile
      (fun ch => ch = ' ' ∨ ch = '\t') = if neg then '-' :: text else text := by
    cases neg with
    | true => rfl
    | false =>
      rw [if_neg (by decide), if_neg (by decide),
        List.dropWhile_append_of_pos (by simp [List.mem_replicate]), split,
        List.dropWhile_cons_of_neg (by simp [first])]
  have second : text[1]? ≠ Option.some 'x' :=
    fun same => other 'x' (List.mem_of_getElem? same) (by decide)
  have noZero : base ≠ 0 := by omega
  rw [strtol, stripped]
  cases neg with
  | true => simp [second, noZero]
  | false =>
    have head : text.head? = Option.some c := by simp [split]
    simp [second, noZero, head, first]

end Strtol

section Format

variable {args : Args} {before rest : List Char} {ch : Char} {fuel ap : Nat} {flags : Flags}

def Flags.withWidth (flags : Flags) (w : Nat) : Flags :=
  if w = 0 then { flags with padc := '0' } else processPrecision flags (BitVec.ofNat 32 w).toInt

theorem reswitch_flag {flags' : Flags} {ap' : Nat}
    (changes : flag args flags ap ch = some (flags', ap')) :
    reswitch args (before ++ ch :: rest) (fuel + 1) before.length flags ap =
      reswitch args (before ++ ch :: rest) fuel (before.length + 1) flags' ap' := by
  rw [reswitch, peek_append, List.headD_cons]
  simp only [Bind.bind, Except.bind, changes]

theorem flag_digit (digit : ch.isDigit) (nonzero : ch ≠ '0') : flag args flags ap ch = none := by
  have plain : ∀ c ∈ ['-', '*', '.', '#', 'l'], ¬c.isDigit := by simp [Char.isDigit]
  have other : ch ∉ ['-', '*', '.', '#', 'l'] := fun inside => plain ch inside digit
  simp only [List.mem_cons, not_or] at other
  simp [flag, nonzero, other]

theorem reswitch_width (w : Nat) (plain : ¬ch.isDigit) (enough : (Nat.toDigits 10 w).length < fuel) :
    reswitch args (before ++ (Nat.toDigits 10 w ++ [ch])) (fuel + 1) before.length flags ap =
      reswitch args (before ++ (Nat.toDigits 10 w ++ [ch])) fuel
      (before.length + (Nat.toDigits 10 w).length)
        (flags.withWidth w) ap := by
  by_cases zero : w = 0
  · subst zero
    exact reswitch_flag rfl
  next =>
  obtain ⟨c, rest, split⟩ := List.exists_cons_of_ne_nil (Nat.toDigits_ne_nil (n := w) (b := 10))
  have digits : ∀ c ∈ Nat.toDigits 10 w, c.isDigit :=
    fun c => Nat.isDigit_of_mem_toDigits (by decide) (by decide)
  have first := head_toDigits (Nat.pos_of_ne_zero zero)
  have value := foldl_toDigits (n := w) (b := 10) (by decide) (fun c => c.toNat - '0'.toNat)
    fun d => Nat.toNat_digitChar_sub_48_of_lt_ten
  rw [split] at digits first enough value ⊢
  rw [List.foldl_cons] at value
  obtain ⟨digit, more⟩ := List.forall_mem_cons.mp digits
  have nonzero : c ≠ '0' := fun same => first (by simp [same])
  have range := digit_range.mpr ⟨digit, nonzero⟩
  have taken : (rest ++ [ch]).takeWhile Char.isDigit = rest := by
    rw [List.takeWhile_append_of_pos more, List.takeWhile_cons_of_neg plain, List.append_nil]
  have fewer : (rest ++ [ch]).length < fuel := by simpa using enough
  have read := digits_eq (before ++ [c]) 0 c fewer
  rw [taken, List.append_assoc, List.singleton_append, List.length_append, List.length_singleton] at read
  have kind : flag args flags ap c = none := flag_digit digit nonzero
  rw [List.cons_append, reswitch, peek_append, List.headD_cons]
  simp only [Bind.bind, Except.bind, kind]
  rw [if_pos range, read]
  have width : rest.foldl addDigit (addDigit 0 c) = BitVec.ofNat 32 w := value
  simp only [width, Flags.withWidth, if_neg zero, List.length_cons]
  congr 1
  omega

theorem reswitch_convert (before : List Char) (fuel : Nat) {text : List Char} {ap' : Nat}
    (known : convert args flags ap ch = some (text, ap')) (other : ¬modifier ch) :
    reswitch args (before ++ [ch]) (fuel + 1) before.length flags ap = .ok (text, before.length + 1,
    ap') := by
  have kind := mt (modifier_iff args flags ap ch).mpr other
  rw [not_or, Option.not_isSome_iff_eq_none] at kind
  rw [reswitch, peek_append, List.headD_cons]
  simp only [Bind.bind, Except.bind, kind.1]
  rw [if_neg kind.2, known]

def formatFlags (zero : Bool) (w : Option Nat) : Flags :=
  let flags : Flags := if zero then { Flags.none with padc := '0' } else .none
  w.elim flags flags.withWidth

theorem reswitch_tail (before : List Char) (w : Option Nat) {text : List Char} {ap' : Nat}
    (plain : ¬modifier ch)
    (known : convert args (w.elim flags flags.withWidth) ap ch = some (text, ap'))
    (enough : (w.elim [] (Nat.toDigits 10)).length + 1 < fuel) :
    reswitch args (before ++ (w.elim [] (Nat.toDigits 10) ++ [ch])) fuel before.length flags ap =
      .ok (text, (before ++ (w.elim [] (Nat.toDigits 10) ++ [ch])).length, ap') := by
  obtain ⟨fuel, rfl⟩ := Nat.exists_eq_succ_of_ne_zero (by omega : fuel ≠ 0)
  cases w with
  | none =>
    have converted := reswitch_convert before fuel known plain
    rw [Option.elim, List.nil_append, List.length_append, List.length_singleton]
    exact converted
  | some w =>
    obtain ⟨fuel, rfl⟩ := Nat.exists_eq_succ_of_ne_zero (by omega : fuel ≠ 0)
    simp only [Option.elim] at known enough ⊢
    have digit : ¬ch.isDigit := fun digit => plain (by simp [modifier, digit])
    have converted := reswitch_convert (before ++ Nat.toDigits 10 w) fuel known plain
    rw [List.append_assoc, List.length_append] at converted
    rw [reswitch_width w digit (by omega), converted, List.length_append, List.length_append,
      List.length_singleton, Nat.add_assoc]

theorem vprintfmt_format (zero : Bool) (w : Option Nat) {text : List Char} {ap' : Nat}
    (plain : ¬modifier ch) (known : convert args (formatFlags zero w) 0 ch = some (text, ap')) :
    vprintfmt args (format zero w ch) ((format zero w ch).length + 1) 0 0 = .ok text := by
  have escaped : reswitch args (format zero w ch) (format zero w ch).length 1 .none 0 =
      .ok (text, (format zero w ch).length, ap') := by
    cases zero with
    | true =>
      have flagged := @reswitch_flag args ['%'] (w.elim [] (Nat.toDigits 10) ++ [ch]) '0'
        ((w.elim [] (Nat.toDigits 10)).length + 2) 0 .none _ _ rfl
      have last := reswitch_tail ['%', '0'] w plain known (Nat.lt_succ_self _)
      have size : (format true w ch).length = (w.elim [] (Nat.toDigits 10)).length + 2 + 1 := by
        simp [format]
      exact (congrArg (fun fuel => reswitch args (format true w ch) fuel 1 .none 0) size).trans
        (flagged.trans last)
    | false =>
      exact reswitch_tail ['%'] w plain known (by simp [format])
  obtain ⟨out, printed, prints⟩ :=
    @vprintfmt_prints args [] ap' (format zero w ch) (format zero w ch).length (by simp)
      (by simp [format])
  obtain rfl := prints.nil_inv rfl
  rw [List.append_nil] at printed
  rw [vprintfmt, show peek (format zero w ch) 0 = .ok '%' from rfl]
  simp only [Bind.bind, Except.bind, if_true, escaped, printed, List.append_nil]

end Format

section Numbers

variable {args : Args} {zero : Bool} {w : Option Nat}

theorem foldl_zeros (base k : Nat) : (List.replicate k '0').foldl
    (fun val c => val * BitVec.ofNat 32 base + BitVec.ofNat 32 ((digitOf c).getD 0)) 0 = 0 := by
  have zero : (digitOf '0').getD 0 = 0 := by decide
  induction k with
  | zero => rfl
  | succ k ih =>
    rw [List.replicate_succ, List.foldl_cons, zero]
    simpa using ih

theorem strtol_padded {base : Nat} (known : base = 10 ∨ base = 16) {padc : Char}
    (pad : padc = ' ' ∨ padc = '0') (k n : Nat) :
    (strtol (List.replicate k padc ++ Nat.toDigits base n) base).1 = BitVec.ofNat 32 n := by
  have digits := digits_toDigits (b := base) (n := n) (by omega) (by omega)
  have values : ∀ d < base, (digitOf d.digitChar).getD 0 = d := by
    have all : ∀ d < 16, (digitOf d.digitChar).getD 0 = d := by decide
    exact fun d small => all d (by omega)
  have number := foldl_toDigits (n := n) (b := base) (by omega) (fun c => (digitOf c).getD 0) values
  obtain rfl | rfl := pad
  · have read := strtol_digits known digits Nat.toDigits_ne_nil k false
    rw [if_neg (by decide), if_neg (by decide), strtolDigits_eq digits, number] at read
    exact read
  · have zeros : Digits base (List.replicate k '0') := fun c member =>
      ⟨0, by omega, by rw [(List.mem_replicate.mp member).2]; decide⟩
    have all : Digits base (List.replicate k '0' ++ Nat.toDigits base n) := fun c member =>
      (List.mem_append.mp member).elim (zeros c) (digits c)
    have read := strtol_digits known all (by simp [Nat.toDigits_ne_nil]) 0 false
    rw [if_neg (by decide), if_neg (by decide), strtolDigits_eq all, List.foldl_append, foldl_zeros,
      number] at read
    exact read

theorem strtol_negative (n : Nat) : (strtol ('-' :: Nat.toDigits 10 n) 10).1 = -BitVec.ofNat 32 n := by
  have digits := digits_toDigits (b := 10) (n := n) (by omega) (by omega)
  have number := foldl_toDigits (n := n) (b := 10) (by omega) (fun c => (digitOf c).getD 0) (by decide)
  have read := strtol_digits (.inl rfl) digits Nat.toDigits_ne_nil 0 true
  rw [if_pos rfl, if_pos rfl, strtolDigits_eq digits, number] at read
  exact read

theorem formatFlags_spec (zero : Bool) (w : Option Nat) : (formatFlags zero w).lflag = 0 ∧
    ((formatFlags zero w).padc = ' ' ∨ (formatFlags zero w).padc = '0') ∧
    (formatFlags zero w).width < 2 ^ 31 ∧
    (w.getD 0 < 2 ^ 31 → (formatFlags zero w).width.toNat = w.getD 0) := by
  cases w with
  | none => cases zero <;> simp [formatFlags, Flags.none]
  | some w =>
    have top := BitVec.toInt_lt (x := BitVec.ofNat 32 w)
    have fits : w < 2 ^ 31 → (BitVec.ofNat 32 w).toInt = w := fun small => by
      rw [BitVec.toInt_eq_toNat_of_lt (by rw [BitVec.toNat_ofNat]; omega), BitVec.toNat_ofNat,
        Nat.mod_eq_of_lt (by omega)]
    by_cases none : w = 0
    · cases zero <;> simp [formatFlags, Flags.none, Flags.withWidth, none]
    · cases zero <;> simp [formatFlags, Flags.none, Flags.withWidth, processPrecision, none] <;> omega

theorem printnum_length {b : Nat} (more : 1 < b) (n : Nat) (width : Int) (padc : Char) :
    (printnum n b width padc).length = max width.toNat (Nat.toDigits b n).length := by
  rw [printnum_eq more, List.length_append, List.length_replicate]
  omega

theorem roundTrips_hexadecimal : RoundTrips args zero w 'x' 16 (hexadecimal (args.word 0)) ↔
    w.getD 0 < 2 ^ 31 := by
  obtain ⟨long, pad, top, width⟩ := formatFlags_spec zero w
  have known : convert args (formatFlags zero w) 0 'x' =
      some (printnum (args.word 0).toNat 16 (formatFlags zero w).width (formatFlags zero w).padc, 1) := by
    simp [convert, getuint, long]
  have printed := vprintfmt_format zero w (by decide) known
  have size := printnum_length (b := 16) (by decide) (args.word 0).toNat (formatFlags zero w).width
    (formatFlags zero w).padc
  have short : (Nat.toDigits 16 (args.word 0).toNat).length ≤ 8 :=
    (Nat.length_toDigits_le_iff (by decide) (by decide)).mpr (args.word 0).isLt
  rw [RoundTrips, printed, hexadecimal]
  constructor
  · rintro ⟨out, same, length, -⟩
    rw [← Except.ok.inj same, size] at length
    omega
  · intro small
    refine ⟨_, rfl, by rw [size, width small], ?_⟩
    rw [printnum_eq (by decide), strtol_padded (.inr rfl) pad, BitVec.ofNat_toNat, BitVec.setWidth_eq]

theorem roundTrips_decimal (small : w.getD 0 < 2 ^ 31) :
    RoundTrips args zero w 'd' 10 (decimal (args.word 0)) ↔
      0 ≤ (args.word 0).toInt ∨ w.getD 0 ≤ (Nat.toDigits 10 (args.word 0).toInt.natAbs).length := by
  obtain ⟨long, pad, -, width⟩ := formatFlags_spec zero w
  have known : convert args (formatFlags zero w) 0 'd' =
    some (printint (args.word 0).toInt (formatFlags zero w), 1) := by
    simp [convert, getint, long]
  have printed := vprintfmt_format zero w (by decide) known
  have size := printnum_length (b := 10) (by decide) (args.word 0).toInt.natAbs (formatFlags zero w).width
    (formatFlags zero w).padc
  have some := Nat.length_toDigits_pos (b := 10) (n := (args.word 0).toInt.natAbs)
  have value : BitVec.ofInt 32 (args.word 0).toInt = args.word 0 := BitVec.ofInt_toInt
  rw [width small] at size
  rw [RoundTrips, printed, decimal, printint]
  generalize (args.word 0).toInt = n at *
  by_cases neg : n < 0
  · have minus : -BitVec.ofNat 32 n.natAbs = args.word 0 := by
      rw [← value, ← BitVec.ofInt_natCast, ← BitVec.ofInt_neg]
      congr 1
      omega
    simp only [if_pos neg, List.singleton_append, List.length_cons]
    constructor
    · rintro ⟨out, same, length, -⟩
      rw [← Except.ok.inj same, List.length_cons, size] at length
      omega
    · rintro (nonneg | narrow)
      · omega
      have unpadded : ((formatFlags zero w).width - (Nat.toDigits 10 n.natAbs).length).toNat = 0 := by
        have := width small
        omega
      refine ⟨_, rfl, by rw [List.length_cons, size]; omega, ?_⟩
      rw [printnum_eq (by decide), unpadded, List.replicate_zero, List.nil_append, strtol_negative, minus]
  · have plus : BitVec.ofNat 32 n.natAbs = args.word 0 := by
      rw [← value, ← BitVec.ofInt_natCast]
      congr 1
      omega
    simp only [if_neg neg, List.nil_append]
    refine iff_of_true ⟨_, rfl, size, ?_⟩ (.inl (not_lt.mp neg))
    rw [printnum_eq (by decide), strtol_padded (.inl rfl) pad, plus]

end Numbers

theorem numbers_round_trip_iff (args : Args) (zero : Bool) (w : Option Nat) :
    RoundTrips args zero w 'd' 10 (decimal (args.word 0)) ∧
    RoundTrips args zero w 'x' 16 (hexadecimal (args.word 0)) ↔
      w.getD 0 < 2 ^ 31 ∧
        (0 ≤ (args.word 0).toInt ∨ w.getD 0 ≤ (Nat.toDigits 10 (args.word 0).toInt.natAbs).length) := by
  rw [roundTrips_hexadecimal, and_comm]
  exact and_congr_right roundTrips_decimal

-- With `%3d` the number -5 becomes `- 5`.
theorem numbers_negative_padded :
    let args : Args := ⟨fun _ => -5, fun _ => []⟩
    vprintfmt args (format false (some 3) 'd') 4 0 0 = .ok ['-', ' ', ' ', '5'] ∧
      ¬RoundTrips args false (some 3) 'd' 10 (decimal (-5)) := by
  intro args
  have text : printint (-5) (formatFlags false (some 3)) = ['-', ' ', ' ', '5'] := by
    rw [printint, printnum_eq (by decide)]
    decide
  have printed : vprintfmt args (format false (some 3) 'd') 4 0 0 = .ok ['-', ' ', ' ', '5'] :=
    text ▸ @vprintfmt_format args 'd' false (some 3) _ 1 (by decide) rfl
  refine ⟨printed, fun ⟨out, same, length, _⟩ => ?_⟩
  obtain rfl := Except.ok.inj (printed.symm.trans same)
  exact absurd length (by decide)

end Jos.Lib.Printfmt
