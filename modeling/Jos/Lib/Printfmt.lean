import Jos.Kern.Mmu

namespace Jos.Lib.Printfmt

open Jos.Kern (Word)

def maxerror : Int := 18

def errorString : Int → Option String
  | 1 => some "unspecified error"
  | 2 => some "bad environment"
  | 3 => some "invalid parameter"
  | 4 => some "out of memory"
  | 5 => some "out of environments"
  | 6 => some "segmentation fault"
  | 7 => some "env is not recving"
  | 8 => some "unexpected end of file"
  | 9 => some "no free space on disk"
  | 10 => some "too many files are open"
  | 11 => some "file or block not found"
  | 12 => some "invalid path"
  | 13 => some "file already exists"
  | 14 => some "file is not a valid executable"
  | 15 => some "operation not supported"
  | _ => none

/-- The words behind `ap`, and the string at an address up to its terminator. -/
structure Args where
  word : Nat → Word
  string : Word → List Char

structure Flags where
  padc : Char
  width : Int
  precision : Int
  lflag : Nat
  altflag : Bool

def Flags.none : Flags := ⟨' ', -1, -1, 0, false⟩

-- `width` is an `int` that is only counted down: where it would pass the least `int`, the source
-- has no defined behaviour.
def printnum (num base : Nat) (width : Int) (padc : Char) : List Char :=
  if _more : base ≤ num ∧ 1 < base then
    printnum (num / base) base (width - 1) padc ++ [(num % base).digitChar]
  else List.replicate (width - 1).toNat padc ++ [(num % base).digitChar]
termination_by num
decreasing_by exact Nat.div_lt_self (by omega) _more.2

variable (args : Args)

def getuint (ap lflag : Nat) : Nat × Nat :=
  if 2 ≤ lflag then ((args.word ap).toNat + 2 ^ 32 * (args.word (ap + 1)).toNat, ap + 2)
  else ((args.word ap).toNat, ap + 1)

def getint (ap lflag : Nat) : Int × Nat :=
  if 2 ≤ lflag then ((args.word (ap + 1) ++ args.word ap : BitVec 64).toInt, ap + 2)
  else ((args.word ap).toInt, ap + 1)

def printint (n : Int) (flags : Flags) : List Char :=
  (if n < 0 then ['-'] else []) ++ printnum n.natAbs 10 flags.width flags.padc

def strnlen (p : List Char) (size : Int) : Int := if size < 0 then p.length else min p.length size

def printstr (flags : Flags) (p : List Char) : List Char :=
  let before := flags.width - strnlen p flags.precision
  let padded := 0 < flags.width ∧ flags.padc ≠ '-'
  let text := if flags.precision < 0 then p else p.take flags.precision.toNat
  let width := (if padded then min before 0 else flags.width) - text.length
  (if padded then List.replicate before.toNat flags.padc else []) ++
    text.map (fun ch => if flags.altflag ∧ (ch < ' ' ∨ '~' < ch) then '?' else ch) ++
      List.replicate width.toNat ' '

def convert (flags : Flags) (ap : Nat) (ch : Char) : Option (List Char × Nat) :=
  let unsigned := fun base =>
    let (num, ap) := getuint args ap flags.lflag
    some (printnum num base flags.width flags.padc, ap)
  match ch with
  | 'c' => some ([Char.ofNat ((args.word ap).toNat % 256)], ap + 1)
  | 'e' =>
    let err := (args.word ap).toInt
    let err := if err < 0 then (-(args.word ap)).toInt else err
    some (if err < maxerror
      then (errorString err).elim ("error ".toList ++ printint err .none) String.toList
      else "error ".toList ++ printint err .none, ap + 1)
  | 's' =>
    some (printstr flags (if args.word ap = 0 then "(null)".toList else args.string (args.word ap)),
      ap + 1)
  | 'd' =>
    let (num, ap) := getint args ap flags.lflag
    some (printint num flags, ap)
  | 'u' => unsigned 10
  | 'o' => unsigned 8
  | 'p' => some ('0' :: 'x' :: printnum (args.word ap).toNat 16 flags.width flags.padc, ap + 1)
  | 'x' => unsigned 16
  | '%' => some (['%'], ap)
  | _ => none

inductive Fault where
  | read
  | fuel

def peek (fmt : List Char) (i : Nat) : Except Fault Char :=
  if i < fmt.length then .ok (fmt.getD i '\x00') else if i = fmt.length then .ok '\x00' else .error .read

-- The loop of the default case, which looks at `fmt[-1]`.
def rewind (fmt : List Char) : Nat → Except Fault Nat
  | 0 => .error .read
  | i + 1 => do
    if (← peek fmt i) = '%' then .ok (i + 1) else rewind fmt i

def processPrecision (flags : Flags) (precision : Int) : Flags :=
  if flags.width < 0 then { flags with width := precision, precision := -1 }
    else { flags with precision := precision }

def digits (fmt : List Char) : Nat → Nat → Word → Char → Except Fault (Word × Nat)
  | 0, _, _, _ => .error .fuel
  | fuel + 1, i, precision, ch => do
    let precision := precision * 10 + BitVec.ofNat 32 (ch.toNat - '0'.toNat)
    let ch ← peek fmt i
    if ch < '0' ∨ '9' < ch then .ok (precision, i) else digits fmt fuel (i + 1) precision ch

def flag (flags : Flags) (ap : Nat) (ch : Char) : Option (Flags × Nat) :=
  if ch = '-' ∨ ch = '0' then some ({ flags with padc := ch }, ap)
  else if ch = '*' then some (processPrecision flags (args.word ap).toInt, ap + 1)
  else if ch = '.' then some (if flags.width < 0 then { flags with width := 0 } else flags, ap)
  else if ch = '#' then some ({ flags with altflag := true }, ap)
  else if ch = 'l' then some ({ flags with lflag := flags.lflag + 1 }, ap)
  else none

def reswitch (fmt : List Char) : Nat → Nat → Flags → Nat → Except Fault (List Char × Nat × Nat)
  | 0, _, _, _ => .error .fuel
  | fuel + 1, i, flags, ap => do
    let ch ← peek fmt i
    match flag args flags ap ch with
    | some (flags, ap) => reswitch fmt fuel (i + 1) flags ap
    | none =>
      if '1' ≤ ch ∧ ch ≤ '9' then
        let (precision, i) ← digits fmt fuel (i + 1) 0 ch
        reswitch fmt fuel i (processPrecision flags precision.toInt) ap
      else match convert args flags ap ch with
        | some (text, ap) => .ok (text, i + 1, ap)
        | none => do
          let start ← rewind fmt i
          .ok (['%'], start, ap)

def vprintfmt (fmt : List Char) : Nat → Nat → Nat → Except Fault (List Char)
  | 0, _, _ => .error .fuel
  | fuel + 1, i, ap => do
    let ch ← peek fmt i
    if ch = '%' then
      let (text, i, ap) ← reswitch args fmt fuel (i + 1) .none ap
      let rest ← vprintfmt fmt fuel i ap
      .ok (text ++ rest)
    else if ch = '\x00' then .ok []
    else
      let rest ← vprintfmt fmt fuel (i + 1) ap
      .ok (ch :: rest)

def modifier (ch : Char) : Bool := ch.isDigit || ch ∈ ['-', '*', '.', '#', 'l']

def conversions : List Char := ['c', 'e', 's', 'd', 'u', 'o', 'p', 'x', '%']

/-- The text that a format stands for; an escape that is not known or not complete stands for
itself. -/
inductive Prints : List Char → Nat → List Char → Prop where
  | nil (ap : Nat) : Prints [] ap []
  | literal {ch : Char} {rest out : List Char} {ap : Nat} (plain : ch ≠ '%') (more : Prints rest ap out) :
      Prints (ch :: rest) ap (ch :: out)
  | conversion {m rest text out : List Char} {ch : Char} {flags : Flags} {ap ap' ap'' : Nat}
      (modifiers : ∀ c ∈ m, modifier c) (known : convert args flags ap' ch = some (text, ap''))
      (more : Prints rest ap'' out) : Prints ('%' :: (m ++ ch :: rest)) ap (text ++ out)
  | unknown {m rest out : List Char} {ch : Char} {ap ap' : Nat} (modifiers : ∀ c ∈ m, modifier c)
      (other : ¬modifier ch ∧ ch ∉ conversions) (more : Prints rest ap' out) :
      Prints ('%' :: (m ++ ch :: rest)) ap ('%' :: (m ++ ch :: out))
  | incomplete {m : List Char} (ap : Nat) (modifiers : ∀ c ∈ m, modifier c) :
    Prints ('%' :: m) ap ('%' :: m)

inductive Escaped (start : Nat) : List Char → List Char × Nat × Nat → Prop where
  | conversion {m rest text : List Char} {ch : Char} {flags : Flags} {ap ap' : Nat}
      (modifiers : ∀ c ∈ m, modifier c) (known : convert args flags ap ch = some (text, ap')) :
      Escaped start (m ++ ch :: rest) (text, start + m.length + 1, ap')
  | unknown {m tail : List Char} {ap : Nat} (modifiers : ∀ c ∈ m, modifier c)
      (other : ∀ ch ∈ tail.head?, ¬modifier ch ∧ ch ∉ conversions) :
        Escaped start (m ++ tail) (['%'], start, ap)

section Scan

variable {args} {before m tail : List Char} {ch : Char}

theorem peek_append (before tail : List Char) :
    peek (before ++ tail) before.length = .ok (tail.headD '\x00') := by
  cases tail <;> simp [peek]

theorem rewind_back (plain : '%' ∉ m) (tail : List Char) :
    rewind (before ++ '%' :: (m ++ tail)) (before.length + 1 + m.length) = .ok (before.length + 1) := by
  induction m using List.reverseRecOn generalizing tail with
  | nil =>
    rw [List.length_nil, Nat.add_zero, rewind, peek_append]
    rfl
  | append_singleton m c ih =>
    have here := peek_append (before ++ '%' :: m) (c :: tail)
    simp only [List.append_assoc, List.length_append, List.length_cons, List.cons_append] at here
    have other : c ≠ '%' := fun same => plain (by simp [same])
    rw [List.length_append, List.length_singleton, ← Nat.add_assoc, rewind, List.append_assoc,
      List.singleton_append, show before.length + 1 + m.length = before.length +
        (m.length + 1) by omega, here]
    have back := ih (fun inside => plain (List.mem_append_left _ inside)) (c :: tail)
    rw [show before.length + 1 + m.length = before.length + (m.length + 1) by omega] at back
    simpa [Bind.bind, Except.bind, other] using back

theorem not_digit_iff : (ch < '0' ∨ '9' < ch) ↔ ch.isDigit = false := by
  simp only [Char.isDigit, Char.lt_def, UInt32.lt_iff_toNat_lt, Bool.and_eq_false_iff,
    decide_eq_false_iff_not, ge_iff_le, UInt32.le_iff_toNat_le, not_le]

def addDigit (precision : Word) (ch : Char) : Word :=
  precision * 10 + BitVec.ofNat 32 (ch.toNat - '0'.toNat)

theorem digits_eq (before : List Char) {fuel : Nat} (precision : Word) (ch : Char)
    (enough : tail.length < fuel) : digits (before ++ tail) fuel before.length precision ch = .ok
      ((tail.takeWhile Char.isDigit).foldl addDigit (addDigit precision ch),
        before.length + (tail.takeWhile Char.isDigit).length) := by
  induction fuel generalizing before tail precision ch with
  | zero => contradiction
  | succ fuel ih =>
    rw [digits, peek_append]
    simp only [Bind.bind, Except.bind, not_digit_iff]
    cases tail with
    | nil => rfl
    | cons c rest =>
      by_cases digit : c.isDigit
      · have next := ih (before ++ [c]) (addDigit precision ch) c (Nat.lt_of_succ_lt_succ enough)
        simp only [List.append_assoc, List.singleton_append, List.length_append,
          List.length_singleton] at next
        simp only [List.headD_cons, digit, Bool.true_eq_false, if_false, List.takeWhile_cons_of_pos digit,
          List.foldl_cons, List.length_cons]
        rw [show before.length + ((rest.takeWhile Char.isDigit).length + 1) =
          before.length + 1 + (rest.takeWhile Char.isDigit).length by omega]
        exact next
      · simp [digit, addDigit]

theorem digit_range : ('1' ≤ ch ∧ ch ≤ '9') ↔ ch.isDigit ∧ ch ≠ '0' := by
  have first : ch = '0' ↔ ch.val.toNat = 48 := by
    rw [Char.ext_iff, UInt32.toNat_inj.symm]
    rfl
  simp only [Char.isDigit, Char.le_def, UInt32.le_iff_toNat_le, ge_iff_le, Bool.and_eq_true,
    decide_eq_true_eq, ne_eq, first]
  simp only [Char.reduceVal, UInt32.reduceToNat]
  omega

theorem mem_conversions {flags : Flags} {ap : Nat} (known : ch ∈ conversions) :
    convert args flags ap ch ≠ none := by
  simp only [conversions, List.mem_cons, List.not_mem_nil, or_false] at known
  obtain rfl | rfl | rfl | rfl | rfl | rfl | rfl | rfl | rfl := known <;> exact Option.some_ne_none _

theorem modifier_iff (args : Args) (flags : Flags) (ap : Nat) (ch : Char) :
    modifier ch ↔ (flag args flags ap ch).isSome ∨ '1' ≤ ch ∧ ch ≤ '9' := by
  rw [digit_range, modifier, flag]
  by_cases zero : ch = '0'
  · simp [zero]
  · split_ifs <;> simp_all

theorem reswitch_escaped {fuel : Nat} (flags : Flags) (ap : Nat) (modifiers : ∀ c ∈ m, modifier c)
    (enough : tail.length < fuel) :
    ∃ r, reswitch args (before ++ '%' :: (m ++ tail)) fuel (before.length + 1 + m.length) flags ap =
    .ok r ∧
      Escaped args (before.length + 1) (m ++ tail) r := by
  induction fuel generalizing m tail flags ap with
  | zero => contradiction
  | succ fuel ih =>
    have here := peek_append (before ++ '%' :: m) tail
    simp only [List.append_assoc, List.length_append, List.length_cons, List.cons_append] at here
    rw [show before.length + (m.length + 1) = before.length + 1 + m.length by omega] at here
    -- After modifiers `ds` the scan is at the character behind them.
    have again : ∀ ds rest flags ap, tail = ds ++ rest → ds ≠ [] → (∀ c ∈ ds, modifier c) →
        ∃ r, reswitch args (before ++ '%' :: (m ++ tail)) fuel (before.length + 1 + m.length +
          ds.length) flags ap =
            .ok r ∧
          Escaped args (before.length + 1) (m ++ tail) r := by
      rintro ds rest flags ap rfl some all
      have more := List.length_pos_of_ne_nil some
      have next := @ih (m ++ ds) rest flags ap
        (fun c inside => (List.mem_append.mp inside).elim (modifiers c) (all c))
        (by rw [List.length_append] at enough; omega)
      rw [List.length_append, ← Nat.add_assoc, List.append_assoc] at next
      exact next
    have plain : '%' ∉ m := fun inside => absurd (modifiers _ inside) (by decide)
    rw [reswitch]
    cases tail with
    | nil =>
      rw [here]
      simp only [Bind.bind, Except.bind]
      rw [rewind_back plain]
      exact ⟨_, rfl, .unknown modifiers (by simp)⟩
    | cons ch rest =>
      rw [here, List.headD_cons]
      simp only [Bind.bind, Except.bind]
      have kind := modifier_iff args flags ap ch
      cases changed : flag args flags ap ch with
      | some pair =>
        exact again [ch] rest pair.1 pair.2 rfl (List.cons_ne_nil _ _) (by simp [kind, changed])
      | none =>
        rw [changed] at kind
        dsimp only
        by_cases digit : '1' ≤ ch ∧ ch ≤ '9'
        · let ds := rest.takeWhile Char.isDigit
          have read := digits_eq (before ++ '%' :: (m ++ [ch])) 0 ch
            (Nat.lt_of_succ_lt_succ enough : rest.length < fuel)
          simp only [List.append_assoc, List.cons_append, List.nil_append, List.length_append,
            List.length_cons, List.length_nil] at read
          rw [show before.length + (m.length + (0 + 1) + 1) = before.length + 1 + m.length +
            1 by omega] at read
          rw [if_pos digit, read]
          have next := again (ch :: ds) (rest.dropWhile Char.isDigit)
            (processPrecision flags (ds.foldl addDigit (addDigit 0 ch)).toInt) ap
            (by rw [List.cons_append, List.takeWhile_append_dropWhile]) (List.cons_ne_nil _ _)
            (List.forall_mem_cons.mpr ⟨by simp [kind, digit], fun c inside => by
              simp [modifier, List.mem_takeWhile_imp inside]⟩)
          rw [List.length_cons, show before.length + 1 + m.length + (ds.length + 1) =
            before.length + 1 + m.length + 1 + ds.length by omega] at next
          exact next
        · have other : ¬modifier ch := by simpa [digit] using kind
          rw [if_neg digit]
          cases known : convert args flags ap ch with
          | some pair => exact ⟨_, rfl, .conversion modifiers known⟩
          | none =>
            simp only [rewind_back plain]
            exact ⟨_, rfl, .unknown modifiers fun c first => by
              obtain rfl := Option.some.inj first
              exact ⟨other, fun inside => mem_conversions inside known⟩⟩

end Scan

section Whole

variable {args} {before m tail out : List Char} {ap : Nat}

theorem Prints.nil_inv {text : List Char} (prints : Prints args text ap out) (empty : text = []) :
    out = [] := by
  cases prints with
  | nil => rfl
  | literal | conversion | unknown | incomplete => cases empty

theorem Prints.cons_inv {text rest : List Char} {ch : Char} (plain : ch ≠ '%')
    (prints : Prints args text ap out) (same : text = ch :: rest) : ∃ more, out = ch :: more ∧
    Prints args rest ap more := by
  cases prints with
  | nil => cases same
  | literal _ more =>
    cases same
    exact ⟨_, rfl, more⟩
  | conversion | unknown | incomplete => exact absurd (List.cons.inj same).1.symm plain

theorem Prints.literal_inv (plain : '%' ∉ m) (prints : Prints args (m ++ tail) ap out) :
    ∃ rest, out = m ++ rest ∧ Prints args tail ap rest := by
  induction m generalizing out with
  | nil => exact ⟨out, rfl, prints⟩
  | cons c m ih =>
    obtain ⟨other, plain⟩ := not_or.mp (mt List.mem_cons.mpr plain)
    obtain ⟨more, rfl, behind⟩ := prints.cons_inv (Ne.symm other) rfl
    obtain ⟨rest, rfl, last⟩ := ih plain behind
    exact ⟨rest, rfl, last⟩

theorem Prints.taken_back {ap' : Nat} (modifiers : ∀ c ∈ m, modifier c)
    (other : ∀ ch ∈ tail.head?, ¬modifier ch ∧ ch ∉ conversions)
    (prints : Prints args (m ++ tail) ap' out) :
    Prints args ('%' :: (m ++ tail)) ap ('%' :: out) := by
  obtain ⟨rest, rfl, behind⟩ := prints.literal_inv fun inside => absurd (modifiers _ inside) (by decide)
  cases tail with
  | nil =>
    rw [behind.nil_inv rfl]
    simpa using Prints.incomplete ap modifiers
  | cons ch tail =>
    have strange := other ch rfl
    have plain : ch ≠ '%' := fun same => strange.2 (by simp [same, conversions])
    obtain ⟨rest, rfl, more⟩ := behind.cons_inv plain rfl
    exact .unknown modifiers strange more

theorem vprintfmt_prints (before : List Char) {fuel : Nat} (free : '\x00' ∉ tail)
    (enough : tail.length < fuel) : ∃ out, vprintfmt args (before ++ tail) fuel before.length ap =
    .ok out ∧ Prints args tail ap out := by
  induction fuel generalizing before tail ap with
  | zero => contradiction
  | succ fuel ih =>
    rw [vprintfmt, peek_append]
    simp only [Bind.bind, Except.bind]
    cases tail with
    | nil => exact ⟨[], rfl, .nil ap⟩
    | cons ch rest =>
      have fewer : rest.length < fuel := Nat.lt_of_succ_lt_succ enough
      have clean : '\x00' ∉ rest := fun inside => free (List.mem_cons_of_mem ch inside)
      rw [List.headD_cons]
      by_cases escape : ch = '%'
      · subst escape
        obtain ⟨r, ran, escaped⟩ := @reswitch_escaped args before [] rest fuel .none ap (by simp) fewer
        rw [if_pos rfl]
        simp only [List.length_nil, Nat.add_zero, List.nil_append] at ran escaped
        rw [ran]
        cases escaped with
        | @conversion m rest text ch flags ap₁ ap₂ modifiers known =>
          obtain ⟨out, printed, prints⟩ := @ih rest ap₂ (before ++ '%' :: (m ++ [ch]))
            (fun inside => clean (by simp [inside])) (by simp at fewer; omega)
          simp only [List.append_assoc, List.cons_append, List.nil_append, List.length_append,
            List.length_cons, List.length_nil] at printed
          rw [show before.length + (m.length + (0 + 1) + 1) = before.length + 1 + m.length +
            1 by omega] at printed
          simp only [printed]
          exact ⟨_, rfl, .conversion modifiers known prints⟩
        | @unknown m tail ap₁ modifiers other =>
          obtain ⟨out, printed, prints⟩ := @ih (m ++ tail) ap₁ (before ++ ['%']) clean fewer
          simp only [List.append_assoc, List.singleton_append, List.length_append,
            List.length_singleton] at printed
          simp only [printed]
          exact ⟨_, rfl, prints.taken_back modifiers other⟩
      · have more : ch ≠ '\x00' := fun zero => free (by simp [zero])
        obtain ⟨out, printed, prints⟩ := @ih rest ap (before ++ [ch]) clean fewer
        simp only [List.append_assoc, List.singleton_append, List.length_append,
          List.length_singleton] at printed
        rw [if_neg escape, if_neg more, printed]
        exact ⟨_, rfl, .literal escape prints⟩

end Whole

theorem vprintfmt_total {fmt : List Char} (free : '\x00' ∉ fmt) (ap : Nat) {fuel : Nat}
    (enough : fmt.length < fuel) : ∃ out, vprintfmt args fmt fuel 0 ap = .ok out ∧
    Prints args fmt ap out :=
  vprintfmt_prints [] free enough

theorem vprintfmt_total_unknown :
    let args : Args := ⟨fun _ => 0, fun _ => []⟩
    ∃ out, vprintfmt args ['%', '5', 'q', '%'] 5 0 0 = .ok out ∧ out = ['%', '5', 'q', '%'] ∧
      Prints args ['%', '5', 'q', '%'] 0 out := by
  intro args
  obtain ⟨out, printed, prints⟩ := @vprintfmt_total args ['%', '5', 'q', '%'] (by decide) 0 5 (by decide)
  have text : vprintfmt args ['%', '5', 'q', '%'] 5 0 0 = .ok ['%', '5', 'q', '%'] := rfl
  exact ⟨out, printed, Except.ok.inj (printed.symm.trans text), prints⟩

end Jos.Lib.Printfmt
