import Jos.Kern.Mmu

namespace Jos.User.Sh

open Jos.Kern (Byte)

def whitespace : List Byte := [0x20, 0x09, 0x0d, 0x0a]

def symbols : List Byte := [0x3c, 0x7c, 0x3e, 0x26, 0x3b, 0x28, 0x29]

def strchr (set : List Byte) (c : Byte) : Bool := set.contains c

def inWord (c : Byte) : Bool := c ≠ 0 && !strchr (whitespace ++ symbols) c

/-- What `_gettoken` returns, its pointers as offsets from the line, and the memory from the line
on. -/
structure Found where
  code : Byte
  p1 : Option Nat
  p2 : Option Nat
  mem : List Byte

def gettokenFrom (mem : List Byte) (s : Nat) : Found :=
  let rest := (mem.drop s).dropWhile (strchr whitespace)
  let blanks := ((mem.drop s).takeWhile (strchr whitespace)).length
  let mem := mem.take s ++ List.replicate blanks 0 ++ rest
  let s := s + blanks
  match rest with
  | [] => ⟨0, none, none, mem⟩
  | c :: _ =>
    if c = 0 then ⟨0, none, none, mem⟩
    else if strchr symbols c then ⟨c, some s, some (s + 1), mem.set s 0⟩
    else ⟨0x77, some s, some (s + (rest.takeWhile inWord).length), mem⟩

structure Lexer where
  mem : List Byte
  nc : Byte
  np1 : Option Nat
  np2 : Option Nat

namespace Lexer

variable (s : Lexer)

def prime : Lexer :=
  let found := gettokenFrom s.mem 0
  ⟨found.mem, found.code, found.p1, found.p2⟩

def gettoken : (Byte × Option Nat) × Lexer :=
  ((s.nc, s.np1), match s.np2 with
    | none => { s with nc := 0 }
    | some np2 =>
      let found := gettokenFrom s.mem np2
      ⟨found.mem, found.code, found.p1, found.p2⟩)

def gettokens : Nat → Lexer → List (Byte × Option Nat) × Lexer
  | 0, s => ([], s)
  | n + 1, s =>
    let (token, s) := s.gettoken
    let (rest, s) := gettokens n s
    (token :: rest, s)

end Lexer

inductive Token where
  | word (text : List Byte)
  | symbol (c : Byte)
  deriving DecidableEq

def Token.code : Token → Byte
  | .word _ => 0x77
  | .symbol c => c

def lex : List Byte → List Token
  | [] => []
  | c :: rest =>
    if c ∈ whitespace then lex rest
    else if c ∈ symbols then .symbol c :: lex rest
    else .word (c :: rest.takeWhile inWord) :: lex (rest.dropWhile inWord)
termination_by line => line.length
decreasing_by
  all_goals simp only [List.length_cons]
  all_goals have := (List.dropWhile_sublist (p := inWord) (l := rest)).length_le
  all_goals omega

def ZeroFree (line : List Byte) : Prop := ∀ c ∈ line, c ≠ 0

inductive Ahead : Lexer → List Token → Prop where
  | eol (mem : List Byte) (np1 : Option Nat) : Ahead ⟨mem, 0, np1, none⟩ []
  | token {before line beyond : List Byte} {np1 : Option Nat} {t : Token} (free : ZeroFree line)
      (word : ∀ w, t = .word w → ∃ b, before = b ++ w ∧ np1 = some b.length)
      (stop : ∀ w, t = .word w → ∀ c ∈ line.head?, ¬inWord c) :
      Ahead ⟨before ++ (line ++ 0 :: beyond), t.code, np1, some before.length⟩ (t :: lex line)

def Holds (s : Lexer) (q : Nat) (w : List Byte) : Prop :=
  ∃ b, b.length = q ∧ b ++ w ++ [0] <+: s.mem ∧ ∀ p ∈ s.np2, (b ++ w ++ [0]).length ≤ p

section Scan

variable {before line beyond : List Byte}

theorem while_end {α : Type} {p : α → Bool} {e : α} (stop : p e = false) (line beyond : List α) :
    (line ++ e :: beyond).takeWhile p = line.takeWhile p ∧
      (line ++ e :: beyond).dropWhile p = line.dropWhile p ++ e :: beyond := by
  induction line with
  | nil => simp [stop]
  | cons c rest ih => by_cases more : p c <;> simp [more, ih]

theorem lex_blanks : lex line = lex (line.dropWhile (strchr whitespace)) := by
  induction line with
  | nil => rfl
  | cons c rest ih =>
    by_cases blank : c ∈ whitespace
    · rw [lex, if_pos blank, ih, List.dropWhile_cons_of_pos (by simpa [strchr] using blank)]
    · rw [List.dropWhile_cons_of_neg (by simpa [strchr] using blank)]

theorem gettokenFrom_eq : gettokenFrom (before ++ (line ++ 0 :: beyond)) before.length =
    let blanks := (line.takeWhile (strchr whitespace)).length
    let blanked := before ++ List.replicate blanks 0
    match line.dropWhile (strchr whitespace) with
    | [] => ⟨0, none, none, blanked ++ 0 :: beyond⟩
    | c :: more =>
      if c = 0 then ⟨0, none, none, blanked ++ (c :: more ++ 0 :: beyond)⟩
      else if strchr symbols c then
        ⟨c, some blanked.length, some (blanked.length + 1), blanked ++ 0 :: (more ++ 0 :: beyond)⟩
      else ⟨0x77, some blanked.length, some (blanked.length + ((c :: more).takeWhile inWord).length),
        blanked ++ (c :: more ++ 0 :: beyond)⟩ := by
  have spaces := while_end (p := strchr whitespace) (e := 0) rfl line beyond
  simp only [gettokenFrom, List.drop_left, List.take_left, spaces]
  cases line.dropWhile (strchr whitespace) with
  | nil => simp
  | cons c more =>
    have word := (while_end (p := inWord) (e := 0) rfl (c :: more) beyond).1
    simp only [List.cons_append] at word ⊢
    simp only [word, List.length_append, List.length_replicate]
    by_cases zero : c = 0
    · simp [zero]
    by_cases symbol : strchr symbols c
    · simp only [if_neg zero, if_pos symbol, List.append_assoc]
      congr 1
      rw [List.set_append_right _ _ (by omega), List.set_append_right _ _ (by simp)]
      simp
    · simp [symbol]

theorem ahead_gettokenFrom (before : List Byte) (free : ZeroFree line) :
    let found := gettokenFrom (before ++ (line ++ 0 :: beyond)) before.length
    Ahead ⟨found.mem, found.code, found.p1, found.p2⟩ (lex line) := by
  rw [gettokenFrom_eq, lex_blanks]
  dsimp only
  have kept : ZeroFree (line.dropWhile (strchr whitespace)) := fun c inside =>
    free c ((List.dropWhile_sublist _).subset inside)
  have solid := List.head?_dropWhile_not (strchr whitespace) line
  generalize line.dropWhile (strchr whitespace) = rest at kept solid ⊢
  generalize before ++ List.replicate (line.takeWhile (strchr whitespace)).length 0 = blanked
  cases rest with
  | nil => simpa [lex] using Ahead.eol _ _
  | cons c more =>
    have some : c ≠ 0 := kept c List.mem_cons_self
    have notBlank : c ∉ whitespace := by simpa [strchr] using solid
    have tail : ZeroFree more := fun d inside => kept d (List.mem_cons_of_mem c inside)
    rw [lex, if_neg notBlank]
    by_cases symbol : c ∈ symbols
    · have found : strchr symbols c = true := by simpa [strchr] using symbol
      simp only [if_pos symbol, if_neg some, if_pos found]
      have ahead :=
        @Ahead.token (blanked ++ [0]) more beyond (Option.some blanked.length) (.symbol c) tail
        (fun w other => nomatch other) (fun w other => nomatch other)
      simpa [Token.code] using ahead
    · have other : strchr symbols c ≠ true := by simpa [strchr] using symbol
      have inside : inWord c = true := by
        simpa [inWord, strchr, notBlank, symbol] using some
      simp only [if_neg symbol, if_neg some, if_neg other]
      have ahead := @Ahead.token (blanked ++ (c :: more.takeWhile inWord)) (more.dropWhile inWord) beyond
        (Option.some blanked.length) (.word (c :: more.takeWhile inWord))
        (fun d rest => tail d ((List.dropWhile_sublist _).subset rest))
          (fun w same => ⟨blanked, by simp_all, rfl⟩)
        (fun w _ d first => by
          have stop := List.head?_dropWhile_not inWord more
          rw [Option.mem_def.mp first] at stop
          simpa using stop)
      rw [List.append_assoc, ← List.append_assoc _ (more.dropWhile inWord), List.cons_append,
        List.takeWhile_append_dropWhile] at ahead
      simpa [Token.code, inside] using ahead

theorem gettokenFrom_stop (free : ZeroFree line) (stop : ∀ c ∈ line.head?, ¬inWord c) :
    let found := gettokenFrom (before ++ (line ++ 0 :: beyond)) before.length
    before ++ [0] <+: found.mem ∧ ∀ p ∈ found.p2, before.length + 1 ≤ p := by
  rw [gettokenFrom_eq]
  cases line with
  | nil => simp
  | cons c rest =>
    have some : c ≠ 0 := free c List.mem_cons_self
    by_cases blank : strchr whitespace c
    · simp only [List.takeWhile_cons_of_pos blank, List.dropWhile_cons_of_pos blank,
        List.length_cons, List.replicate_succ]
      split
      · simp
      · split_ifs <;> simp
        omega
    · have symbol : strchr symbols c = true := by
        have outside := stop c rfl
        simp [inWord, strchr] at outside blank ⊢
        tauto
      simp only [List.takeWhile_cons_of_neg blank, List.dropWhile_cons_of_neg blank, if_neg some,
        if_pos symbol]
      simp

theorem gettokenFrom_keeps (mem : List Byte) (s : Nat) :
    mem.take s <+: (gettokenFrom mem s).mem ∧ ∀ p ∈ (gettokenFrom mem s).p2, s ≤ p := by
  simp only [gettokenFrom, List.append_assoc]
  split
  · simp
  next c rest found =>
    have long : (mem.take s).length = s := by
      have some : mem.drop s ≠ [] := fun empty => by simp [empty] at found
      rw [List.length_take, Nat.min_eq_left]
      exact (List.drop_eq_nil_iff.not.mp some |> not_le.mp).le
    split
    · simp
    next =>
    split
    · rw [List.set_append_right _ _ (by omega)]
      refine ⟨List.prefix_append .., fun p same => ?_⟩
      obtain rfl := Option.some.inj same
      omega
    · refine ⟨List.prefix_append .., fun p same => ?_⟩
      obtain rfl := Option.some.inj same
      omega

end Scan

section Calls

variable {s : Lexer} {q : Nat} {w : List Byte} {t : Token} {ts : List Token}

theorem Holds.gettoken (holds : Holds s q w) : Holds s.gettoken.2 q w := by
  obtain ⟨b, start, stands, behind⟩ := holds
  unfold Lexer.gettoken
  cases back : s.np2 with
  | none => exact ⟨b, start, stands, by simp⟩
  | some p =>
    have room := behind p back
    obtain ⟨kept, forward⟩ := gettokenFrom_keeps s.mem p
    exact ⟨b, start, (List.prefix_take_iff.mpr ⟨stands, room⟩).trans kept,
      fun p' next => room.trans (forward p' next)⟩

theorem Ahead.gettoken (ahead : Ahead s (t :: ts)) :
    s.nc = t.code ∧ Ahead s.gettoken.2 ts ∧ ∀ w, t = .word w → ∃ q, s.np1 = some q ∧
    Holds s.gettoken.2 q w := by
  cases ahead with
  | token free word stop =>
    refine ⟨rfl, ahead_gettokenFrom _ free, fun w same => ?_⟩
    obtain ⟨b, rfl, start⟩ := word w same
    obtain ⟨stands, behind⟩ := gettokenFrom_stop free (stop w same)
    exact ⟨b.length, start, b, rfl, stands, fun p next => by simpa [Nat.add_assoc] using behind p next⟩

theorem Holds.gettokens (holds : Holds s q w) (n : Nat) : Holds (Lexer.gettokens n s).2 q w := by
  induction n generalizing s with
  | zero => exact holds
  | succ n ih => exact ih holds.gettoken

theorem Ahead.gettokens (ahead : Ahead s ts) {n k : Nat} (below : k < n) :
    ∃ p1, (Lexer.gettokens n s).1[k]? = some (ts[k]?.elim 0 Token.code, p1) ∧
      ∀ w, ts[k]? = some (.word w) → ∃ q, p1 = some q ∧ Holds (Lexer.gettokens n s).2 q w := by
  induction n generalizing s ts k with
  | zero => contradiction
  | succ n ih =>
    cases ts with
    | nil =>
      cases ahead with
      | eol mem np1 =>
        cases k with
        | zero => exact ⟨np1, rfl, fun w none => nomatch none⟩
        | succ k => exact @ih _ [] (.eol mem np1) k (Nat.lt_of_succ_lt_succ below)
    | cons t ts =>
      obtain ⟨code, next, word⟩ := ahead.gettoken
      cases k with
      | zero =>
        refine ⟨s.np1, congrArg (fun c => some (c, s.np1)) code, fun w same => ?_⟩
        obtain ⟨q, start, holds⟩ := word w (Option.some.inj same)
        exact ⟨q, start, holds.gettokens n⟩
      | succ k => exact ih next (Nat.lt_of_succ_lt_succ below)

theorem code_ne_zero (line : List Byte) : ∀ t ∈ lex line, t.code ≠ 0 := by
  fun_induction lex line with
  | case1 => simp
  | case2 _ _ _ ih => exact ih
  | case3 c rest _ symbol ih =>
    rintro t (_ | ⟨_, member⟩)
    · rintro rfl
      exact absurd symbol (by decide)
    · exact ih t member
  | case4 c rest _ _ ih =>
    rintro t (_ | ⟨_, member⟩)
    · exact show (0x77 : Byte) ≠ 0 by decide
    · exact ih t member

end Calls

theorem gettoken_tokens {line : List Byte} (free : ZeroFree line) (beyond : List Byte) (nc : Byte)
    (np1 np2 : Option Nat) {n k : Nat} (below : k < n) :
    let out := Lexer.gettokens n (Lexer.prime ⟨line ++ 0 :: beyond, nc, np1, np2⟩)
    (∀ t ∈ lex line, t.code ≠ 0) ∧
    ∃ p1, out.1[k]? = some ((lex line)[k]?.elim 0 Token.code, p1) ∧
      ∀ w, (lex line)[k]? = some (.word w) → ∃ q, p1 = some q ∧ w ++ [0] <+: out.2.mem.drop q := by
  intro out
  have ahead : Ahead (Lexer.prime ⟨line ++ 0 :: beyond, nc, np1, np2⟩) (lex line) :=
    ahead_gettokenFrom [] free
  obtain ⟨p1, returned, word⟩ := ahead.gettokens below
  refine ⟨code_ne_zero line, p1, returned, fun w same => ?_⟩
  obtain ⟨q, rfl, b, rfl, ⟨after, stands⟩, -⟩ := word w same
  refine ⟨b.length, rfl, after, ?_⟩
  rw [← stands, List.append_assoc b w, List.append_assoc b, List.drop_left]

theorem gettoken_tokens_pipe :
    let out := Lexer.gettokens 3 (Lexer.prime ⟨[0x61, 0x7c, 0x62, 0], 0, none, none⟩)
    lex [0x61, 0x7c, 0x62] = [.word [0x61], .symbol 0x7c, .word [0x62]] ∧
    ∃ q, out.1[2]? = some (0x77, some q) ∧ [0x62, 0] <+: out.2.mem.drop q := by
  have tokens : lex [0x61, 0x7c, 0x62] = [.word [0x61], .symbol 0x7c, .word [0x62]] := by
    simp [lex, whitespace, symbols, inWord, strchr]
  obtain ⟨-, p1, returned, word⟩ :=
    @gettoken_tokens [0x61, 0x7c, 0x62] (by unfold ZeroFree; decide) [] 0 none none 3 2 (by decide)
  rw [tokens] at returned word
  obtain ⟨q, rfl, stands⟩ := word [0x62] rfl
  exact ⟨tokens, q, returned, stands⟩

end Jos.User.Sh
