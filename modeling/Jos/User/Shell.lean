import Jos.User.ShellTokens

namespace Jos.User.Sh

open Jos.Kern (Byte)
open Function

def maxargs : Nat := 16

def bufsiz : Nat := 1024

structure Runcmd where
  lexer : Lexer
  asked : Nat
  argc : Nat
  argv : Nat → Option Nat
  argvStores : List Nat
  bufStores : List Nat

inductive Round where
  | again (s : Runcmd)
  | runit (s : Runcmd)
  | exit (s : Runcmd)

namespace Runcmd

variable (answer : Nat → Int) (s : Runcmd)

def start (lexer : Lexer) : Runcmd := ⟨lexer, 0, 0, fun _ => none, [], []⟩

def addArgument (t : Option Nat) : Round :=
  if s.argc = maxargs then .exit s
  else .again { s with
    argv := update s.argv s.argc t, argc := s.argc + 1, argvStores := s.argc :: s.argvStores }

def redirect : Round :=
  let ((c, _), lexer) := s.lexer.gettoken
  let s := { s with lexer := lexer }
  if c ≠ 0x77 then .exit s
  else if answer s.asked < 0 then .exit s
  else .again { s with asked := s.asked + 1 }

-- The child of `fork` goes on with the line, its parent runs what stands before the pipe.
def pipe : Round :=
  if answer s.asked < 0 then .exit s
  else if answer (s.asked + 1) < 0 then .exit s
  else if answer (s.asked + 1) = 0 then .again { s with asked := s.asked + 2, argc := 0 }
  else .runit s

def round : Round :=
  let ((c, t), lexer) := s.lexer.gettoken
  let s := { s with lexer := lexer }
  if c = 0x77 then s.addArgument t
  else if c = 0x3c then s.redirect answer
  else if c = 0x3e then s.redirect answer
  else if c = 0x7c then s.pipe answer
  else if c = 0 then .runit s
  else .exit s

def string (p : Option Nat) : List Byte := p.elim [] fun q => (s.lexer.mem.drop q).takeWhile (· ≠ 0)

def runit : Runcmd :=
  if s.argc = 0 then s
  else
    let name := s.string (s.argv 0)
    let s := if name.head? ≠ some 0x2f then
        { s with bufStores := 0 :: (List.range (name.length + 1)).map (· + 1),
                 argvStores := 0 :: s.argvStores }
      else s
    { s with argvStores := s.argc :: s.argvStores }

def loop : Nat → Runcmd → Option Runcmd
  | 0, _ => none
  | fuel + 1, s =>
    match s.round answer with
    | .again s => loop fuel s
    | .runit s => some s.runit
    | .exit s => some s

structure InBounds : Prop where
  argv : ∀ i ∈ s.argvStores, i < maxargs
  buf : ∀ i ∈ s.bufStores, i < bufsiz

end Runcmd

def runcmd (answer : Nat → Int) (lexer : Lexer) : Option Runcmd :=
  Runcmd.loop answer lexer.mem.length (.start lexer.prime)

def command (answer : Nat → Int) : List Token → Nat → List (List Byte) → Option (List (List Byte))
  | [], _, words => some words
  | .word w :: ts, asked, words =>
    if words.length = maxargs then none else command answer ts asked (words ++ [w])
  | .symbol c :: ts, asked, words =>
    if c = 0x3c ∨ c = 0x3e then
      match ts with
      | .word _ :: ts => if answer asked < 0 then none else command answer ts (asked + 1) words
      | _ => none
    else if c = 0x7c then
      if answer asked < 0 ∨ answer (asked + 1) < 0 then none
      else if answer (asked + 1) = 0 then command answer ts (asked + 2) []
      else some words
    else none

def Fits (words : List (List Byte)) : Prop :=
  words.length ≠ maxargs ∧ ∀ w ∈ words.head?, w.head? ≠ some 0x2f → w.length < 1023

def Token.Clean : Token → Prop
  | .word w => ZeroFree w
  | .symbol c => c ∈ symbols

structure Reading (s : Runcmd) (ts : List Token) (words : List (List Byte)) : Prop where
  ahead : Ahead s.lexer ts
  clean : ∀ t ∈ ts, t.Clean
  argc : s.argc = words.length
  few : words.length ≤ maxargs
  name : ∀ w ∈ words.head?, ZeroFree w ∧ ∃ q, s.argv 0 = some q ∧ Holds s.lexer q w
  argv : ∀ i ∈ s.argvStores, i < maxargs
  buf : s.bufStores = []

def Decided (t : Runcmd) (ran : Option (List (List Byte))) : Prop :=
  t.InBounds ↔ ∀ words ∈ ran, Fits words

section Rounds

variable {answer : Nat → Int} {s : Runcmd} {t : Token} {ts : List Token} {words : List (List Byte)}

theorem lex_clean {line : List Byte} (free : ZeroFree line) : ∀ t ∈ lex line, t.Clean := by
  fun_induction lex line with
  | case1 => simp
  | case2 c rest _ ih => exact ih fun d member => free d (List.mem_cons_of_mem c member)
  | case3 c rest _ symbol ih =>
    rintro t (_ | ⟨_, member⟩)
    · exact symbol
    · exact ih (fun d member => free d (List.mem_cons_of_mem c member)) t member
  | case4 c rest _ _ ih =>
    have tail : ZeroFree rest := fun d member => free d (List.mem_cons_of_mem c member)
    rintro t (_ | ⟨_, member⟩)
    · rintro d (_ | ⟨_, inside⟩)
      · exact free c List.mem_cons_self
      · exact tail d ((List.takeWhile_sublist _).subset inside)
    · exact ih (fun d inside => tail d ((List.dropWhile_sublist _).subset inside)) t member

theorem Reading.inBounds (reading : Reading s ts words) : s.InBounds :=
  ⟨reading.argv, by simp [reading.buf]⟩

theorem Reading.exit (reading : Reading s ts words) : Decided s none :=
  iff_of_true reading.inBounds (by simp)

theorem string_of_holds {q : Nat} {w : List Byte} (free : ZeroFree w) (holds : Holds s.lexer q w) :
    s.string (some q) = w := by
  obtain ⟨b, rfl, ⟨after, stands⟩, -⟩ := holds
  have text : s.lexer.mem.drop b.length = w ++ 0 :: after := by
    rw [← stands, List.append_assoc b w, List.append_assoc b, List.drop_left, List.append_assoc]
    rfl
  have whole : w.takeWhile (· ≠ 0) = w := List.takeWhile_eq_self_iff.mpr fun c inside => by
    simpa using free c inside
  rw [Runcmd.string, Option.elim, text, (while_end (by simp) w after).1, whole]

theorem Reading.runit (reading : Reading s ts words) : Decided s.runit (some words) := by
  unfold Runcmd.runit Decided
  cases words with
  | nil =>
    rw [if_pos (show s.argc = 0 from reading.argc)]
    exact iff_of_true reading.inBounds (by simp [Fits, maxargs])
  | cons w rest =>
    obtain ⟨free, q, start, holds⟩ := reading.name w rfl
    have many : s.argc ≠ 0 := by simp [reading.argc]
    have few := reading.few
    have stored := reading.argv
    simp only [if_neg many, start, string_of_holds free holds, Option.mem_some_iff, forall_eq', Fits,
      ← reading.argc, List.head?_cons] at few ⊢
    by_cases rooted : w.head? = some 0x2f
    · simp only [rooted, ne_eq, not_true_eq_false, if_false, IsEmpty.forall_iff, and_true]
      refine ⟨fun bounds => (bounds.argv _ List.mem_cons_self).ne,
        fun below => ⟨?_, by simp [reading.buf]⟩⟩
      exact List.forall_mem_cons.mpr ⟨lt_of_le_of_ne few below, stored⟩
    · simp only [ne_eq, rooted, not_false_eq_true, if_true, forall_const]
      refine ⟨fun bounds => ⟨(bounds.argv _ List.mem_cons_self).ne, ?_⟩, fun ⟨below, short⟩ => ⟨?_, ?_⟩⟩
      · have last := bounds.buf (w.length + 1) (by simp)
        simp only [bufsiz] at last
        omega
      · exact List.forall_mem_cons.mpr ⟨lt_of_le_of_ne few below,
          List.forall_mem_cons.mpr ⟨by decide, stored⟩⟩
      · simp [bufsiz]
        omega

theorem Reading.gettoken (reading : Reading s (t :: ts) words) :
    Reading { s with lexer := s.lexer.gettoken.2 } ts words where
  ahead := reading.ahead.gettoken.2.1
  clean u member := reading.clean u (List.mem_cons_of_mem t member)
  argc := reading.argc
  few := reading.few
  name w first := by
    obtain ⟨free, q, same, holds⟩ := reading.name w first
    exact ⟨free, q, same, holds.gettoken⟩
  argv := reading.argv
  buf := reading.buf

theorem Reading.addArgument {w : List Byte} (reading : Reading s (.word w :: ts) words)
    (room : words.length ≠ maxargs) : Reading { s with
      lexer := s.lexer.gettoken.2, argv := update s.argv s.argc s.lexer.np1, argc := s.argc + 1,
      argvStores := s.argc :: s.argvStores } ts (words ++ [w]) := by
  have next := reading.gettoken
  have below : s.argc < maxargs := reading.argc ▸ lt_of_le_of_ne reading.few room
  refine { next with argc := by simp [reading.argc], few := ?_, name := ?_, argv := ?_ }
  · rw [List.length_append]
    exact Nat.succ_le_of_lt (lt_of_le_of_ne reading.few room)
  · intro v first
    cases words with
    | nil =>
      obtain rfl := Option.some.inj first
      obtain ⟨q, start, holds⟩ := reading.ahead.gettoken.2.2 _ rfl
      refine ⟨reading.clean _ List.mem_cons_self, q, Eq.trans ?_ start, holds⟩
      exact (congrArg _ (show 0 = s.argc from reading.argc.symm)).trans (update_self ..)
    | cons u words =>
      obtain ⟨free, q, start, holds⟩ := next.name v first
      have other : 0 ≠ s.argc := by simp [reading.argc]
      exact ⟨free, q, (update_of_ne other ..).trans start, holds⟩
  · exact List.forall_mem_cons.mpr ⟨below, reading.argv⟩

theorem Reading.asked (reading : Reading s ts words) (n : Nat) : Reading { s with asked := n } ts words :=
  { reading with }

theorem Reading.again (reading : Reading s ts words) (n : Nat) :
    Reading { s with asked := n, argc := 0 } ts [] :=
  { reading with argc := rfl, few := Nat.zero_le _, name := by simp }

theorem Reading.got (reading : Reading s (t :: ts) words) :
    s.lexer.gettoken = ((t.code, s.lexer.np1), s.lexer.gettoken.2) :=
  Prod.ext (Prod.ext reading.ahead.gettoken.1 rfl) rfl

theorem Reading.ends (reading : Reading s [] words) : s.lexer.gettoken = ((0, s.lexer.np1), s.lexer) := by
  obtain ⟨⟨mem, nc, np1, np2⟩, asked, argc, argv, argvStores, bufStores⟩ := s
  cases reading.ahead with
  | eol => rfl

theorem Reading.notWord {c : Byte} (reading : Reading s (.symbol c :: ts) words) : c ≠ 0x77 := fun same =>
  absurd (same ▸ reading.clean _ List.mem_cons_self : (0x77 : Byte) ∈ symbols) (by decide)

theorem Reading.round_symbol {c : Byte} (reading : Reading s (.symbol c :: ts) words) :
    let next := { s with lexer := s.lexer.gettoken.2 }
    s.round answer = if c = 0x3c ∨ c = 0x3e then next.redirect answer
      else if c = 0x7c then next.pipe answer else .exit next := by
  have notEol : c ≠ 0 := fun same =>
    absurd (same ▸ reading.clean _ List.mem_cons_self : (0 : Byte) ∈ symbols) (by decide)
  have notWord := reading.notWord
  rw [Runcmd.round, reading.got]
  grind [Token.code]

theorem redirect_exit (other : s.lexer.nc ≠ 0x77) :
    s.redirect answer = .exit { s with lexer := s.lexer.gettoken.2 } := if_pos other

theorem loop_decided {fuel : Nat} (reading : Reading s ts words) (enough : ts.length < fuel) :
    ∃ t, Runcmd.loop answer fuel s = some t ∧ Decided t (command answer ts s.asked words) := by
  induction fuel generalizing s ts words with
  | zero => contradiction
  | succ fuel ih =>
    rw [Runcmd.loop]
    cases ts with
    | nil =>
      rw [Runcmd.round, reading.ends]
      exact ⟨_, rfl, reading.runit⟩
    | cons t ts =>
      have next := reading.gettoken
      have shorter : ts.length < fuel := Nat.lt_of_succ_lt_succ enough
      cases t with
      | word w =>
        rw [Runcmd.round, reading.got, command, ← reading.argc]
        simp only [Token.code, if_true, Runcmd.addArgument]
        by_cases full : s.argc = maxargs
        · rw [if_pos full, if_pos full]
          exact ⟨_, rfl, next.exit⟩
        · rw [if_neg full, if_neg full]
          exact ih (reading.addArgument (reading.argc ▸ full)) shorter
      | symbol c =>
        rw [reading.round_symbol, command.eq_def]
        dsimp only
        by_cases io : c = 0x3c ∨ c = 0x3e
        · rw [if_pos io, if_pos io]
          cases ts with
          | nil =>
            have eol : s.lexer.gettoken.2.nc = 0 := congrArg (·.1.1) next.ends
            rw [redirect_exit (ne_of_eq_of_ne eol (by decide)), next.ends]
            exact ⟨_, rfl, next.exit⟩
          | cons u ts =>
            have file := next.gettoken
            cases u with
            | symbol d =>
              rw [redirect_exit (next.ahead.gettoken.1 ▸ next.notWord)]
              exact ⟨_, rfl, file.exit⟩
            | word v =>
              rw [Runcmd.redirect, next.got]
              by_cases failed : answer s.asked < 0
              · simp only [Token.code, if_pos failed, ne_eq, not_true_eq_false, if_false]
                exact ⟨_, rfl, file.exit⟩
              · simp only [Token.code, if_neg failed, ne_eq, not_true_eq_false, if_false]
                exact ih (file.asked (s.asked + 1)) (Nat.lt_of_succ_lt shorter)
        next =>
        rw [if_neg io, if_neg io]
        by_cases bar : c = 0x7c
        · rw [if_pos bar, if_pos bar, Runcmd.pipe]
          dsimp only
          by_cases failed : answer s.asked < 0 ∨ answer (s.asked + 1) < 0
          · rw [if_pos failed]
            refine ⟨_, ?_, next.exit⟩
            split_ifs <;> first | rfl | omega
          · rw [if_neg failed, if_neg (by omega), if_neg (by omega)]
            by_cases child : answer (s.asked + 1) = 0
            · rw [if_pos child, if_pos child]
              exact ih (next.again (s.asked + 2)) shorter
            · rw [if_neg child, if_neg child]
              exact ⟨_, rfl, next.runit⟩
        · rw [if_neg bar, if_neg bar]
          exact ⟨_, rfl, next.exit⟩

end Rounds

theorem lex_length (line : List Byte) : (lex line).length ≤ line.length := by
  fun_induction lex line with
  | case1 => exact Nat.le_refl 0
  | case2 c rest _ ih => exact Nat.le_succ_of_le ih
  | case3 c rest _ _ ih => exact Nat.succ_le_succ ih
  | case4 c rest _ _ ih => exact Nat.succ_le_succ (ih.trans (List.dropWhile_sublist _).length_le)

theorem runcmd_in_bounds_iff {line : List Byte} (free : ZeroFree line) (answer : Nat → Int)
    (beyond : List Byte) (nc : Byte) (np1 np2 : Option Nat) :
    ∃ t, runcmd answer ⟨line ++ 0 :: beyond, nc, np1, np2⟩ = some t ∧
      (t.InBounds ↔ ∀ words ∈ command answer (lex line) 0 [], Fits words) := by
  have ahead : Ahead (Lexer.prime ⟨line ++ 0 :: beyond, nc, np1, np2⟩) (lex line) :=
    ahead_gettokenFrom [] free
  have reading : Reading (.start (Lexer.prime ⟨line ++ 0 :: beyond, nc, np1, np2⟩)) (lex line) [] :=
    ⟨ahead, lex_clean free, rfl, Nat.zero_le _, by simp, by simp [Runcmd.start], rfl⟩
  refine loop_decided reading ?_
  have short := lex_length line
  simp only [List.length_append, List.length_cons]
  omega

theorem runcmd_in_bounds_two :
    ZeroFree [0x61, 0x20, 0x62] ∧
    ∃ t, runcmd (fun _ => 0) ⟨[0x61, 0x20, 0x62, 0], 0, none, none⟩ = some t ∧ t.InBounds := by
  have free : ZeroFree [0x61, 0x20, 0x62] := by unfold ZeroFree; decide
  obtain ⟨t, ran, bounds⟩ := runcmd_in_bounds_iff free (fun _ => 0) [] 0 none none
  refine ⟨free, t, ran, bounds.mpr ?_⟩
  simp [lex, whitespace, symbols, inWord, strchr, command, maxargs, Fits]

-- Sixteen words: the terminator of the vector is stored behind its end.
theorem runcmd_sixteen_words :
    let line := (List.replicate 16 [0x61, 0x20]).flatten
    ZeroFree line ∧ line.length ≤ 1023 ∧
      ∃ t, runcmd (fun _ => 0) ⟨line ++ [0], 0, none, none⟩ = some t ∧ ¬t.InBounds := by
  refine ⟨by unfold ZeroFree; decide, by decide, ?_⟩
  have stored : (runcmd (fun _ => 0) ⟨(List.replicate 16 [0x61, 0x20]).flatten ++ [0], 0, none, none⟩).any
      (maxargs ∈ ·.argvStores) = true := by decide +kernel
  obtain ⟨t, ran, stored⟩ := (Option.any_eq_true ..).mp stored
  exact ⟨t, ran, fun bounds => absurd (bounds.argv maxargs (of_decide_eq_true stored)) (lt_irrefl _)⟩

end Jos.User.Sh
