import Jos.Fs.Find
import Jos.Fs.Ownership

namespace Jos.Fs

open Jos.Shared
open Jos.Kern (Word Byte)

section Scanning

def slash : Byte := 0x2F

def skipSlash (p : List Byte) : List Byte := p.dropWhile (· = slash)

def element (p : List Byte) : List Byte := p.takeWhile (· ≠ slash)

def afterElement (p : List Byte) : List Byte := skipSlash (p.dropWhile (· ≠ slash))

variable {p : List Byte} {b : Byte}

theorem skipSlash_length (p : List Byte) : (skipSlash p).length ≤ p.length :=
  (List.dropWhile_sublist _).length_le

theorem afterElement_length (nonempty : p ≠ []) : (afterElement p).length < p.length := by
  cases p with
  | nil => exact absurd rfl nonempty
  | cons b p =>
    unfold afterElement
    by_cases here : b = slash
    · rw [List.dropWhile_cons_of_neg (by simpa using here), skipSlash,
        List.dropWhile_cons_of_pos (by simpa using here)]
      exact Nat.lt_succ_of_le (List.dropWhile_sublist _).length_le
    · rw [List.dropWhile_cons_of_pos (by simpa using here)]
      exact Nat.lt_succ_of_le ((skipSlash_length _).trans (List.dropWhile_sublist _).length_le)

theorem components_slash (p : List Byte) : components (slash :: p) = components p := by
  simp [components, List.splitOn, slash, List.splitOnP_cons_eq_if_modifyHead]

theorem components_skipSlash (p : List Byte) : components (skipSlash p) = components p := by
  induction p with
  | nil => rfl
  | cons b p ih =>
    by_cases here : b = slash
    · subst here
      rw [skipSlash, List.dropWhile_cons_of_pos (by simp), components_slash]
      exact ih
    · rw [skipSlash, List.dropWhile_cons_of_neg (by simpa using here)]

def Trimmed (p : List Byte) : Prop := skipSlash p = p

theorem trimmed_skipSlash (p : List Byte) : Trimmed (skipSlash p) := List.dropWhile_idempotent _ p

theorem Trimmed.head (trimmed : Trimmed (b :: p)) : b ≠ slash := by
  intro here
  have shorter := skipSlash_length p
  rw [Trimmed, skipSlash, List.dropWhile_cons_of_pos (by simpa using here)] at trimmed
  have same := congrArg List.length trimmed
  rw [List.length_cons] at same
  rw [skipSlash] at shorter
  omega

theorem components_trimmed (trimmed : Trimmed p) (nonempty : p ≠ []) :
    components p = element p :: components (afterElement p) := by
  have word : ∀ x ∈ element p, (x == slash) = false := by
    intro x member
    have other := List.mem_takeWhile_imp member
    simpa using other
  have first : element p ≠ [] := by
    cases p with
    | nil => exact absurd rfl nonempty
    | cons b p => simp [element, trimmed.head]
  have parts : p = element p ++ p.dropWhile (· ≠ slash) := (List.takeWhile_append_dropWhile).symm
  rw [afterElement, components_skipSlash]
  cases rest : p.dropWhile (· ≠ slash) with
  | nil =>
    rw [rest, List.append_nil] at parts
    have single := List.splitOnP_eq_singleton word
    conv_lhs => rw [parts]
    simp only [components, List.splitOn]
    rw [show (0x2F : Byte) = slash from rfl, single]
    simp [first]
  | cons c rest' =>
    have sep : c = slash := by
      have stops := List.head?_dropWhile_not (fun x => decide (x ≠ slash)) p
      rw [rest] at stops
      simpa using stops
    subst sep
    rw [rest] at parts
    have split := List.splitOnP_append_cons_of_forall_mem word slash (by simp) rest'
    conv_lhs => rw [parts]
    rw [components_slash]
    simp only [components, List.splitOn]
    rw [show (0x2F : Byte) = slash from rfl, split]
    simp [first]

theorem components_eq_nil (trimmed : Trimmed p) : components p = [] ↔ p = [] := by
  constructor
  · intro none
    by_contra more
    rw [components_trimmed trimmed more] at none
    cases none
  · rintro rfl
    rfl

end Scanning

structure WalkResult where
  result : Except Errno FilePtr
  pdir : Option FilePtr
  lastelem : Option (List Byte)

namespace FsM

def walkLoop (dir : Option FilePtr) (f : FilePtr) (path : List Byte) : FsM WalkResult :=
  if _ended : path = [] then pure ⟨.ok f, dir, none⟩
  else
    let name := element path
    let rest := afterElement path
    if maxnamelen ≤ name.length then pure ⟨.error .badPath, none, none⟩
    else do
      if (← load f.block f.fType) ≠ ftypeDir then pure ⟨.error .notFound, none, none⟩
      else
        match ← dirLookup f name with
        | .error e =>
          pure (if e = .notFound ∧ rest = [] then ⟨.error e, some f, some name⟩
            else ⟨.error e, none, none⟩)
        | .ok f' => walkLoop (some f) f' rest
termination_by path.length
decreasing_by exact afterElement_length ‹_›

def walkChars (path : List Byte) : FsM WalkResult := walkLoop none .root (skipSlash path)

end FsM

namespace Image

variable {m : Image} {d f : FilePtr} {hits : Block → Nat → Bool} {n k : Nat} {name : List Byte}

def blockEntries (m : Image) (d : FilePtr) (n : Nat) : List FilePtr :=
  match Cell.ofBlock n with
  | some c => if m.cell d c = 0 then [] else (List.range 16).map (.entry (m.cell d c))
  | none => []

def entries (m : Image) (d : FilePtr) : List FilePtr :=
  (List.range (m.dirBlocks d)).flatMap (m.blockEntries d)

def lookup (m : Image) (d : FilePtr) (name : List Byte) : Option FilePtr :=
  (m.entries d).find? fun f => strEq (m f.block) f.fName name

def resolve (m : Image) (dir : Option FilePtr) (f : FilePtr) : List (List Byte) → WalkResult
  | [] => ⟨.ok f, dir, none⟩
  | name :: rest =>
    if maxnamelen ≤ name.length then ⟨.error .badPath, none, none⟩
    else if m.type f ≠ ftypeDir then ⟨.error .notFound, none, none⟩
    else
      match m.lookup f name with
      | some f' => resolve m (some f) f' rest
      | none =>
        if rest = [] then ⟨.error .notFound, some f, some name⟩ else ⟨.error .notFound, none, none⟩

def Whole (m : Image) : Prop :=
  ∀ d, m.Slot d → m.type d = ftypeDir → ∀ n < m.dirBlocks d, ∃ c, Cell.ofBlock n = some c ∧ m.cell d c ≠ 0

theorem find_passed (passed : m.Passed d hits n) :
    (m.blockEntries d n).find? (fun f => hits (m f.block) f.fName) = none := by
  obtain ⟨c, place, linked, misses⟩ := passed
  rw [blockEntries, place, List.find?_eq_none]
  dsimp only
  rw [if_neg linked]
  intro f member
  obtain ⟨j, small, rfl⟩ := List.mem_map.mp member
  rw [FilePtr.fName_entry, FilePtr.block_entry, misses j (List.mem_range.mp small)]
  exact Bool.false_ne_true

theorem find_first (first : m.First d hits n f) :
    (m.blockEntries d n).find? (fun f => hits (m f.block) f.fName) = some f := by
  obtain ⟨c, j, place, linked, small, rfl, hit, misses⟩ := first.here
  rw [blockEntries, place]
  dsimp only
  rw [if_neg linked, List.find?_map]
  have found : (List.range 16).find? ((fun f : FilePtr => hits (m f.block) f.fName) ∘
    FilePtr.entry (m.cell d c)) = some j := by
    rw [List.find?_range_eq_some]
    simp only [Function.comp_apply, FilePtr.fName_entry, FilePtr.block_entry]
    exact ⟨hit, List.mem_range.mpr small, fun j' low => by simp [misses j' low]⟩
  rw [found]
  rfl

theorem find_passed_all (passed : ∀ n < k, m.Passed d hits n) :
    ((List.range k).flatMap (m.blockEntries d)).find? (fun f => hits (m f.block) f.fName) = none := by
  induction k with
  | zero => rfl
  | succ k ih =>
    rw [List.range_succ, List.flatMap_append, List.find?_append,
      ih fun n low => passed n (by omega), List.flatMap_singleton,
      find_passed (passed k (by omega))]
    rfl

theorem find_first_of (inside : n < k) (first : m.First d hits n f) :
    ((List.range k).flatMap (m.blockEntries d)).find? (fun f => hits (m f.block) f.fName) = some f := by
  induction k with
  | zero => omega
  | succ k ih =>
    rw [List.range_succ, List.flatMap_append, List.find?_append, List.flatMap_singleton]
    rcases Nat.lt_succ_iff_lt_or_eq.mp inside with earlier | rfl
    · rw [ih earlier, Option.some_or]
    · rw [find_passed_all first.before, Option.none_or, find_first first]

theorem first_or_passed (there : ∀ n < k, ∃ c, Cell.ofBlock n = some c ∧ m.cell d c ≠ 0)
    (hits : Block → Nat → Bool) : (∃ n < k, ∃ f, m.First d hits n f) ∨
    ∀ n < k, m.Passed d hits n := by
  induction k with
  | zero => exact .inr fun n low => absurd low (Nat.not_lt_zero n)
  | succ k ih =>
    rcases ih fun n low => there n (by omega) with ⟨n, low, f, first⟩ | passed
    · exact .inl ⟨n, by omega, f, first⟩
    · obtain ⟨c, place, linked⟩ := there k (by omega)
      cases hit : (List.range 16).find? fun j => hits (m (m.cell d c)) (256 * j) with
      | none =>
        rw [List.find?_range_eq_none] at hit
        refine .inr fun n low => ?_
        rcases Nat.lt_succ_iff_lt_or_eq.mp low with earlier | rfl
        · exact passed n earlier
        · exact ⟨c, place, linked, fun j small => by simpa using hit j small⟩
      | some j =>
        obtain ⟨here, inside, before⟩ := List.find?_range_eq_some.mp hit
        exact .inl ⟨k, by omega, _, passed, c, j, place, linked, List.mem_range.mp inside, rfl, here,
          fun j' low => by simpa using before j' low⟩

end Image

namespace FsM

variable {v : Volume} {stale : Set FilePtr} {tidy : Prop} {d f : FilePtr} {n : Nat}

theorem dirLookup_whole (inv : v.mem.Inv stale) (trim : v.mem.Trim tidy) (whole : v.mem.Whole)
    (slot : v.mem.Slot d) (kind : v.mem.type d = ftypeDir) (name : List Byte) :
    Does (dirLookup d name) v ((v.mem.lookup d name).elim (.error .notFound) .ok) v ∧
      ∀ f, v.mem.lookup d name = some f → v.mem.Slot f := by
  rcases Image.first_or_passed (whole d slot kind) (strEq · · name) with ⟨n, inside, f, first⟩ | passed
  · have found : v.mem.lookup d name = some f := Image.find_first_of inside first
    rw [found]
    refine ⟨dirLookup_first inv slot kind trim inside first, fun f' same => ?_⟩
    cases same
    exact first.slot slot kind
  · have absent : v.mem.lookup d name = none := Image.find_passed_all passed
    rw [absent]
    exact ⟨dirLookup_passed inv slot kind trim passed, nofun⟩

theorem walkLoop_whole (inv : v.mem.Inv stale) (trim : v.mem.Trim tidy) (whole : v.mem.Whole)
    (dir : Option FilePtr) (slot : v.mem.Slot f) {path : List Byte} (trimmed : Trimmed path) :
    Does (walkLoop dir f path) v (v.mem.resolve dir f (components path)) v := by
  induction len : path.length using Nat.strong_induction_on generalizing dir f path with
  | _ len ih =>
    subst len
    unfold walkLoop
    by_cases ended : path = []
    · subst ended
      exact .pure _ _
    · rw [dif_neg ended, components_trimmed trimmed ended]
      have shorter := afterElement_length ended
      have trimmed' : Trimmed (afterElement path) := trimmed_skipSlash _
      have last : components (afterElement path) = [] ↔ afterElement path = [] :=
        components_eq_nil trimmed'
      dsimp only
      unfold Image.resolve
      by_cases long : maxnamelen ≤ (element path).length
      · rw [if_pos long, if_pos long]
        exact .pure _ _
      rw [if_neg long, if_neg long]
      have loaded : Does (load f.block f.fType) v (v.mem.type f) v :=
        load_does inv.small (slot.valid inv) _
      refine .bind loaded ?_
      by_cases kind : v.mem.type f = ftypeDir
      · rw [if_neg (by simpa using kind), if_neg (by simpa using kind)]
        obtain ⟨looked, there⟩ := dirLookup_whole inv trim whole slot kind (element path)
        cases found : v.mem.lookup f (element path) with
        | some f' =>
          rw [found] at looked
          exact .bind looked (ih _ shorter (some f) (there f' found) trimmed' rfl)
        | none =>
          rw [found] at looked
          refine .bind looked ?_
          simp only [Option.elim_none, last, true_and]
          exact .pure _ _
      · rw [if_pos kind, if_pos kind]
        exact .pure _ _

theorem walkChars_whole (inv : v.mem.Inv stale) (trim : v.mem.Trim tidy) (whole : v.mem.Whole)
    (path : List Byte) :
    Does (walkChars path) v (v.mem.resolve none .root (components path)) v := by
  have walked := walkLoop_whole inv trim whole none (.root (m := v.mem)) (trimmed_skipSlash path)
  rwa [components_skipSlash] at walked

def walked (out : WalkResult) : Walked :=
  match out.result with
  | .ok f => .found f
  | .error e => .failed e (out.pdir.bind fun d => out.lastelem.map fun name => (d, name))

theorem walkLoop_walked (dir : Option FilePtr) (f : FilePtr) {path : List Byte} (trimmed : Trimmed path) :
    walked <$> walkLoop dir f path = walkFrom f (components path) := by
  induction len : path.length using Nat.strong_induction_on generalizing dir f path with
  | _ len ih =>
    subst len
    unfold walkLoop
    by_cases ended : path = []
    · subst ended
      rfl
    · rw [dif_neg ended, components_trimmed trimmed ended]
      have trimmed' : Trimmed (afterElement path) := trimmed_skipSlash _
      have last : components (afterElement path) = [] ↔ afterElement path = [] :=
        components_eq_nil trimmed'
      dsimp only
      unfold walkFrom
      by_cases long : maxnamelen ≤ (element path).length
      · rw [if_pos long, if_pos long]
        rfl
      rw [if_neg long, if_neg long, map_bind]
      congr
      funext type
      by_cases kind : type ≠ ftypeDir
      · rw [if_pos kind, if_pos kind]
        rfl
      rw [if_neg kind, if_neg kind, map_bind]
      congr
      funext found
      cases found with
      | ok f' => exact ih _ (afterElement_length ended) (some f) f' trimmed' rfl
      | error e =>
        simp only [last, map_pure]
        split <;> rfl

theorem walkChars_walked (path : List Byte) : walked <$> walkChars path = walkPath path := by
  rw [walkChars, walkLoop_walked none .root (trimmed_skipSlash path), components_skipSlash, walkPath]

end FsM

namespace Image

variable {m : Image} {dir : Option FilePtr} {d f g : FilePtr} {name : List Byte}
    {names init rest : List (List Byte)}

inductive Stops (m : Image) (d : FilePtr) (name : List Byte) : Errno → Prop
  | long (long : maxnamelen ≤ name.length) : Stops m d name .badPath
  | file (short : name.length < maxnamelen) (kind : m.type d ≠ ftypeDir) : Stops m d name .notFound
  | absent (short : name.length < maxnamelen) (kind : m.type d = ftypeDir)
    (absent : m.lookup d name = none) :
      Stops m d name .notFound

structure Missing (m : Image) (names init : List (List Byte)) (name : List Byte) (d : FilePtr) :
    Prop where
  last : names = init ++ [name]
  reached : (m.resolve none .root init).result = .ok d
  kind : m.type d = ftypeDir
  absent : m.lookup d name = none
  short : name.length < maxnamelen

theorem resolve_onward (dir : Option FilePtr) (rest : List (List Byte)) (short : name.length < maxnamelen)
    (kind : m.type d = ftypeDir) (found : m.lookup d name = some f) :
    m.resolve dir d (name :: rest) = m.resolve (some d) f rest := by
  conv_lhs => unfold resolve
  rw [if_neg (Nat.not_le.mpr short), if_neg (by simpa using kind), found]

theorem next_or_stops (m : Image) (f : FilePtr) (name : List Byte) :
    (∃ f', m.type f = ftypeDir ∧ m.lookup f name = some f' ∧
      ∀ dir rest, m.resolve dir f (name :: rest) = m.resolve (some f) f' rest) ∨
      ∃ e, m.Stops f name e := by
  by_cases long : maxnamelen ≤ name.length
  · exact .inr ⟨_, .long long⟩
  · have short : name.length < maxnamelen := by omega
    by_cases kind : m.type f = ftypeDir
    · cases found : m.lookup f name with
      | none => exact .inr ⟨_, .absent short kind found⟩
      | some f' => exact .inl ⟨f', kind, rfl, fun dir rest => resolve_onward dir rest short kind found⟩
    · exact .inr ⟨_, .file short kind⟩

theorem resolve_stops {e : Errno} (dir : Option FilePtr) (stops : m.Stops d name e)
    (rest : List (List Byte)) : (m.resolve dir d (name :: rest)).result = .error e ∧
    ((m.resolve dir d (name :: rest)).pdir = if rest = [] ∧ m.type d = ftypeDir ∧
    e = .notFound then some d else none) ∧ (m.resolve dir d (name :: rest)).lastelem = if rest =
    [] ∧ m.type d = ftypeDir ∧ e = .notFound then some name else none := by
  unfold resolve
  cases stops with
  | long long => simp [long]
  | file short kind => simp [Nat.not_le.mpr short, kind]
  | absent short kind absent =>
    rw [if_neg (Nat.not_le.mpr short), if_neg (by simpa using kind), absent]
    by_cases last : rest = [] <;> simp [last, kind]

theorem resolve_append (dir : Option FilePtr) (f : FilePtr) (rest : List (List Byte))
    (reached : (m.resolve dir f init).result = .ok d) :
    m.resolve dir f (init ++ rest) = m.resolve (m.resolve dir f init).pdir d rest := by
  induction init generalizing dir f with
  | nil =>
    cases reached
    rfl
  | cons name init ih =>
    rcases next_or_stops m f name with ⟨f', -, -, onward⟩ | ⟨e, stops⟩
    · rw [onward] at reached ⊢
      rw [List.cons_append, onward]
      exact ih (some f) f' reached
    · rw [(resolve_stops dir stops init).1] at reached
      cases reached

theorem resolve_cases (dir : Option FilePtr) (f : FilePtr) (names : List (List Byte)) :
    (∃ g, (m.resolve dir f names).result = .ok g) ∨
    ∃ init name rest d e, names = init ++ name :: rest ∧ (m.resolve dir f init).result = .ok d ∧
    m.Stops d name e := by
  induction names generalizing dir f with
  | nil => exact .inl ⟨f, rfl⟩
  | cons name rest ih =>
    rcases next_or_stops m f name with ⟨f', -, -, onward⟩ | ⟨e, stops⟩
    · rw [onward]
      rcases ih (some f) f' with found | ⟨init, name', rest', d, e, parts, reached, stops⟩
      · exact .inl found
      · exact .inr ⟨name :: init, name', rest', d,
          e, by rw [parts]; rfl, by rw [onward]; exact reached, stops⟩
    · exact .inr ⟨[], name, rest, f, e, rfl, rfl, stops⟩

theorem resolve_stuck {e : Errno} (parts : names = init ++ name :: rest)
    (reached : (m.resolve none .root init).result = .ok d) (stops : m.Stops d name e) :
    (m.resolve none .root names).result = .error e ∧
    ((m.resolve none .root names).pdir = if rest = [] ∧ m.type d = ftypeDir ∧
    e = .notFound then some d else none) ∧ (m.resolve none .root names).lastelem = if rest = [] ∧
    m.type d = ftypeDir ∧ e = .notFound then some name else none := by
  rw [parts, resolve_append none .root (name :: rest) reached]
  exact resolve_stops _ stops rest

theorem resolve_error {e : Errno} (failed : (m.resolve none .root names).result = .error e) :
    ∃ init name rest d, names = init ++ name :: rest ∧ (m.resolve none .root init).result = .ok d ∧
    m.Stops d name e := by
  rcases resolve_cases none .root names with ⟨g, found⟩ | ⟨init, name, rest, d, e', parts, reached, stops⟩
  · rw [found] at failed
    cases failed
  · have stuck := (resolve_stuck parts reached stops).1
    cases stuck.symm.trans failed
    exact ⟨init, name, rest, d, parts, reached, stops⟩

theorem resolve_found (last : names = init ++ [name])
    (found : (m.resolve none .root names).result = .ok f) :
    ∃ d, (m.resolve none .root init).result = .ok d ∧
    (m.type d = ftypeDir ∧ m.lookup d name = some f) ∧
      (m.resolve none .root names).pdir = some d := by
  rcases resolve_cases none .root init with
    ⟨d, reached⟩ | ⟨init', name', rest', d, e, parts, reached, stops⟩
  · rw [last, resolve_append none .root [name] reached] at found ⊢
    rcases next_or_stops m d name with ⟨f', kind, there, onward⟩ | ⟨e, stops⟩
    · rw [onward] at found ⊢
      cases found
      exact ⟨d, reached, ⟨kind, there⟩, rfl⟩
    · rw [(resolve_stops _ stops []).1] at found
      cases found
  · have whole : names = init' ++ name' :: (rest' ++ [name]) := by
      rw [last, parts, List.append_assoc, List.cons_append]
    rw [(resolve_stuck whole reached stops).1] at found
    cases found

theorem Missing.resolve {init : List (List Byte)} (missing : m.Missing names init name d) :
    m.resolve none .root names = ⟨.error .notFound, some d, some name⟩ := by
  have stops : m.Stops d name .notFound := .absent missing.short missing.kind missing.absent
  obtain ⟨result, pdir, lastelem⟩ := resolve_stuck missing.last missing.reached stops
  rw [if_pos ⟨rfl, missing.kind, rfl⟩] at pdir lastelem
  cases out : m.resolve none .root names
  rw [out] at result pdir lastelem
  cases result
  cases pdir
  cases lastelem
  rfl

theorem resolve_pdir {e : Errno} (failed : (m.resolve none .root names).result = .error e) :
    (m.resolve none .root names).pdir ≠ none ↔ ∃ init name d, m.Missing names init name d := by
  constructor
  · intro set
    obtain ⟨init, name, rest, d, parts, reached, stops⟩ := resolve_error failed
    rw [(resolve_stuck parts reached stops).2.1] at set
    obtain ⟨rfl, kind, rfl⟩ : rest = [] ∧ m.type d = ftypeDir ∧ e = .notFound := by
      by_contra other
      exact set (if_neg other)
    cases stops with
    | file _ other => exact absurd kind other
    | absent short _ absent => exact ⟨init, name, d, parts, reached, kind, absent, short⟩
  · rintro ⟨init, name, d, missing⟩
    rw [missing.resolve]
    simp

end Image

end Jos.Fs
