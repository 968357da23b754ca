import Jos.Kern.Mmu

namespace Jos.Kern

structure Stab where
  nStrx : Word
  nType : Byte
  nDesc : BitVec 16
  nValue : Word
  deriving DecidableEq

abbrev Stabs := Int → Stab

structure Search where
  l : Int
  r : Int
  regionLeft : Int
  regionRight : Int
  anyMatches : Bool
  addr : Word
  reads : List Int
  deriving DecidableEq

section Search

variable (stabs : Stabs) (type : Byte)

def back (stop : Stab → Bool) : Nat → Int → Int × List Int
  | 0, m => (m, [])
  | k + 1, m =>
    if stop (stabs m) then (m, [m]) else ((back stop k (m - 1)).1, m :: (back stop k (m - 1)).2)

def Search.round (s : Search) : Search :=
  let trueM := (s.l + s.r).tdiv 2
  let m := back stabs (·.nType = type) (trueM - s.l + 1).toNat trueM
  let s := { s with reads := s.reads ++ m.2 }
  if m.1 < s.l then { s with l := trueM + 1 }
  else
    let s := { s with anyMatches := true }
    if (stabs m.1).nValue < s.addr then { s with regionLeft := m.1, l := trueM + 1 }
    else if s.addr < (stabs m.1).nValue then { s with regionRight := m.1 - 1, r := m.1 - 1 }
    else { s with regionLeft := m.1, l := m.1, addr := s.addr + 1 }

def Search.rounds : Nat → Search → Option Search
  | 0, s => if s.l ≤ s.r then none else some s
  | k + 1, s => if s.l ≤ s.r then rounds k (s.round stabs type) else some s

def Search.finish (s : Search) : Search :=
  if s.anyMatches then
    let l := back stabs (·.nType = type) (s.regionRight - s.regionLeft).toNat s.regionRight
    { s with regionLeft := l.1, reads := s.reads ++ l.2 }
  else { s with regionRight := s.regionLeft - 1 }

def Search.begin (addr : Word) (left right : Int) : Search := ⟨left, right, left, right, false, addr, []⟩

def stabBinsearch (addr : Word) (left right : Int) : Option Search :=
  (Search.rounds stabs type (2 * (right - left + 1)).toNat (.begin addr left right)).map
    (Search.finish stabs type)

end Search

variable {stabs : Stabs} {type : Byte} {s t : Search}

theorem back_spec (stop : Stab → Bool) (k : Nat) (m : Int) :
    (m - k ≤ (back stabs stop k m).1 ∧ (back stabs stop k m).1 ≤ m) ∧
    (m - k < (back stabs stop k m).1 → stop (stabs (back stabs stop k m).1)) ∧
    (∀ j, (back stabs stop k m).1 < j → j ≤ m → ¬ stop (stabs j)) ∧
    ∀ i ∈ (back stabs stop k m).2, m - k < i ∧ i ≤ m := by
  induction k generalizing m with
  | zero => grind [back]
  | succ k ih =>
    obtain ⟨range, found, past, reads⟩ := ih (m - 1)
    unfold back
    split
    · grind
    · refine ⟨by grind, by grind, fun j => ?_, ?_⟩
      · have here := past j
        grind
      · grind

namespace Search

def after (addr : Word) : Word := addr + 1

theorem after_toNat (addr : Word) : (after addr).toNat = (addr.toNat + 1) % 2 ^ 32 := BitVec.toNat_add ..

theorem after_ne (addr : Word) : after addr ≠ addr := by simp [after]

structure Probe (stabs : Stabs) (type : Byte) (l mid m : Int) : Prop where
  low : l ≤ m
  high : m ≤ mid
  found : (stabs m).nType = type
  last : ∀ j, m < j → j ≤ mid → (stabs j).nType ≠ type

theorem round_cases (low : 0 ≤ s.l) (more : s.l ≤ s.r) :
    ∃ mid reads, mid = (s.l + s.r) / 2 ∧ (∀ i ∈ reads, s.l ≤ i ∧ i ≤ mid) ∧
      ((∀ j, s.l ≤ j → j ≤ mid → (stabs j).nType ≠ type) ∧
          s.round stabs type = { s with l := mid + 1, reads := s.reads ++ reads } ∨
        ∃ m, Probe stabs type s.l mid m ∧
          ((stabs m).nValue.toNat < s.addr.toNat ∧ s.round stabs type =
              { s with regionLeft := m, l := mid + 1, anyMatches := true, reads := s.reads ++ reads } ∨
            s.addr.toNat < (stabs m).nValue.toNat ∧ s.round stabs type =
              { s with regionRight := m - 1, r := m - 1, anyMatches := true, reads := s.reads ++ reads } ∨
            (stabs m).nValue = s.addr ∧ s.round stabs type =
              { s with regionLeft := m, l := m, anyMatches := true, addr := after s.addr,
                       reads := s.reads ++ reads })) := by
  have middle : (s.l + s.r).tdiv 2 = (s.l + s.r) / 2 := Int.tdiv_eq_ediv_of_nonneg (by omega)
  have number : (((s.l + s.r) / 2 - s.l + 1).toNat : Int) = (s.l + s.r) / 2 - s.l + 1 :=
    Int.toNat_of_nonneg (by omega)
  have spec := @back_spec stabs (·.nType = type) ((s.l + s.r) / 2 - s.l + 1).toNat ((s.l + s.r) / 2)
  unfold round
  simp only [middle]
  simp only [decide_eq_true_eq] at spec
  generalize back stabs _ _ _ = probe at spec ⊢
  obtain ⟨m, reads⟩ := probe
  obtain ⟨range, found, past, inside⟩ := spec
  refine ⟨_, reads, rfl, fun i member => by grind, ?_⟩
  by_cases none : m < s.l
  · exact .inl ⟨fun j above => past j (by omega), by simp [none]⟩
  · refine .inr ⟨m, ⟨by omega, range.2, found (by simp only; omega), past⟩, ?_⟩
    simp only [none, if_false, BitVec.lt_def]
    by_cases less : (stabs m).nValue.toNat < s.addr.toNat
    · exact .inl ⟨less, by simp [less]⟩
    · by_cases greater : s.addr.toNat < (stabs m).nValue.toNat
      · exact .inr (.inl ⟨greater, by simp [less, greater]⟩)
      · exact .inr (.inr ⟨BitVec.eq_of_toNat_eq (by omega), by simp [less, greater, after]⟩)

theorem Probe.unique {l mid m other : Int} (one : Probe stabs type l mid m)
    (two : Probe stabs type l mid other) : m = other := by
  have first := one.last other
  have second := two.last m
  grind [Probe]

theorem rounds_over (done : s.r < s.l) (k : Nat) : s.rounds stabs type k = some s := by
  cases k <;> simp [rounds, not_le.2 done]

theorem rounds_total (width : Nat) (low : 0 ≤ s.l) (small : s.r - s.l < width) (k : Nat)
    (enough : 2 * width ≤ k) : ∃ t, s.rounds stabs type k = some t := by
  induction width generalizing s k with
  | zero => exact ⟨s, rounds_over (by omega) k⟩
  | succ width ih =>
    obtain ⟨k, rfl⟩ : ∃ n, k = n + 2 := ⟨k - 2, by omega⟩
    by_cases more : s.l ≤ s.r
    · rw [rounds, if_pos more]
      obtain ⟨mid, reads, middle, -, ⟨-, result⟩ |
        ⟨m, probe, ⟨-, result⟩ | ⟨-, result⟩ | ⟨exact_, result⟩⟩⟩ :=
        @round_cases stabs type s low more
      · exact ih (by grind) (by grind) _ (by omega)
      · exact ih (by grind) (by grind) _ (by omega)
      · exact ih (by grind) (by grind [Probe]) _ (by omega)
      · by_cases same : m = s.l
        · generalize s.round stabs type = again at result ⊢
          rw [rounds, if_pos (by grind)]
          obtain ⟨_, _, middle', -, ⟨-, next⟩ | ⟨other, probe', ⟨-, next⟩ | ⟨-, next⟩ | ⟨twice, next⟩⟩⟩ :=
            @round_cases stabs type again (by grind) (by grind)
          · exact ih (by grind) (by grind) _ (by omega)
          · exact ih (by grind) (by grind) _ (by omega)
          · exact ih (by grind) (by grind [Probe]) _ (by omega)
          · have equal : other = m := by grind [Probe.unique]
            grind [after_ne]
        · exact ih (by grind [Probe]) (by grind [Probe]) _ (by omega)
    · exact ⟨s, rounds_over (by omega) _⟩

theorem rounds_invariant (P : Search → Prop)
    (keep : ∀ s : Search, P s → s.l ≤ s.r → P (s.round stabs type)) {k : Nat}
    (ran : s.rounds stabs type k = some t) (start : P s) : P t ∧ t.r < t.l := by
  induction k generalizing s with
  | zero => grind [rounds]
  | succ k ih => grind [rounds]

def Increasing (stabs : Stabs) (type : Byte) (left right : Int) : Prop :=
  ∀ i j, left ≤ i → i < j → j ≤ right → (stabs i).nType = type → (stabs j).nType = type →
    (stabs i).nValue.toNat < (stabs j).nValue.toNat

structure Next (stabs : Stabs) (type : Byte) (right p q : Int) : Prop where
  after : p < q
  inside : q ≤ right + 1
  found : q ≤ right → (stabs q).nType = type
  none : ∀ j, p < j → j < q → (stabs j).nType ≠ type

inductive Sooner (stabs : Stabs) (type : Byte) (p q : Int) : Int → Int → Prop
  | here {l r : Int} : Probe stabs type l ((l + r) / 2) q → Sooner stabs type p q l r
  | down {l r m : Int} :
      Probe stabs type l ((l + r) / 2) m → q < m → Sooner stabs type p q l (m - 1) →
      Sooner stabs type p q l r
  | up {l r : Int} :
      (∀ m, Probe stabs type l ((l + r) / 2) m → m < p) → Sooner stabs type p q ((l + r) / 2 + 1) r →
      Sooner stabs type p q l r

structure Sought (stabs : Stabs) (type : Byte) (left right : Int) (s : Search) : Prop where
  low : left ≤ s.l
  high : s.r ≤ right
  near : s.l ≤ s.r + 1
  less : ∀ j, left ≤ j → j < s.l → (stabs j).nType = type → (stabs j).nValue.toNat < s.addr.toNat
  region : s.regionRight = s.r
  more : s.r = right ∨ (stabs (s.r + 1)).nType = type ∧ s.addr.toNat ≤ (stabs (s.r + 1)).nValue.toNat
  last : left ≤ s.regionLeft ∧ s.regionLeft ≤ s.r ∧ (stabs s.regionLeft).nType = type ∧
    s.anyMatches = true ∧
      (stabs s.regionLeft).nValue.toNat < s.addr.toNat ∧
        (∀ j, s.regionLeft < j → j < s.l → (stabs j).nType ≠ type) ∨
    s.regionLeft = left ∧ ∀ j, left ≤ j → j < s.l → (stabs j).nType ≠ type

def Clear (stabs : Stabs) (type : Byte) (s : Search) : Prop :=
  ∀ j, s.l ≤ j → j ≤ s.r → (stabs j).nType = type → (stabs j).nValue ≠ s.addr

theorem finish_left (any : t.anyMatches = true) (order : t.regionLeft ≤ t.regionRight) :
    t.regionLeft ≤ (t.finish stabs type).regionLeft ∧ ((∀ j, t.regionLeft < j → j ≤ t.regionRight →
      (stabs j).nType ≠ type) → (t.finish stabs type).regionLeft = t.regionLeft) := by
  have spec := @back_spec stabs (·.nType = type) (t.regionRight - t.regionLeft).toNat t.regionRight
  simp only [decide_eq_true_eq] at spec
  simp only [finish, any, if_true]
  grind

theorem round_exact (low : 0 ≤ s.l) (more : s.l ≤ s.r) {x : Int}
    (probe : Probe stabs type s.l ((s.l + s.r) / 2) x) (value : (stabs x).nValue = s.addr) :
    ∃ reads, s.round stabs type =
    { s with regionLeft := x, l := x, anyMatches := true, addr := after s.addr, reads := reads }
    := by
  obtain ⟨mid, reads, rfl, -, ⟨none, -⟩ | ⟨m, found, ⟨small, -⟩ | ⟨large, -⟩ | ⟨-, result⟩⟩⟩ :=
    @round_cases stabs type s low more
  · exact absurd probe.found (none x probe.low probe.high)
  · cases probe.unique found
    simp [value] at small
  · cases probe.unique found
    simp [value] at large
  · cases probe.unique found
    exact ⟨_, result⟩

theorem wrap (low : 0 ≤ s.l) (more : s.l ≤ s.r) {x : Int}
    (probe : Probe stabs type s.l ((s.l + s.r) / 2) x) (value : (stabs x).nValue = s.addr)
    (full : s.addr.toNat + 1 = 2 ^ 32) (last : ∀ j, x < j → j ≤ s.r → (stabs j).nType ≠ type)
    {k : Nat} (ran : (s.round stabs type).rounds stabs type k = some t) :
    (t.finish stabs type).regionLeft = x - 1 ∧ (t.finish stabs type).regionRight = x - 1 := by
  obtain ⟨reads, result⟩ := @round_exact stabs type s low more x probe value
  have zero := after_toNat s.addr
  generalize s.round stabs type = again at result ran
  have range : again.l = x ∧ again.r = s.r ∧ x ≤ s.r := by grind [Probe]
  cases k with
  | zero => grind [rounds]
  | succ k =>
    rw [rounds, if_pos (by omega)] at ran
    obtain ⟨mid, _, rfl, -, ⟨none, -⟩ | ⟨m, found, compare⟩⟩ :=
      @round_cases stabs type again (by grind [Probe]) (by omega)
    · exact absurd probe.found (none x (by omega) (by omega))
    · have here : m = x := by
        have past := last m
        grind [Probe]
      obtain ⟨small, -⟩ | ⟨-, next⟩ | ⟨same, -⟩ := compare
      · grind
      · rw [rounds_over (by grind)] at ran
        cases ran
        rw [next]
        simp [finish, result, here, back]
      · grind

theorem sooner_probe {p q l r m : Int} (probe : Probe stabs type l ((l + r) / 2) m) :
    Sooner stabs type p q l r ↔ m = q ∨ q < m ∧ Sooner stabs type p q l (m - 1) ∨
      m < p ∧ Sooner stabs type p q ((l + r) / 2 + 1) r := by
  constructor
  · intro sooner
    cases sooner with
    | here here => exact .inl (probe.unique here)
    | down found far rest => cases probe.unique found; exact .inr (.inl ⟨far, rest⟩)
    | up before rest => exact .inr (.inr ⟨before m probe, rest⟩)
  · rintro (rfl | ⟨far, rest⟩ | ⟨before, rest⟩)
    · exact .here probe
    · exact .down probe far rest
    · exact .up (fun other found => found.unique probe ▸ before) rest

theorem sooner_none {p q l r : Int} (none : ∀ j, l ≤ j → j ≤ (l + r) / 2 → (stabs j).nType ≠ type) :
    Sooner stabs type p q l r ↔ Sooner stabs type p q ((l + r) / 2 + 1) r := by
  have probeless : ∀ m, ¬ Probe stabs type l ((l + r) / 2) m :=
    fun m probe => none m probe.low probe.high probe.found
  refine ⟨fun sooner => ?_, fun rest => .up (fun m probe => absurd probe (probeless m)) rest⟩
  cases sooner with
  | here probe | down probe => exact absurd probe (probeless _)
  | up _ rest => exact rest

section Sorted

variable {left right : Int} (sorted : Increasing stabs type left right)

include sorted

theorem Sought.finish (inv : Sought stabs type left right t)
    (ended : t.l = t.r + 1) {p q : Int} (found : (stabs p).nType = type) (range : left ≤ p)
    (below : (stabs p).nValue.toNat < t.addr.toNat) (next : Next stabs type right p q)
    (above : q ≤ right → t.addr.toNat ≤ (stabs q).nValue.toNat) :
    (t.finish stabs type).regionLeft = p ∧ (t.finish stabs type).regionRight = q - 1 := by
  obtain ⟨low, high, near, less, region, edge, last⟩ := inv
  obtain ⟨after, inside, isNext, none⟩ := next
  have ahead : p ≤ t.r := by
    have order := sorted (t.r + 1) p
    grind
  obtain ⟨first, within, typed, any, value, gap⟩ | ⟨-, untyped⟩ := last
  · have notBefore : p ≤ t.regionLeft := by grind
    have notAfter : ¬ p < t.regionLeft := by
      intro beyond
      have order := sorted q t.regionLeft
      grind
    have here : t.regionLeft = p := by omega
    have upTo : t.r = q - 1 := by grind
    obtain ⟨-, same⟩ := @finish_left stabs type t any (by omega)
    exact ⟨(same (by grind)).trans here, by simp [Search.finish, any, region, upTo]⟩
  · exact absurd found (untyped p range (by omega))

theorem Sought.reaches (inv : Sought stabs type left right t)
    (ended : t.l = t.r + 1) {x : Int} (found : (stabs x).nType = type) (above : left ≤ x)
    (within : x ≤ right) (below : (stabs x).nValue.toNat < t.addr.toNat) :
    x ≤ (t.finish stabs type).regionLeft := by
  obtain ⟨low, -, -, -, region, edge, last⟩ := inv
  have inside : x ≤ t.r := by
    have order := sorted (t.r + 1) x
    grind
  obtain ⟨-, order, -, any, -, gap⟩ | ⟨-, untyped⟩ := last
  · have far := (@finish_left stabs type t any (by omega)).1
    grind
  · exact absurd found (untyped x above (by omega))

variable (nonneg : 0 ≤ left)

include nonneg

theorem Sought.round (inv : Sought stabs type left right s) (more : s.l ≤ s.r)
    (differ : ∀ m, Probe stabs type s.l ((s.l + s.r) / 2) m → (stabs m).nValue ≠ s.addr) :
    Sought stabs type left right (s.round stabs type) ∧ (s.round stabs type).addr = s.addr ∧
      s.l ≤ (s.round stabs type).l ∧ (s.round stabs type).r ≤ s.r := by
  obtain ⟨low, high, near, less, region, edge, last⟩ := inv
  obtain ⟨mid, reads, middle, -, ⟨none, result⟩ |
    ⟨m, probe, ⟨small, result⟩ | ⟨large, result⟩ | ⟨same, -⟩⟩⟩ :=
    @round_cases stabs type s (by omega) more
  · have gap : ∀ j, left ≤ j → j < mid + 1 → (stabs j).nType = type → j < s.l := by grind
    rw [result]
    exact ⟨⟨by grind, high, by grind,
      fun j above below found => less j above (gap j above below found) found,
      region, edge, by grind⟩, rfl, by grind, le_rfl⟩
  · have upTo : ∀ j, left ≤ j → j < mid + 1 → (stabs j).nType = type → j ≤ m := by grind [Probe]
    have atMost : ∀ j, left ≤ j → j < mid + 1 → (stabs j).nType = type →
        (stabs j).nValue.toNat ≤ (stabs m).nValue.toNat := by
      intro j above below found
      have order := sorted j m above
      grind [Probe]
    rw [result]
    exact ⟨⟨by grind, high, by grind,
      fun j above below found => lt_of_le_of_lt (atMost j above below found) small,
      region, edge, .inl (by grind [Probe])⟩, rfl, by grind, le_rfl⟩
  · have before : (stabs s.regionLeft).nType = type → (stabs s.regionLeft).nValue.toNat < s.addr.toNat →
        left ≤ s.regionLeft → s.regionLeft ≤ s.r → s.regionLeft < m := by
      intro found value above below
      have order := sorted m s.regionLeft
      grind [Probe]
    rw [result]
    exact ⟨⟨low, by grind [Probe], by grind [Probe], less, rfl, .inr (by grind [Probe]), by grind⟩,
      rfl, le_rfl, by grind [Probe]⟩
  · exact absurd same (differ m (middle ▸ probe))

theorem Sought.rounds (inv : Sought stabs type left right s) (clear : Clear stabs type s) {k : Nat}
    (ran : s.rounds stabs type k = some t) :
    Sought stabs type left right t ∧ t.addr = s.addr ∧ t.l = t.r + 1 := by
  have kept :=
    rounds_invariant (fun now => Sought stabs type left right now ∧ Clear stabs type now ∧
    now.addr = s.addr) (fun now holds more => by
      obtain ⟨inv, clear, same⟩ := holds
      obtain ⟨inv', same', low, high⟩ := inv.round sorted nonneg more
        fun m probe => clear m probe.low (by have := probe.high; omega) probe.found
      exact ⟨inv', by grind [Clear], by grind⟩) ran ⟨inv, clear, rfl⟩
  exact ⟨kept.1.1, kept.1.2.2, by grind [Sought]⟩

theorem Sought.stays (inv : Sought stabs type left right s) {x : Int} (above : s.l ≤ x)
    (below : x ≤ s.r) (found : (stabs x).nType = type) (value : (stabs x).nValue = s.addr)
    (other : ¬ Probe stabs type s.l ((s.l + s.r) / 2) x) :
    (∀ m, Probe stabs type s.l ((s.l + s.r) / 2) m → (stabs m).nValue ≠ s.addr) ∧
      (s.round stabs type).l ≤ x ∧ x ≤ (s.round stabs type).r := by
  obtain ⟨low, high, -, -, -, -, -⟩ := inv
  have differ : ∀ m, Probe stabs type s.l ((s.l + s.r) / 2) m → (stabs m).nValue ≠ s.addr := by
    intro m probe
    have before := sorted m x
    have after := sorted x m
    grind [Probe]
  refine ⟨differ, ?_⟩
  obtain ⟨mid, reads, rfl, -, ⟨none, result⟩ |
    ⟨m, probe, ⟨small, result⟩ | ⟨large, result⟩ | ⟨same, -⟩⟩⟩ :=
    @round_cases stabs type s (by omega) (by omega)
  · grind
  · have order := sorted x m
    grind [Probe]
  · have order := sorted m x
    grind [Probe]
  · exact absurd same (differ m probe)

theorem Sought.exact (inv : Sought stabs type left right s) (more : s.l ≤ s.r) {x : Int}
    (probe : Probe stabs type s.l ((s.l + s.r) / 2) x) (value : (stabs x).nValue = s.addr)
    (room : s.addr.toNat + 1 < 2 ^ 32) : Sought stabs type left right (s.round stabs type) ∧
    (s.round stabs type).addr.toNat = s.addr.toNat + 1 := by
  obtain ⟨low, high, near, less, region, edge, last⟩ := inv
  obtain ⟨reads, result⟩ := @round_exact stabs type s (by omega) more x probe value
  have succ : (after s.addr).toNat = s.addr.toNat + 1 := by rw [after_toNat]; omega
  have before : ∀ j, left ≤ j → j < x → (stabs j).nType = type →
    (stabs j).nValue.toNat < s.addr.toNat := by
    intro j above below found
    have order := sorted j x above below
    grind [Probe]
  have beyond : s.r = right ∨ (stabs (s.r + 1)).nType = type ∧
    s.addr.toNat + 1 ≤ (stabs (s.r + 1)).nValue.toNat := by
    have order := sorted x (s.r + 1)
    grind [Probe]
  rw [result]
  exact ⟨⟨by grind [Probe], high, by grind [Probe], by grind, region, by grind,
    .inl (by grind [Probe])⟩, succ⟩

theorem Sought.hit (inv : Sought stabs type left right s) {x : Int} (above : s.l ≤ x)
    (below : x ≤ s.r) (found : (stabs x).nType = type) (value : (stabs x).nValue = s.addr) {k : Nat}
    (ran : s.rounds stabs type k = some t) : (s.addr.toNat + 1 = 2 ^ 32 →
      (t.finish stabs type).regionLeft = x - 1 ∧ (t.finish stabs type).regionRight = x - 1) ∧
    (s.addr.toNat + 1 < 2 ^ 32 → x ≤ (t.finish stabs type).regionLeft) := by
  induction k generalizing s x with
  | zero => grind [Search.rounds]
  | succ k ih =>
    rw [Search.rounds, if_pos (by omega)] at ran
    have low := inv.low
    have high := inv.high
    by_cases probe : Probe stabs type s.l ((s.l + s.r) / 2) x
    · refine ⟨fun full => ?_, fun room => ?_⟩
      · refine wrap (by omega) (by omega) probe value full (fun j after within typed => ?_) ran
        have order := sorted x j (by omega) after (by omega) found typed
        have bound := (stabs j).nValue.isLt
        grind
      · obtain ⟨inv', succ⟩ := inv.exact sorted nonneg (by omega) probe value room
        obtain ⟨reads, result⟩ := @round_exact stabs type s (by omega) (by omega) x probe value
        generalize s.round stabs type = again at inv' succ result ran
        by_cases further : Clear stabs type again
        · obtain ⟨final, same, ended⟩ := inv'.rounds sorted nonneg further ran
          exact final.reaches sorted ended found (by omega) (by omega) (by grind)
        · simp only [Clear] at further
          push Not at further
          obtain ⟨y, from_, upTo, typed, equal⟩ := further
          have next := ih inv' from_ upTo typed equal ran
          have past : x ≠ y := by grind
          grind
    · obtain ⟨differ, above', below'⟩ := inv.stays sorted nonneg above below found value probe
      obtain ⟨inv', same, -⟩ := inv.round sorted nonneg (by omega) differ
      rw [← same]
      exact ih inv' above' below' found (value.trans same.symm) ran

-- Once the stab at the address is met, the search goes on for the address after it. What follows is
-- then taken for the result if it is at that address and has not been ruled out.
theorem Sought.region_iff (inv : Sought stabs type left right s) {p q : Int} (above : s.l ≤ p)
    (below : p ≤ s.r) (found : (stabs p).nType = type) (value : (stabs p).nValue = s.addr)
    (room : s.addr.toNat + 1 < 2 ^ 32) (next : Next stabs type right p q) {k : Nat}
    (ran : s.rounds stabs type k = some t) : (t.finish stabs type).regionLeft = p ∧
    (t.finish stabs type).regionRight = q - 1 ↔
      s.r < q ∨ (stabs q).nValue.toNat ≠ s.addr.toNat + 1 ∨ Sooner stabs type p q s.l s.r ∨
        s.addr.toNat + 2 = 2 ^ 32 ∧ q = p + 1 := by
  induction k generalizing s with
  | zero => grind [Search.rounds]
  | succ k ih =>
    rw [Search.rounds, if_pos (by omega)] at ran
    have low := inv.low
    have high := inv.high
    have above' : left ≤ p := by omega
    by_cases probe : Probe stabs type s.l ((s.l + s.r) / 2) p
    · rw [sooner_probe probe]
      obtain ⟨inv', succ⟩ := inv.exact sorted nonneg (by omega) probe value room
      obtain ⟨reads, result⟩ := @round_exact stabs type s (by omega) (by omega) p probe value
      generalize s.round stabs type = again at inv' succ result ran
      have after := next.after
      have order := sorted p q above' after
      by_cases follow : q ≤ s.r ∧ (stabs q).nValue.toNat = s.addr.toNat + 1
      · have hit := inv'.hit sorted nonneg (by grind) (by grind) (next.found (by omega))
          (BitVec.eq_of_toNat_eq (follow.2.trans succ.symm)) ran
        grind
      · have clear : Clear stabs type again := by
          intro j from_ upTo typed equal
          have farther := sorted q j
          grind [Next]
        obtain ⟨final, same, ended⟩ := inv'.rounds sorted nonneg clear ran
        have done := final.finish sorted ended found above' (by grind) next (by grind [Next])
        grind
    · obtain ⟨differ, from_, upTo⟩ := inv.stays sorted nonneg above below found value probe
      obtain ⟨inv', same, -⟩ := inv.round sorted nonneg (by omega) differ
      rw [ih inv' from_ upTo (value.trans same.symm) (by rwa [same]) ran, same]
      obtain ⟨_, _, rfl, -, ⟨none, result⟩ | ⟨m, met, ⟨small, result⟩ | ⟨large, result⟩ | ⟨equal, -⟩⟩⟩ :=
        @round_cases stabs type s (by omega) (by omega)
      · rw [result, sooner_none none]
      · have before : m < p := by grind [Probe]
        rw [result, sooner_probe met]
        grind [Next]
      · have notBefore : q ≤ m := by grind [Probe, Next]
        rw [result, sooner_probe met]
        grind [Probe, Next]
      · exact absurd equal (differ m met)

end Sorted

end Search

theorem stabBinsearch_iff (stabs : Stabs) (type : Byte) (addr : Word) (left right p q : Int)
    (nonneg : 0 ≤ left) (sorted : Search.Increasing stabs type left right)
    (found : (stabs p).nType = type) (above : left ≤ p) (below : p ≤ right)
    (value : (stabs p).nValue.toNat ≤ addr.toNat)
    (last : ∀ j, p < j → j ≤ right → (stabs j).nType = type → addr.toNat < (stabs j).nValue.toNat)
    (next : Search.Next stabs type right p q) :
    ∃ t, stabBinsearch stabs type addr left right = some t ∧
      (t.regionLeft = p ∧ t.regionRight = q - 1 ↔
        (stabs p).nValue ≠ addr ∨ addr.toNat + 1 < 2 ^ 32 ∧
          (q = right + 1 ∨ (stabs q).nValue.toNat ≠ addr.toNat + 1 ∨
          Search.Sooner stabs type p q left right ∨
            addr.toNat + 2 = 2 ^ 32 ∧ q = p + 1)) := by
  have inv : Search.Sought stabs type left right (.begin addr left right) := by
    constructor <;> simp only [Search.begin] <;> grind
  obtain ⟨t, ran⟩ :=
    @Search.rounds_total stabs type (.begin addr left right) (right - left + 1).toNat nonneg
    (by simp only [Search.begin]; omega) _ (show _ ≤ (2 * (right - left + 1)).toNat by omega)
  refine ⟨_, by rw [stabBinsearch, ran]; rfl, ?_⟩
  by_cases same : (stabs p).nValue = addr
  · by_cases room : addr.toNat + 1 < 2 ^ 32
    · rw [inv.region_iff sorted nonneg above below found same room next ran]
      grind [Search.begin, Search.Next]
    · have off :=
        (inv.hit sorted nonneg above below found same ran).1 (by simp only [Search.begin]; omega)
      grind
  · have clear : Search.Clear stabs type (.begin addr left right) := by
      intro j from_ upTo typed equal
      have before := sorted j p
      have after := last j
      grind [Search.begin]
    obtain ⟨final, kept, ended⟩ := inv.rounds sorted nonneg clear ran
    have less : (stabs p).nValue.toNat < addr.toNat :=
      lt_of_le_of_ne value fun equal => same (BitVec.eq_of_toNat_eq equal)
    have done := final.finish sorted ended found above (by rwa [kept]) next fun inside => by
      rw [kept]
      exact (last q next.after inside (next.found inside)).le
    exact ⟨fun _ => .inl same, fun _ => done⟩

theorem stabBinsearch_between : ∃ t,
    stabBinsearch (fun i => if i = 0 then ⟨0, 36, 0, 4⟩ else ⟨0, 36, 0, 8⟩) 36 6 0 1 = some t ∧
      t.regionLeft = 0 ∧ t.regionRight = 0 := by
  obtain ⟨t, search, iff⟩ :=
    stabBinsearch_iff (fun i => if i = 0 then ⟨0, 36, 0, 4⟩ else ⟨0, 36, 0, 8⟩) 36 6 0 1 0 1
    (by decide) (fun i j from_ order upTo _ _ => by
      obtain rfl : i = 0 := by omega
      obtain rfl : j = 1 := by omega
      decide) (by decide) (by decide) (by decide) (by decide) (fun j past upTo _ => by
        obtain rfl : j = 1 := by omega
        decide) ⟨by decide, by decide, by decide, by omega⟩
  exact ⟨t, search, iff.2 (.inl (by decide))⟩

-- The search for the address 5 of the first of two stabs at 5 and 6 ends at the second.
theorem stabBinsearch_next :
    (stabBinsearch (fun i => if i = 0 then ⟨0, 36, 0, 5⟩ else ⟨0, 36, 0, 6⟩) 36 5 0 1).map
      (fun t => (t.regionLeft, t.regionRight)) = some (1, 1) := by
  decide

end Jos.Kern
