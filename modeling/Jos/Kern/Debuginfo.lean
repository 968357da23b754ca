import Jos.Kern.Stab

namespace Jos.Kern

def nSo : Byte := 0x64
def nFun : Byte := 0x24
def nSline : Byte := 0x44
def nSol : Byte := 0x84
def nPsym : Byte := 0xa0

/-- A name is an offset into the string table; `none` is the text `<unknown>`. -/
structure Eipdebuginfo where
  eipFile : Option Word
  eipLine : BitVec 16
  eipFnName : Option Word
  eipFnAddr : Word
  eipFnNarg : Nat

/-- The stabs and strings found for an address, the number of stabs, the last byte of the strings,
and whether the three calls of `user_mem_check` let the kernel read them. -/
structure DebugTable where
  stabs : Stabs
  size : Int
  stabstr : Word
  stabstrEnd : Word
  lastChar : Byte
  readable : Bool × Bool × Bool

def params (stabs : Stabs) : Nat → Int → Nat × List Int
  | 0, _ => (0, [])
  | k + 1, i =>
    if (stabs i).nType = nPsym
      then ((params stabs k (i + 1)).1 + 1, i :: (params stabs k (i + 1)).2) else (0, [i])

def DebugTable.Usable (table : DebugTable) (addr : Word) : Prop :=
  (ulim ≤ addr ∨ table.readable = (true, true, true)) ∧ table.stabstr < table.stabstrEnd ∧
    table.lastChar = 0

instance (table : DebugTable) (addr : Word) : Decidable (table.Usable addr) := by
  unfold DebugTable.Usable; infer_instance

def DebugTable.name (table : DebugTable) (i : Int) : Option Word :=
  if (table.stabs i).nStrx < table.stabstrEnd - table.stabstr then some (table.stabs i).nStrx else none

def DebugTable.lines (table : DebugTable) (file fn : Search) (info : Eipdebuginfo) (seen : List Int)
    (addr : Word) (lline rline : Int) : Option (Int × Eipdebuginfo × List Int) := do
  let line ← stabBinsearch table.stabs nSline addr lline rline
  if line.regionRight < line.regionLeft then some (-1, info, seen ++ line.reads)
  else
    let source := back table.stabs (fun stab => stab.nType = nSol ∨ stab.nType = nSo ∧ stab.nValue ≠ 0)
      (line.regionLeft - file.regionLeft + 1).toNat line.regionLeft
    let args := params table.stabs (fn.regionRight - fn.regionLeft - 1).toNat (fn.regionLeft + 1)
    some (0, { info with
        eipLine := (table.stabs line.regionLeft).nDesc
        eipFile := if file.regionLeft ≤ source.1 then table.name source.1 else none
        eipFnNarg := args.1 },
      seen ++ line.reads ++ [line.regionLeft] ++ source.2 ++ args.2)

def debuginfoEip (table : DebugTable) (addr : Word) : Option (Int × Eipdebuginfo × List Int) :=
  let info : Eipdebuginfo := ⟨none, 0, none, addr, 0⟩
  if ¬ table.Usable addr then some (-1, info, [])
  else do
    let file ← stabBinsearch table.stabs nSo addr 0 (table.size - 1)
    if file.regionLeft = 0 then some (-1, info, file.reads)
    else do
      let fn ← stabBinsearch table.stabs nFun addr file.regionLeft file.regionRight
      if fn.regionLeft ≤ fn.regionRight then
        let start := (table.stabs fn.regionLeft).nValue
        table.lines file fn { info with eipFnName := table.name fn.regionLeft, eipFnAddr := start }
          (file.reads ++ fn.reads ++ [fn.regionLeft]) (addr - start) fn.regionLeft fn.regionRight
      else table.lines file fn info (file.reads ++ fn.reads) addr file.regionLeft file.regionRight

namespace Search

variable {stabs : Stabs} {type : Byte} {s t : Search}

inductive Falls (stabs : Stabs) (type : Byte) (addr : Nat) (l : Int) : Int → Prop
  | edge {r : Int} : Probe stabs type l ((l + r) / 2) l → addr < (stabs l).nValue.toNat →
    Falls stabs type addr l r
  | step {r m : Int} : Probe stabs type l ((l + r) / 2) m → addr < (stabs m).nValue.toNat →
      Falls stabs type addr l (m - 1) → Falls stabs type addr l r

def Wraps (stabs : Stabs) (type : Byte) (addr : Nat) (l r : Int) : Prop :=
  addr + 1 = 2 ^ 32 ∧ Probe stabs type l ((l + r) / 2) l ∧ (stabs l).nValue.toNat = addr

theorem Falls.above {addr : Nat} {l r : Int} (falls : Falls stabs type addr l r) :
    addr < (stabs l).nValue.toNat := by
  induction falls with
  | edge _ value => exact value
  | step _ _ _ ih => exact ih

theorem falls_probe {addr : Nat} {l r m : Int} (probe : Probe stabs type l ((l + r) / 2) m) :
    Falls stabs type addr l r ↔
      addr < (stabs m).nValue.toNat ∧ (m = l ∨ Falls stabs type addr l (m - 1)) := by
  constructor
  · intro falls
    cases falls with
    | edge found value => cases probe.unique found; exact ⟨value, .inl rfl⟩
    | step found value rest => cases probe.unique found; exact ⟨value, .inr rest⟩
  · rintro ⟨value, rfl | rest⟩
    · exact .edge probe value
    · exact .step probe value rest

theorem falls_none {addr : Nat} {l r : Int}
    (none : ∀ j, l ≤ j → j ≤ (l + r) / 2 → (stabs j).nType ≠ type) :
    ¬ Falls stabs type addr l r := by
  intro falls
  cases falls with
  | edge probe | step probe => exact none _ probe.low probe.high probe.found

structure Ranged (stabs : Stabs) (type : Byte) (left right : Int) (s : Search) : Prop where
  low : left ≤ s.l
  near : s.l ≤ s.r + 1
  high : s.r ≤ right
  region : s.regionRight = s.r
  first : left ≤ s.regionLeft ∧ s.regionLeft ≤ right
  typed : s.regionLeft = left ∨ (stabs s.regionLeft).nType = type
  fresh : s.anyMatches = false → s.regionLeft = left ∧ s.r = right
  inside : ∀ i ∈ s.reads, left ≤ i ∧ i ≤ right

variable {left right : Int}

theorem Ranged.round (nonneg : 0 ≤ left) (inv : Ranged stabs type left right s) (more : s.l ≤ s.r) :
    Ranged stabs type left right (s.round stabs type) ∧ s.l ≤ (s.round stabs type).l := by
  obtain ⟨low, near, high, region, first, typed, fresh, inside⟩ := inv
  obtain ⟨mid, reads, middle, seen, ⟨-, result⟩ | ⟨m, probe, ⟨-, result⟩ | ⟨-, result⟩ | ⟨-, result⟩⟩⟩ :=
    @round_cases stabs type s (by omega) more
  all_goals
    rw [result]
    refine ⟨?_, by grind -linarith [Probe]⟩
    constructor <;> grind -linarith [Probe]

theorem Ranged.rounds (nonneg : 0 ≤ left) (inv : Ranged stabs type left right s) {k : Nat}
    (ran : s.rounds stabs type k = some t) : Ranged stabs type left right t ∧
    s.l - 1 ≤ t.regionRight := by
  obtain ⟨⟨final, further⟩, -⟩ :=
    rounds_invariant (fun now => Ranged stabs type left right now ∧
    s.l ≤ now.l) (fun now holds more => by
      obtain ⟨kept, further⟩ := holds.1.round nonneg more
      exact ⟨kept, holds.2.trans further⟩) ran ⟨inv, le_rfl⟩
  exact ⟨final, by grind -linarith [Ranged]⟩

theorem Ranged.begin (addr : Word) (order : left ≤ right) :
    Ranged stabs type left right (.begin addr left right) := by
  constructor <;> simp [Search.begin, order]
  omega

theorem Ranged.falls_iff (nonneg : 0 ≤ left) (inv : Ranged stabs type left right s)
    (more : s.l ≤ s.r) {k : Nat} (ran : s.rounds stabs type k = some t) :
    t.regionRight = s.l - 1 ↔
      Falls stabs type s.addr.toNat s.l s.r ∨ Wraps stabs type s.addr.toNat s.l s.r := by
  induction k generalizing s with
  | zero => grind -linarith [Search.rounds]
  | succ k ih =>
    rw [Search.rounds, if_pos more] at ran
    have low := inv.low
    have inv' := (inv.round nonneg more).1
    obtain ⟨mid, reads, rfl, -, ⟨none, result⟩ | ⟨m, probe, compare⟩⟩ :=
      @round_cases stabs type s (by omega) more
    · have dead := (inv'.rounds nonneg ran).2
      have far := @falls_none stabs type s.addr.toNat _ _ none
      grind -linarith [Wraps, Probe]
    · have only := @falls_probe stabs type s.addr.toNat _ _ _ probe
      have highest := (stabs m).nValue.isLt
      obtain ⟨small, result⟩ | ⟨large, result⟩ | ⟨same, result⟩ := compare
      · have dead := (inv'.rounds nonneg ran).2
        grind -linarith [Wraps, Probe.unique]
      · by_cases edge : m = s.l
        · rw [rounds_over (by grind -linarith)] at ran
          cases ran
          grind -linarith
        · have rest := ih inv' (by grind -linarith [Probe]) ran
          grind -linarith [Wraps]
      · by_cases edge : m = s.l
        · have rest := ih inv' (by grind -linarith [Probe]) ran
          have later := @falls_probe stabs type (after s.addr).toNat _ _ _ probe
          grind -linarith [Wraps, after_toNat]
        · have dead := (inv'.rounds nonneg ran).2
          grind -linarith [Wraps, Probe, Probe.unique]

theorem ran_of_order (addr : Word) (nonneg : 0 ≤ left) (order : left ≤ right) :
    ∃ k t, (begin addr left right).rounds stabs type k = some t ∧
      stabBinsearch stabs type addr left right = some (t.finish stabs type) ∧
      Ranged stabs type left right t := by
  obtain ⟨t, ran⟩ := @rounds_total stabs type (.begin addr left right) (right - left + 1).toNat nonneg
    (by simp only [Search.begin]; omega) _ (show _ ≤ (2 * (right - left + 1)).toNat by omega)
  exact ⟨_, t, ran, by simp [stabBinsearch, ran], ((Ranged.begin addr order).rounds nonneg ran).1⟩

theorem Ranged.left_ge (nonneg : 0 ≤ left) (inv : Ranged stabs type left right s)
    (met : s.regionLeft = s.l) {k : Nat} (ran : s.rounds stabs type k = some t) :
    s.l ≤ t.regionLeft := by
  have kept :=
    rounds_invariant (fun now => Ranged stabs type left right now ∧ s.l ≤ now.l ∧
    s.l ≤ now.regionLeft) (fun now holds more => by
      obtain ⟨inv, low, first⟩ := holds
      refine ⟨(inv.round nonneg more).1, ?_⟩
      have start := inv.low
      obtain ⟨mid, reads, middle, -, ⟨-, result⟩ | ⟨m, probe, ⟨-, result⟩ | ⟨-, result⟩ | ⟨-, result⟩⟩⟩ :=
        @round_cases stabs type now (by omega) more <;> grind -linarith [Probe]) ran ⟨inv, le_rfl, met.ge⟩
  exact kept.1.2.2

theorem Ranged.finish (inv : Ranged stabs type left right t) :
    (∀ i ∈ (t.finish stabs type).reads, left ≤ i ∧ i ≤ right) ∧
      (t.regionRight < t.regionLeft ∧ (t.finish stabs type).regionLeft = t.regionRight ∧
          (t.finish stabs type).regionRight = t.regionRight ∨
        t.regionLeft ≤ t.regionRight ∧ t.regionLeft ≤ (t.finish stabs type).regionLeft ∧
          ((t.finish stabs type).regionLeft = t.regionLeft ∨
          (stabs (t.finish stabs type).regionLeft).nType = type) ∧
          ((t.finish stabs type).regionLeft = left ∧ (t.finish stabs type).regionRight = left - 1 ∨
            (t.finish stabs type).regionLeft ≤ t.regionRight ∧
            (t.finish stabs type).regionRight = t.regionRight)) := by
  obtain ⟨low, near, high, region, first, typed, fresh, inside⟩ := inv
  have spec := @back_spec stabs (·.nType = type) (t.regionRight - t.regionLeft).toNat t.regionRight
  simp only [decide_eq_true_eq] at spec
  unfold Search.finish
  split <;> grind -linarith

theorem Ranged.none (nonneg : 0 ≤ left) (order : left ≤ right) (addr : Word)
    (above : ∀ i, left ≤ i → i ≤ right → (stabs i).nType = type →
    addr.toNat < (stabs i).nValue.toNat) {k : Nat}
    (ran : (Search.begin addr left right).rounds stabs type k = some t) :
    (t.finish stabs type).regionLeft = left ∨ (t.finish stabs type).regionLeft = left - 1 := by
  obtain ⟨⟨final, same, first, untyped⟩, ended⟩ := rounds_invariant
    (fun now => Ranged stabs type left right now ∧ now.addr = addr ∧ now.regionLeft = left ∧
      ∀ j, left ≤ j → j < now.l → (stabs j).nType ≠ type)
    (fun now holds more => by
      obtain ⟨inv, same, first, untyped⟩ := holds
      refine ⟨(inv.round nonneg more).1, ?_⟩
      have low := inv.low
      have high := inv.high
      obtain ⟨mid, reads, middle, -, ⟨none, result⟩ | ⟨m, probe, compare⟩⟩ :=
        @round_cases stabs type now (by omega) more
      · grind -linarith
      · have large := above m (low.trans probe.low) (by grind -linarith [Probe]) probe.found
        grind -linarith) ran ⟨.begin addr order, rfl, rfl, fun j from_ below =>
          absurd below (not_lt.2 from_)⟩
  have done := final.finish
  grind -linarith [Ranged]

def Doubles (stabs : Stabs) (type : Byte) (addr : Nat) (l r : Int) : Prop :=
  addr + 1 = 2 ^ 32 ∧ l ≤ 2 ∧ 2 ≤ r ∧ (stabs 2).nType = type ∧ (stabs 2).nValue.toNat = addr ∧
    (∀ j, 2 < j → j ≤ (l + r) / 2 → (stabs j).nType ≠ type) ∧ Falls stabs type 0 2 r

theorem Ranged.doubles_iff (nonneg : 0 ≤ left) (zero : (stabs 0).nType ≠ type)
    (one : (stabs 1).nType ≠ type) (inv : Ranged stabs type left right s) (fresh : s.regionLeft ≤ 1)
    {k : Nat} (ran : s.rounds stabs type k = some t) : t.regionRight = 1 ∧ 1 < t.regionLeft ↔
    Doubles stabs type s.addr.toNat s.l s.r := by
  induction k generalizing s with
  | zero => grind -linarith [Search.rounds, Doubles]
  | succ k ih =>
    by_cases more : s.l ≤ s.r
    · rw [Search.rounds, if_pos more] at ran
      have low := inv.low
      have inv' := (inv.round nonneg more).1
      have dead := (inv'.rounds nonneg ran).2
      obtain ⟨mid, reads, rfl, -, ⟨none, result⟩ | ⟨m, probe, compare⟩⟩ :=
        @round_cases stabs type s (by omega) more
      · rw [ih inv' (by grind -linarith) ran]
        grind -linarith [Doubles]
      · have at2 : 2 ≤ m := by grind -linarith [Probe]
        obtain ⟨small, result⟩ | ⟨large, result⟩ | ⟨same, result⟩ := compare
        · grind -linarith [Doubles, Probe]
        · rw [ih inv' (by grind -linarith) ran]
          have highest := (stabs m).nValue.isLt
          grind -linarith [Doubles]
        · have stays := inv'.left_ge nonneg (by grind -linarith) ran
          by_cases here : m = 2
          · have falls := inv'.falls_iff nonneg (by grind -linarith [Probe]) ran
            have highest := (stabs 2).nValue.isLt
            have larger := @Falls.above stabs type (after s.addr).toNat 2 s.r
            grind -linarith [Doubles, Wraps, Probe, after_toNat]
          · grind -linarith [Doubles, Probe]
    · rw [rounds_over (by omega)] at ran
      cases ran
      grind -linarith [Doubles]

theorem Falls.probe {addr : Nat} {l r : Int} (falls : Falls stabs type addr l r) :
    (stabs l).nType = type ∧ l ≤ r := by
  induction falls with
  | edge probe => exact ⟨probe.found, by grind -linarith [Probe]⟩
  | step probe _ _ ih => exact ⟨ih.1, by grind -linarith [Probe]⟩

structure Outcome (stabs : Stabs) (type : Byte) (addr : Word) (left right : Int) (t : Search) : Prop where
  inside : ∀ i ∈ t.reads, left ≤ i ∧ i ≤ right
  shape : t.regionLeft = left ∧ t.regionRight = left - 1 ∨
    left - 1 ≤ t.regionLeft ∧ t.regionLeft ≤ t.regionRight ∧ t.regionRight ≤ right
  off : t.regionLeft = left - 1 ↔ Falls stabs type addr.toNat left right ∨
    Wraps stabs type addr.toNat left right
  both : t.regionLeft = left - 1 → t.regionRight = left - 1
  none : (∀ i, left ≤ i → i ≤ right → (stabs i).nType = type → addr.toNat < (stabs i).nValue.toNat) →
    t.regionLeft = left ∨ t.regionLeft = left - 1
  doubles : left = 0 → (stabs 0).nType ≠ type → (stabs 1).nType ≠ type →
    (t.regionLeft = 1 ↔ Doubles stabs type addr.toNat left right) ∧ (t.regionLeft = 1 → t.regionRight = 1)

theorem outcome (stabs : Stabs) (type : Byte) (addr : Word) (nonneg : 0 ≤ left) :
    ∃ t, stabBinsearch stabs type addr left right = some t ∧ Outcome stabs type addr left right t := by
  by_cases order : left ≤ right
  · obtain ⟨k, t, ran, result, inv⟩ := @ran_of_order stabs type _ _ addr nonneg order
    have start := @Ranged.begin stabs type _ _ addr order
    have off := start.falls_iff nonneg order ran
    obtain ⟨reads, finished⟩ := inv.finish
    have first := inv.first
    have right_ := (start.rounds nonneg ran).2
    refine ⟨_, result, reads, by grind -linarith [Ranged, Search.begin], by grind [Search.begin],
      by grind [Search.begin], fun above => Ranged.none nonneg order addr above ran,
      fun edge zero one => ?_⟩
    have doubles := start.doubles_iff nonneg zero one (by simp only [Search.begin]; omega) ran
    grind -linarith [Ranged, Search.begin]
  · refine ⟨_, by rw [stabBinsearch, rounds_over (by simp only [Search.begin]; omega)]; rfl, ?_⟩
    have noFall : ¬ Falls stabs type addr.toNat left right := fun falls => order falls.probe.2
    have noWrap : ¬ Wraps stabs type addr.toNat left right := fun wraps => by
      grind -linarith [Wraps, Probe]
    constructor <;>
      simp only [finish, Search.begin, Bool.false_eq_true, if_false, List.not_mem_nil] <;>
      grind -linarith [Doubles]

theorem reads_before {addr : Word} (ran : stabBinsearch stabs type addr (-1) (-1) = some t) :
    -1 ∈ t.reads := by
  have first : (-1 : Int) ∈ ((begin addr (-1) (-1)).round stabs type).reads := by
    simp [round, begin, back]
    grind -linarith
  have keep : ∀ s : Search, -1 ∈ s.reads → -1 ∈ (s.round stabs type).reads := by
    intro s member
    simp only [round]
    grind -linarith
  simp only [stabBinsearch, Option.map_eq_some_iff] at ran
  obtain ⟨last, ran, rfl⟩ := ran
  have kept := (rounds_invariant (fun now => -1 ∈ now.reads) (fun s member _ => keep s member)
    (show ((begin addr (-1) (-1)).round stabs type).rounds stabs type 1 = some last from ran) first).1
  unfold finish
  grind -linarith

end Search

-- The searches that leave the table on the left: the file before the first stab, or the line of a
-- function that is found before its file.
def DebugTable.Strays (table : DebugTable) (addr : Word) : Prop :=
  Search.Falls table.stabs nSo addr.toNat 0 (table.size - 1) ∨
    Search.Wraps table.stabs nSo addr.toNat 0 (table.size - 1) ∨
    Search.Doubles table.stabs nSo addr.toNat 0 (table.size - 1) ∧
      (table.stabs 1).nType = nFun ∧ (table.stabs 1).nValue = addr ∧
      (table.stabs 0).nType = nSline ∧ 2 ^ 31 ≤ (table.stabs 0).nValue.toNat

theorem DebugTable.strays_iff (table : DebugTable) {addr : Word} {file fn : Search}
    (ofFile : Search.Outcome table.stabs nSo addr 0 (table.size - 1) file) (inside : 1 ≤ file.regionLeft)
    (ofFn : Search.Outcome table.stabs nFun addr file.regionLeft file.regionRight fn) :
    table.Strays addr ↔ fn.regionLeft = 0 ∧ fn.regionLeft ≤ fn.regionRight ∧
      (Search.Falls table.stabs nSline (addr - (table.stabs 0).nValue).toNat 0 fn.regionRight ∨
        Search.Wraps table.stabs nSline (addr - (table.stabs 0).nValue).toNat 0 fn.regionRight) := by
  have kinds : nSo ≠ nFun ∧ nSo ≠ nSline := by decide
  have doubles := ofFile.doubles rfl
  have highest : ∀ i, (table.stabs i).nValue.toNat < 2 ^ 32 := fun i => (table.stabs i).nValue.isLt
  have difference : addr.toNat + 1 = 2 ^ 32 →
    (addr - (table.stabs 0).nValue).toNat = addr.toNat - (table.stabs 0).nValue.toNat :=
    fun full => BitVec.toNat_sub_of_le (by have := highest 0; simp only [BitVec.le_def]; omega)
  constructor
  · rintro (falls | wraps | ⟨double, isFun, atFun, isLine, high⟩)
    · have off := ofFile.off.2 (.inl falls)
      omega
    · have off := ofFile.off.2 (.inr wraps)
      omega
    · have full := double.1
      obtain ⟨here, last⟩ := doubles (by grind -linarith) (by grind)
      have first : file.regionLeft = 1 := here.2 double
      have probeFun : Search.Probe table.stabs nFun 1 ((1 + 1) / 2) 1 := ⟨le_rfl, le_rfl, isFun, by omega⟩
      have probeLine : Search.Probe table.stabs nSline 0 ((0 + 0) / 2) 0 :=
        ⟨le_rfl, le_rfl, isLine, by omega⟩
      rw [last first, first] at ofFn
      have left : fn.regionLeft = 0 := ofFn.off.2 (.inr ⟨full, probeFun, by rw [atFun]⟩)
      have right : fn.regionRight = 0 := ofFn.both left
      refine ⟨left, by omega, .inl (.edge (right ▸ probeLine) ?_)⟩
      have value := difference full
      omega
  · rintro ⟨left, order, line⟩
    have isLine : (table.stabs 0).nType = nSline := by
      obtain falls | ⟨-, probe, -⟩ := line
      · exact falls.probe.1
      · exact probe.found
    have shape := ofFn.shape
    have first : file.regionLeft = 1 := by omega
    have off := ofFn.off.1 (by omega)
    rw [first] at off
    have isFun : (table.stabs 1).nType = nFun := by
      obtain falls | ⟨-, probe, -⟩ := off
      · exact falls.probe.1
      · exact probe.found
    have double := (doubles (by grind -linarith) (by grind)).1.1 first
    have full := double.1
    have value := difference full
    refine .inr (.inr ⟨double, isFun, ?_, isLine, ?_⟩)
    · obtain falls | ⟨-, -, same⟩ := off
      · have larger := falls.above
        grind -linarith
      · exact BitVec.eq_of_toNat_eq same
    · obtain falls | ⟨wrapped, -, same⟩ := line
      · have larger := falls.above
        omega
      · omega

theorem params_reads (stabs : Stabs) (k : Nat) (i : Int) : ∀ j ∈ (params stabs k i).2, i ≤ j ∧
    j < i + k := by
  induction k generalizing i with
  | zero => simp [params]
  | succ k ih =>
    have later := ih (i + 1)
    grind -linarith [params]

theorem DebugTable.lines_inside (table : DebugTable) (file fn : Search) (info : Eipdebuginfo)
    {seen : List Int} (addr : Word) (lline rline : Int) (first : 1 ≤ file.regionLeft)
    (low : 0 ≤ lline) (high : rline < table.size) (fnLow : 0 ≤ fn.regionLeft)
    (fnHigh : fn.regionRight < table.size) (known : ∀ i ∈ seen, 0 ≤ i ∧ i < table.size) :
    ∃ line result info' reads, Search.Outcome table.stabs nSline addr lline rline line ∧
      table.lines file fn info seen addr lline rline = some (result, info', reads) ∧
      ((∀ i ∈ reads, 0 ≤ i ∧ i < table.size) ↔ line.regionLeft ≠ -1) := by
  obtain ⟨line, ran, of⟩ := @Search.outcome lline rline table.stabs nSline addr low
  obtain ⟨inside, shape, -, -, -, -⟩ := id of
  have args := params_reads table.stabs (fn.regionRight - fn.regionLeft - 1).toNat (fn.regionLeft + 1)
  have source :=
    fun stop =>
    (@back_spec table.stabs stop (line.regionLeft - file.regionLeft + 1).toNat
    line.regionLeft).2.2.2
  refine ⟨line, ?_⟩
  simp only [DebugTable.lines, ran, bind, Option.bind]
  split
  · exact ⟨_, _, _, of, rfl, by grind -linarith⟩
  · refine ⟨_, _, _, of, rfl, fun within => ?_, fun inTable i member => ?_⟩
    · have here := within line.regionLeft (by simp)
      omega
    · simp only [List.mem_append, List.mem_singleton] at member
      obtain (((old | searched) | last) | back) | arg := member
      · exact known i old
      · have range := inside i searched
        omega
      · omega
      · have range := source _ i back
        omega
      · have range := args i arg
        omega

theorem debuginfoEip_inside_iff (table : DebugTable) (addr : Word) :
    (∃ result info reads, debuginfoEip table addr = some (result, info, reads) ∧
      (∀ i ∈ reads, 0 ≤ i ∧ i < table.size) ∧
      ((∀ i, 0 ≤ i → i < table.size → (table.stabs i).nType = nSo →
      addr.toNat < (table.stabs i).nValue.toNat) →
        result < 0)) ↔
      (table.Usable addr → ¬ table.Strays addr) := by
  by_cases usable : table.Usable addr
  · obtain ⟨file, fileRan, ofFile⟩ := @Search.outcome 0 (table.size - 1) table.stabs nSo addr le_rfl
    have shape := ofFile.shape
    have off := ofFile.off
    obtain zero | before | inside : file.regionLeft = 0 ∨ file.regionLeft = -1 ∨
      1 ≤ file.regionLeft := by omega
    · have ran : debuginfoEip table addr = some (-1, ⟨none, 0, none, addr, 0⟩, file.reads) := by
        simp [debuginfoEip, usable, fileRan, zero]
      have doubles := ofFile.doubles rfl
      have within := ofFile.inside
      refine ⟨fun _ _ strays => ?_, fun _ => ⟨_, _, _, ran, by grind -linarith, fun _ => by decide⟩⟩
      grind -linarith [DebugTable.Strays, nSo, nFun, nSline]
    · have strays : table.Strays addr := by grind -linarith [DebugTable.Strays]
      refine ⟨?_, fun clean => absurd strays (clean usable)⟩
      rintro ⟨result, info, reads, ran, within, -⟩
      have last := ofFile.both before
      have member : ∀ {fn}, stabBinsearch table.stabs nFun addr (-1) (-1) = some fn →
        -1 ∈ fn.reads := Search.reads_before
      have read : -1 ∈ reads := by
        simp only [debuginfoEip, usable, fileRan, before, last, bind, Option.bind, DebugTable.lines]
          at ran
        grind -linarith
      exact absurd (within _ read).1 (by decide)
    · obtain ⟨fn, fnRan, ofFn⟩ :=
        @Search.outcome file.regionLeft file.regionRight table.stabs nFun addr (by omega)
      have iff := table.strays_iff ofFile inside ofFn
      have someFile := ofFile.none
      have fileReads := ofFile.inside
      have fnReads := ofFn.inside
      have fnShape := ofFn.shape
      by_cases found : fn.regionLeft ≤ fn.regionRight
      · obtain ⟨line, result, info, reads, ofLine, ran, within⟩ := table.lines_inside file fn
          ⟨none, 0, table.name fn.regionLeft, (table.stabs fn.regionLeft).nValue, 0⟩
          (addr - (table.stabs fn.regionLeft).nValue) fn.regionLeft fn.regionRight inside (by omega)
            (by omega) (by omega)
          (by omega) (show ∀ i ∈ file.reads ++ fn.reads ++ [fn.regionLeft], _ by grind -linarith)
        have whole : debuginfoEip table addr = some (result, info, reads) := by
          simp [debuginfoEip, usable, fileRan, fnRan, found, ← ran]
          omega
        have lineOff := ofLine.off
        have lineShape := ofLine.shape
        rw [whole]
        grind -linarith
      · obtain ⟨line, result, info, reads, ofLine, ran, within⟩ :=
          table.lines_inside file fn ⟨none, 0, none, addr, 0⟩ addr file.regionLeft file.regionRight
          inside (by omega) (by omega) (by omega)
          (by omega) (show ∀ i ∈ file.reads ++ fn.reads, _ by grind -linarith)
        have whole : debuginfoEip table addr = some (result, info, reads) := by
          simp [debuginfoEip, usable, fileRan, fnRan, found, ← ran]
          omega
        have lineShape := ofLine.shape
        rw [whole]
        grind -linarith
  · simp [debuginfoEip, usable]

-- The table of a user program with one file and one function, linked at 0x800020.
def userTable : DebugTable where
  stabs i :=
    if i ≤ 0 then ⟨1, nSo, 0, 0x800020⟩
    else if i = 1 then ⟨13, nFun, 0, 0x800033⟩
    else ⟨0, nSo, 0, 0x800080⟩
  size := 3
  stabstr := 0x800800
  stabstrEnd := 0x800840
  lastChar := 0
  readable := (true, true, true)

-- A user address below the first file: the search for a function reads before the table.
theorem debuginfoEip_before :
    (debuginfoEip userTable 0x800000).map (fun answer => (answer.1, answer.2.2)) =
    some (-1, [1, 0, -1, -1]) := by
  decide +kernel

end Jos.Kern
