import Jos.Kern.Vga

namespace Jos.Kern.Vga

open Jos.Shared

namespace Call

variable {call : Call}

def OnScreen (call : Call) : Prop :=
  0 ≤ call.x.exact ∧ call.x.exact < 320 ∧ 0 ≤ call.y.exact ∧ call.y.exact < 200

def addr (call : Call) : Word := BitVec.ofInt 32 (0xf00A0000 + 320 * call.y.exact + call.x.exact)

def Confined (call : Call) : Prop :=
  ∀ mem addr, call.write mem addr ≠ mem addr → call.OnScreen ∧ addr = call.addr

def WritesScreen (call : Call) : Prop :=
  ∀ mem addr, call.write mem addr ≠ mem addr →
    screenBaseAddr.toNat ≤ addr.toNat ∧ addr.toNat < screenBaseAddr.toNat + 64000

def Near (call : Call) : Prop :=
  (-200000 ≤ call.x.val ∧ call.x.val ≤ 200000) ∧ -200000 ≤ call.y.val ∧ call.y.val ≤ 200000

theorem off_eq (call : Call) :
    call.off = BitVec.ofInt 32 (0xf00A0000 + 320 * call.y.val + call.x.val) := by
  rw [BitVec.ofInt_add, BitVec.ofInt_add, BitVec.ofInt_mul]
  rfl

theorem toNat_address {i : Int} (low : 0 ≤ i) (high : i < 4294967296) :
    ((BitVec.ofInt 32 i).toNat : Int) = i := by
  rw [BitVec.toNat_ofInt]
  omega

theorem written_iff (near : call.Near) : call.off < screenMaxAddr ↔
    320 * call.y.val + call.x.val < 65535 := by
  obtain ⟨⟨xLow, xHigh⟩, yLow, yHigh⟩ := near
  have value := toNat_address (i := 0xf00A0000 + 320 * call.y.val + call.x.val) (by omega) (by omega)
  rw [off_eq, BitVec.lt_def, show screenMaxAddr.toNat = 4027252735 from rfl]
  omega

theorem Confined.writesScreen (confined : call.Confined) : call.WritesScreen := by
  intro mem addr changed
  obtain ⟨⟨xLow, xHigh, yLow, yHigh⟩, rfl⟩ := confined mem addr changed
  have value := toNat_address (i := 0xf00A0000 + 320 * call.y.exact + call.x.exact) (by omega) (by omega)
  rw [show screenBaseAddr.toNat = 4027187200 from rfl, Call.addr]
  omega

end Call

def PixelSafe (x y : Num) : Prop :=
  65535 ≤ 320 * y.val + x.val ∨
    (x.val = x.exact ∧ y.val = y.exact) ∧ (0 ≤ x.val ∧ x.val < 320) ∧ 0 ≤ y.val ∧ y.val < 200

theorem Call.confined_iff {call : Call} (near : call.Near) : call.Confined ↔ PixelSafe call.x call.y := by
  have written := written_iff near
  constructor
  · intro confined
    by_cases beyond : 65535 ≤ 320 * call.y.val + call.x.val
    · exact .inl beyond
    · have below := written.mpr (by omega)
      obtain ⟨⟨xLow, xHigh, yLow, yHigh⟩, same⟩ := confined (fun _ => call.color + 1) call.off (by
        simp [write, below])
      obtain ⟨⟨xLow', xHigh'⟩, yLow', yHigh'⟩ := near
      -- The two addresses are numbers below 2 ^ 32, and cutting off 16 bits would show in them.
      have value := toNat_address (i := 0xf00A0000 + 320 * call.y.val + call.x.val) (by omega) (by omega)
      have value' :=
        toNat_address (i := 0xf00A0000 + 320 * call.y.exact + call.x.exact) (by omega) (by omega)
      rw [off_eq, addr] at same
      rw [same, value'] at value
      obtain ⟨n, xCut⟩ := call.x.cut
      obtain ⟨m, yCut⟩ := call.y.cut
      have balance : 320 * m + n = 0 := by
        clear written below
        omega
      have few : -4 ≤ n ∧ n ≤ 4 := by
        clear written below value value' yCut balance
        omega
      obtain ⟨rfl, rfl⟩ : n = 0 ∧ m = 0 := by
        clear written below value value' xCut yCut
        omega
      refine .inr ⟨⟨?_, ?_⟩, ⟨?_, ?_⟩, ?_, ?_⟩
      all_goals
        clear written below value value'
        omega
  · intro safe mem addr changed
    unfold write at changed
    split at changed
    next below =>
      have below := written.mp below
      rcases safe with beyond | ⟨⟨xSame, ySame⟩, xOn, yOn⟩
      · omega
      · have there : addr = call.off := by
          by_contra other
          exact changed (Function.update_of_ne other _ _)
        refine ⟨⟨?_, ?_, ?_, ?_⟩, ?_⟩
        · rw [← xSame]; exact xOn.1
        · rw [← xSame]; exact xOn.2
        · rw [← ySame]; exact yOn.1
        · rw [← ySame]; exact yOn.2
        · rw [there, off_eq, Call.addr, xSame, ySame]
    · exact absurd rfl changed

theorem writePixel_confined {x y : Num} (color : Byte) (near : Call.Near ⟨x, y, color⟩) :
    (writePixel x y color).Always Call.Confined ↔ PixelSafe x y := by
  rw [writePixel, Prog.always_emit]
  exact Call.confined_iff near

section Lines

def Num.Small (n : Num) : Prop := 0 ≤ n.val ∧ n.val < 65536

theorem Num.small_u16 (n : Num) : n.u16.Small := by
  unfold Num.Small
  rw [val_u16]
  omega

def Num.after (n : Num) (k : Nat) : Num := (n + .ofInt k).u16

theorem iterate_eq_after {n : Num} (small : n.Small) (k : Nat) :
    (fun i : Num => (i + 1).u16)^[k] n = n.after k := by
  obtain ⟨low, high⟩ := small
  induction k with
  | zero =>
    ext
    · simp [Num.after]
      omega
    · simp [Num.after]
  | succ k ih =>
    rw [Function.iterate_succ_apply', ih]
    ext
    · simp [Num.after]
      omega
    · simp [Num.after]
      omega

variable {first last : Num} {body : Num → Drawing}

theorem rounds_forU16 (start : first.Small) (stop : last.Small) (k : Nat) :
    (∀ j, j ≤ k → (first.after j).val ≤ last.val) ↔ last.val = 65535 ∨ first.val + k ≤ last.val := by
  obtain ⟨low, high⟩ := start
  obtain ⟨low', high'⟩ := stop
  simp only [Num.after, Num.val_u16, Num.val_add, Num.val_ofInt]
  constructor
  · intro goes
    by_contra ends
    have now := goes 0 (Nat.zero_le k)
    have beyond := goes (last.val + 1 - first.val).toNat (by omega)
    omega
  · intro goes j le
    omega

theorem always_forU16 (start : first.Small) (stop : last.Small) (returns : ∀ i, (body i).Returns ())
    {P : Call → Prop} :
    (forU16 first last body).Always P ↔
      ∀ k : Nat, last.val = 65535 ∨ first.val + k ≤ last.val → (body (first.after k)).Always P := by
  rw [forU16, Prog.always_loop]
  simp only [iterate_eq_after start, decide_eq_true_eq, rounds_forU16 start stop]
  exact forall_congr' fun k => forall_congr' fun _ =>
    ⟨fun all => all fun _ _ => returns _, fun one _ => one⟩

theorem returns_forU16 (start : first.Small) (stop : last.Small) (returns : ∀ i, (body i).Returns ()) :
    (forU16 first last body).Returns () ↔ last.val ≠ 65535 := by
  obtain ⟨low', high'⟩ := stop
  obtain ⟨low, high⟩ := start
  rw [forU16, Prog.returns_loop]
  simp only [iterate_eq_after ⟨low, high⟩, decide_eq_true_eq, decide_eq_false_iff_not]
  constructor
  · rintro ⟨k, ends, -⟩ endless
    simp only [Num.after, Num.val_u16, Num.val_add, Num.val_ofInt] at ends
    omega
  · intro ends
    refine ⟨(last.val + 1 - first.val).toNat, ?_, fun j before => ⟨?_, returns _⟩⟩
    all_goals
      simp only [Num.after, Num.val_u16, Num.val_add, Num.val_ofInt]
      omega

def RowSafe (x1 y x2 : Num) : Prop :=
  if x2.val = 65535 then 205 ≤ y.val
  else x2.val < x1.val ∨ 65535 ≤ 320 * y.val + x1.val ∨
    (x1.val = x1.exact ∧ y.val = y.exact) ∧ x2.val < 320 ∧ y.val < 200

def ColumnSafe (x y1 y2 : Num) : Prop :=
  if y2.val = 65535 then x.val = 65535
  else y2.val < y1.val ∨ 65535 ≤ 320 * y1.val + x.val ∨
    (x.val = x.exact ∧ y1.val = y1.exact) ∧ x.val < 320 ∧ y2.val < 200

theorem rowSafe_iff {x1 y x2 : Num} (xSmall : x1.Small) (xSmall' : x2.Small) (ySmall : y.Small) :
    (∀ k : Nat, x2.val = 65535 ∨ x1.val + k ≤ x2.val → PixelSafe (x1.after k) y) ↔ RowSafe x1 y x2 := by
  obtain ⟨low, high⟩ := xSmall
  obtain ⟨low', high'⟩ := xSmall'
  obtain ⟨yLow, yHigh⟩ := ySmall
  simp only [PixelSafe, RowSafe, Num.after, Num.val_u16, Num.val_add, Num.val_ofInt, Num.exact_u16,
    Num.exact_add, Num.exact_ofInt]
  split
  next endless =>
    constructor
    · -- The loop comes to the columns 0 and 320.
      intro all
      have zero := all (65536 - x1.val).toNat (.inl endless)
      have right := all (65536 + 320 - x1.val).toNat (.inl endless)
      omega
    · intro below k _
      omega
  next ends =>
    constructor
    · intro all
      by_cases empty : x2.val < x1.val
      · exact .inl empty
      · have first := all 0 (.inr (by omega))
        have last := all (x2.val - x1.val).toNat (.inr (by omega))
        -- A line that leaves the screen passes the column 320.
        by_cases wide : x1.val < 320 ∧ 320 ≤ x2.val
        · have edge := all (320 - x1.val).toNat (.inr (by omega))
          omega
        · omega
    · intro safe k inside
      omega

theorem columnSafe_iff {x y1 y2 : Num} (xSmall : x.Small) (ySmall : y1.Small) (ySmall' : y2.Small) :
    (∀ k : Nat, y2.val = 65535 ∨ y1.val + k ≤ y2.val → PixelSafe x (y1.after k)) ↔
    ColumnSafe x y1 y2 := by
  obtain ⟨low, high⟩ := xSmall
  obtain ⟨yLow, yHigh⟩ := ySmall
  obtain ⟨yLow', yHigh'⟩ := ySmall'
  simp only [PixelSafe, ColumnSafe, Num.after, Num.val_u16, Num.val_add, Num.val_ofInt,
    Num.exact_u16, Num.exact_add, Num.exact_ofInt]
  split
  next endless =>
    constructor
    · -- The loop comes to the lines 0 and 200.
      intro all
      have zero := all (65536 - y1.val).toNat (.inl endless)
      have bottom := all (65536 + 200 - y1.val).toNat (.inl endless)
      omega
    · intro right k _
      omega
  next ends =>
    constructor
    · intro all
      by_cases empty : y2.val < y1.val
      · exact .inl empty
      · have first := all 0 (.inr (by omega))
        have last := all (y2.val - y1.val).toNat (.inr (by omega))
        by_cases tall : y1.val < 200 ∧ 200 ≤ y2.val
        · have edge := all (200 - y1.val).toNat (.inr (by omega))
          omega
        · omega
    · intro safe k inside
      omega

structure Line where
  x1 : Num
  y1 : Num
  x2 : Num
  y2 : Num

def line (x1 y1 x2 y2 : Num) : Line := ⟨x1.u16, y1.u16, x2.u16, y2.u16⟩

namespace Line

def Safe (l : Line) : Prop :=
  if l.y1.val = l.y2.val then RowSafe l.x1 l.y1 l.x2
  else if l.x1.val = l.x2.val then ColumnSafe l.x1 l.y1 l.y2
  else True

def Returns (l : Line) : Prop :=
  if l.y1.val = l.y2.val then l.x2.val ≠ 65535
  else if l.x1.val = l.x2.val then l.y2.val ≠ 65535
  else True

end Line

theorem writePixel_returns (x y : Num) (color : Byte) : (writePixel x y color).Returns () :=
  Prog.returns_emit _

theorem near_of_small {x y : Num} (xSmall : x.Small) (ySmall : y.Small) (color : Byte) :
    Call.Near ⟨x, y, color⟩ := by
  obtain ⟨low, high⟩ := xSmall
  obtain ⟨yLow, yHigh⟩ := ySmall
  simp only [Call.Near]
  omega

theorem drawLine_confined (x1 y1 x2 y2 : Num) (color : Byte) :
    (drawLine x1 y1 x2 y2 color).Always Call.Confined ↔ (line x1 y1 x2 y2).Safe := by
  have pixel : ∀ x y : Num, x.Small → y.Small →
      ((writePixel x y color).Always Call.Confined ↔ PixelSafe x y) :=
    fun x y xSmall ySmall => writePixel_confined color (near_of_small xSmall ySmall color)
  unfold drawLine drawLine16 Line.Safe line
  dsimp only
  split
  · rw [always_forU16 x1.small_u16 x2.small_u16 fun _ => writePixel_returns _ _ _,
      ← rowSafe_iff x1.small_u16 x2.small_u16 y1.small_u16]
    exact forall_congr' fun k => imp_congr_right fun _ => pixel _ _ (Num.small_u16 _) y1.small_u16
  · split
    · rw [always_forU16 y1.small_u16 y2.small_u16 fun _ => writePixel_returns _ _ _,
        ← columnSafe_iff x1.small_u16 y1.small_u16 y2.small_u16]
      exact forall_congr' fun k => imp_congr_right fun _ => pixel _ _ x1.small_u16 (Num.small_u16 _)
    · exact Prog.always_pure ()

theorem drawLine_returns (x1 y1 x2 y2 : Num) (color : Byte) :
    (drawLine x1 y1 x2 y2 color).Returns () ↔ (line x1 y1 x2 y2).Returns := by
  unfold drawLine drawLine16 Line.Returns line
  dsimp only
  split
  · exact returns_forU16 x1.small_u16 x2.small_u16 fun _ => writePixel_returns _ _ _
  · split
    · exact returns_forU16 y1.small_u16 y2.small_u16 fun _ => writePixel_returns _ _ _
    · exact iff_of_true ((Prog.returns_pure () ()).mpr rfl) trivial

def LinesSafe : List Line → Prop
  | [] => True
  | l :: ls => l.Safe ∧ (l.Returns → LinesSafe ls)

def LinesReturn (ls : List Line) : Prop := ∀ l ∈ ls, l.Returns

end Lines

section Rounds

def fillLines (xc yc x y : Num) : List Line :=
  [line (xc - x + 1) (yc + y - 1) (xc + x - 1) (yc + y - 1),
    line (xc - x + 1) (yc - y + 1) (xc + x - 1) (yc - y + 1),
    line (xc - y + 1) (yc + x - 1) (xc + y - 1) (yc + x - 1),
    line (xc - y + 1) (yc - x + 1) (xc + y - 1) (yc - x + 1)]

theorem fillShape_confined (xc yc x y : Num) (color : Byte) :
    (fillShape xc yc x y color).Always Call.Confined ↔ LinesSafe (fillLines xc yc x y) := by
  simp only [fillShape, Prog.always_then, drawLine_confined, drawLine_returns, fillLines, LinesSafe,
    imp_true_iff, and_true]

theorem fillShape_returns (xc yc x y : Num) (color : Byte) :
    (fillShape xc yc x y color).Returns () ↔ LinesReturn (fillLines xc yc x y) := by
  simp only [fillShape, Prog.returns_then, drawLine_returns, fillLines, LinesReturn, List.forall_mem_cons,
    List.not_mem_nil, false_imp_iff, imp_true_iff, and_true]

def dots (xc yc x y : Num) : List (Num × Num) :=
  [(xc + x, yc + y), (xc - x, yc + y), (xc + x, yc - y), (xc - x, yc - y),
    (xc + y, yc + x), (xc - y, yc + x), (xc + y, yc - x), (xc - y, yc - x)]

def DotsSafe (xc yc x y : Num) : Prop := ∀ p ∈ dots xc yc x y, PixelSafe p.1 p.2

def Num.Close (n : Num) : Prop := -65536 ≤ n.val ∧ n.val ≤ 65536

variable {xc yc x y : Num}

theorem near_of_close (xcSmall : xc.Small) (ycSmall : yc.Small) (xClose : x.Close) (yClose : y.Close)
    (color : Byte) : ∀ p ∈ dots xc yc x y, Call.Near ⟨p.1, p.2, color⟩ := by
  obtain ⟨xcLow, xcHigh⟩ := xcSmall
  obtain ⟨ycLow, ycHigh⟩ := ycSmall
  obtain ⟨xLow, xHigh⟩ := xClose
  obtain ⟨yLow, yHigh⟩ := yClose
  simp only [dots, List.forall_mem_cons, List.not_mem_nil, false_imp_iff, imp_true_iff, and_true,
    Call.Near, Num.val_add, Num.val_sub]
  refine ⟨?_, ?_, ?_, ?_, ?_, ?_, ?_, ?_⟩
  all_goals omega

theorem drawDots_confined (xcSmall : xc.Small) (ycSmall : yc.Small) (xClose : x.Close) (yClose : y.Close)
    (color : Byte) : (drawDots xc yc x y color).Always Call.Confined ↔ DotsSafe xc yc x y := by
  have pixel : ∀ p ∈ dots xc yc x y,
    ((writePixel p.1 p.2 color).Always Call.Confined ↔ PixelSafe p.1 p.2) :=
    fun p member => writePixel_confined color (near_of_close xcSmall ycSmall xClose yClose color p member)
  rw [DotsSafe, ← forall₂_congr pixel]
  simp only [drawDots, Prog.always_then, writePixel_returns, forall_const, dots, List.forall_mem_cons,
    List.not_mem_nil, false_imp_iff, and_true]

theorem drawDots_returns (xc yc x y : Num) (color : Byte) : (drawDots xc yc x y color).Returns () := by
  simp only [drawDots, Prog.returns_then, writePixel_returns, and_self]

def RoundSafe (xc yc : Num) (fillColor : Word) (x y : Num) : Prop :=
  DotsSafe xc yc x y ∧ (fillColor ≠ vgaNoColor → LinesSafe (fillLines xc yc x y))

def RoundReturns (xc yc : Num) (fillColor : Word) (x y : Num) : Prop :=
  fillColor ≠ vgaNoColor → LinesReturn (fillLines xc yc x y)

theorem drawRound_confined (xcSmall : xc.Small) (ycSmall : yc.Small) (xClose : x.Close) (yClose : y.Close)
    (fillColor : Word) (borderColor : Byte) :
    (drawRound xc yc fillColor borderColor x y).Always Call.Confined ↔ RoundSafe xc yc fillColor x y := by
  rw [drawRound, Prog.always_then, drawDots_confined xcSmall ycSmall xClose yClose, RoundSafe]
  apply and_congr_right
  intro _
  split
  next fills => simp [drawDots_returns, fillShape_confined, fills]
  next plain => simp [plain]

theorem drawRound_returns (fillColor : Word) (borderColor : Byte) :
    (drawRound xc yc fillColor borderColor x y).Returns () ↔ RoundReturns xc yc fillColor x y := by
  rw [drawRound, Prog.returns_then, RoundReturns]
  split
  next fills => simp [drawDots_returns, fillShape_returns, fills]
  next plain => simp [drawDots_returns, plain]

end Rounds

end Jos.Kern.Vga
