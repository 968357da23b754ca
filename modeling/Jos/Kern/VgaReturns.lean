import Jos.Kern.VgaShapes

namespace Jos.Kern.Vga

open Jos.Shared

theorem linesReturn_iff (xc yc x y : Num) : LinesReturn (fillLines xc yc x y) ↔
    (xc.val + x.val) % 65536 ≠ 0 ∧ (xc.val + y.val) % 65536 ≠ 0 := by
  simp only [LinesReturn, fillLines, List.forall_mem_cons, List.not_mem_nil, false_imp_iff,
    imp_true_iff, and_true, Line.Returns, line, if_true, Num.val_u16, Num.val_add, Num.val_sub,
    Num.val_one]
  omega

-- The shapes with a middle and a radius around it: the fill color, if any, reaches neither column 0
-- nor column 65536.
def Round.FillEnds (round : Round) : Prop :=
  round.fillColor = vgaNoColor ∨ 0 < round.x.toNat ∧ round.x.toNat + round.radius.toNat < 65536

section Circle

theorem exists_height {r : Int} {n : Nat} {m : Int} (low : height r n ≤ m) (high : m ≤ r) :
    ∃ k, k ≤ n ∧ height r k = m := by
  induction n with
  | zero => exact ⟨0, Nat.le_refl 0, Int.le_antisymm low high⟩
  | succ n ih =>
    by_cases before : height r n ≤ m
    · obtain ⟨k, le, same⟩ := ih before
      exact ⟨k, by omega, same⟩
    · have ge := height_succ_ge r n
      exact ⟨n + 1, Nat.le_refl _, by omega⟩

theorem octant_ends (r : Nat) : ∃ n : Nat, height r n < n ∧ ∀ j : Nat, j < n → j ≤ height r j := by
  have ends : ∃ n : Nat, height r n < n := by
    have le := height_le r (r + 1)
    exact ⟨r + 1, by omega⟩
  refine ⟨Nat.find ends, Nat.find_spec ends, fun j before => ?_⟩
  exact not_lt.mp (Nat.find_min ends before)

theorem drawCircle_returns_iff (circle : Round) (borderColor : Byte) :
    (drawCircle circle borderColor).Returns () ↔
      ∃ n : Nat, height circle.radius.toNat n < n ∧
      (∀ j : Nat, j < n → j ≤ height circle.radius.toNat j) ∧
        ∀ j : Nat, j ≤ n → RoundReturns (.ofU16 circle.x) (.ofU16 circle.y) circle.fillColor (.ofInt j)
          (.ofInt (height circle.radius.toNat j)) := by
  refine (Prog.returns_rounds fun o : Octant => drawRound _ _ _ _ (.ofInt o.x2) (.ofInt o.y2)).trans ?_
  simp only [octant_eq, decide_eq_true_eq, decide_eq_false_iff_not, not_le, drawRound_returns]

def Round.CircleEnds (circle : Round) : Prop :=
  if circle.radius.toNat = 0 then circle.fillColor = vgaNoColor ∨ 1 < circle.x.toNat ∧
    circle.x.toNat < 65535
  else circle.FillEnds

theorem drawCircle_returns (circle : Round) (borderColor : Byte) :
    (drawCircle circle borderColor).Returns () ↔ circle.CircleEnds := by
  rw [drawCircle_returns_iff]
  have small := circle.x.isLt
  obtain ⟨n, ends, goes⟩ := octant_ends circle.radius.toNat
  -- The octant ends after `n` rounds whatever is filled, so that this is the number to look at.
  have unique : ∀ n' : Nat, height circle.radius.toNat n' < n' →
      (∀ j : Nat, j < n' → j ≤ height circle.radius.toNat j) → n' = n := by
    intro n' ends' goes'
    by_contra other
    rcases Nat.lt_or_gt_of_ne other with less | more
    · exact absurd (goes n' less) (by omega)
    · exact absurd (goes' n more) (by omega)
  have rounds : (∃ n : Nat, height circle.radius.toNat n < n ∧
      (∀ j : Nat, j < n → j ≤ height circle.radius.toNat j) ∧ ∀ j : Nat, j ≤ n →
        RoundReturns (.ofU16 circle.x) (.ofU16 circle.y) circle.fillColor (.ofInt j)
          (.ofInt (height circle.radius.toNat j))) ↔
      ∀ j : Nat, j ≤ n → circle.fillColor ≠ vgaNoColor →
        ((circle.x.toNat : Int) + j) % 65536 ≠ 0 ∧
          ((circle.x.toNat : Int) + height circle.radius.toNat j) % 65536 ≠ 0 := by
    simp only [RoundReturns, linesReturn_iff, Num.ofU16, Num.val_ofInt]
    constructor
    · rintro ⟨n', ends', goes', all⟩
      rw [unique n' ends' goes'] at all
      exact all
    · intro all
      exact ⟨n, ends, goes, all⟩
  rw [rounds, Round.CircleEnds]
  split
  next point =>
    rw [point] at ends goes ⊢
    have one : height (0 : Nat) 1 = -1 := by decide
    obtain rfl : n = 1 := by
      by_contra other
      rcases Nat.lt_or_gt_of_ne other with less | more
      · obtain rfl : n = 0 := by omega
        exact absurd ends (by decide)
      · exact absurd (goes 1 more) (by rw [one]; decide)
    constructor
    · intro all
      by_cases plain : circle.fillColor = vgaNoColor
      · exact .inl plain
      · have first := (all 0 (by omega) plain).1
        have second := all 1 (by omega) plain
        rw [one] at second
        right
        omega
    · intro inside j le fills
      obtain ⟨left, right⟩ := inside.resolve_left fills
      obtain rfl | rfl : j = 0 ∨ j = 1 := by omega
      · rw [show height (0 : Nat) 0 = 0 from rfl]
        omega
      · rw [one]
        omega
  next positive =>
    rw [Round.FillEnds]
    constructor
    · intro all
      by_cases plain : circle.fillColor = vgaNoColor
      · exact .inl plain
      · have first := (all 0 (by omega) plain).1
        refine .inr ⟨by omega, ?_⟩
        -- Every column up to the radius is that of a point, or its height is.
        by_contra wide
        obtain ⟨m, sum, le⟩ : ∃ m : Nat, circle.x.toNat + m = 65536 ∧ m ≤ circle.radius.toNat :=
          ⟨65536 - circle.x.toNat, by omega, by omega⟩
        by_cases early : m ≤ n
        · have here := (all m early plain).1
          omega
        · obtain ⟨k, before, same⟩ := exists_height (r := circle.radius.toNat) (n := n)
            (m := m) (by omega) (by omega)
          have here := (all k before plain).2
          rw [same] at here
          omega
    · intro inside j le fills
      obtain ⟨left, right⟩ := inside.resolve_left fills
      obtain ⟨column, low⟩ := height_bounds (k := j) (by omega) fun i lt => goes i (by omega)
      have high := height_le circle.radius.toNat j
      omega

end Circle

section Diamond

def Round.FewRounds (diamond : Round) : Prop :=
  ∀ k : Nat, (∀ j : Nat, j < k → (Edge.next^[j] (.start diamond.radius)).x2.val ≤
    (Edge.next^[j] (.start diamond.radius)).y2.val) → k ≤ diamond.radius.toNat + 1

theorem drawDiamond_returns_iff (diamond : Round) (borderColor : Byte) :
    (drawDiamond diamond borderColor).Returns () ↔
      ∃ n : Nat, (edge diamond.radius n).y2.val < (edge diamond.radius n).x2.val ∧
        (∀ j : Nat, j < n → (edge diamond.radius j).x2.val ≤ (edge diamond.radius j).y2.val) ∧
        ∀ j : Nat, j ≤ n → RoundReturns (.ofU16 diamond.x) (.ofU16 diamond.y) diamond.fillColor
          (edge diamond.radius j).x2 (edge diamond.radius j).y2 := by
  refine (Prog.returns_rounds fun e : Edge => drawRound _ _ _ _ e.x2 e.y2).trans ?_
  simp only [edge_eq, decide_eq_true_eq, decide_eq_false_iff_not, not_le, drawRound_returns]

theorem fewRounds_iff (diamond : Round) : diamond.FewRounds ↔ diamond.radius.toNat ≠ 0 := by
  have small := diamond.radius.isLt
  simp only [Round.FewRounds, edge_eq, edge, Num.ofU16, Num.val_u16, Num.val_sub, Num.val_ofInt]
  constructor
  · intro few point
    have more := few 2 fun j lt => by omega
    omega
  · intro positive k goes
    by_contra more
    have last := goes (diamond.radius.toNat / 2 + 1) (by omega)
    omega

def Round.DiamondEnds (diamond : Round) : Prop := diamond.radius.toNat ≠ 0 ∧ diamond.FillEnds

theorem drawDiamond_returns (diamond : Round) (borderColor : Byte) (positive : diamond.radius.toNat ≠ 0) :
    (drawDiamond diamond borderColor).Returns () ↔ diamond.FillEnds := by
  have radius := diamond.radius.isLt
  have small := diamond.x.isLt
  rw [drawDiamond_returns_iff]
  simp only [RoundReturns, linesReturn_iff, edge, Num.ofU16, Num.val_u16, Num.val_sub, Num.val_ofInt]
  rw [Round.FillEnds]
  constructor
  · rintro ⟨n, ends, goes, all⟩
    by_cases plain : diamond.fillColor = vgaNoColor
    · exact .inl plain
    · have first := (all 0 (by omega) plain).1
      refine .inr ⟨by omega, ?_⟩
      by_contra wide
      obtain ⟨m, sum, le⟩ : ∃ m : Nat, diamond.x.toNat + m = 65536 ∧ m ≤ diamond.radius.toNat :=
        ⟨65536 - diamond.x.toNat, by omega, by omega⟩
      have far : diamond.radius.toNat / 2 + 1 ≤ n := by
        by_contra less
        omega
      by_cases early : m ≤ n
      · have here := (all m early plain).1
        omega
      · have here := (all (diamond.radius.toNat - m) (by omega) plain).2
        omega
  · intro inside
    refine ⟨diamond.radius.toNat / 2 + 1, by omega, fun j lt => by omega, fun j le fills => ?_⟩
    obtain ⟨left, right⟩ := inside.resolve_left fills
    omega

end Diamond

section Rectangles

def Rectangle.Ends (rectangle : Rectangle) : Prop :=
  let x := rectangle.x.toNat
  let y := rectangle.y.toNat
  let right := x + rectangle.width.toNat
  let bottom := y + rectangle.height.toNat
  right % 65536 ≠ 65535 ∧ (if rectangle.height.toNat = 0 then x ≠ 65535 else bottom % 65536 ≠ 65535) ∧
    (rectangle.fillColor = vgaNoColor ∨
      bottom < 65536 ∧ (right % 65536 = 0 → bottom ≤ (y + 1) % 65536))

theorem borders_return (rectangle : Rectangle) : LinesReturn rectangle.borders ↔
    (rectangle.x.toNat + rectangle.width.toNat) % 65536 ≠ 65535 ∧
      if rectangle.height.toNat = 0 then rectangle.x.toNat ≠ 65535
      else (rectangle.y.toNat + rectangle.height.toNat) % 65536 ≠ 65535 := by
  have x := rectangle.x.isLt
  have y := rectangle.y.isLt
  have height := rectangle.height.isLt
  simp only [LinesReturn, Rectangle.borders, List.forall_mem_cons, List.not_mem_nil, false_imp_iff,
    imp_true_iff, and_true, Line.Returns, line, if_true, Num.val_u16, Rectangle.left,
    Rectangle.right, Rectangle.top,
    Rectangle.bottom, Num.ofU16, Num.val_add, Num.val_ofInt]
  by_cases flat : rectangle.height.toNat = 0
  · rw [flat, if_pos rfl, if_pos (by omega), if_pos (by omega)]
    omega
  · rw [if_neg flat, if_neg (by omega), if_neg (by omega)]
    omega

theorem filling_returns (rectangle : Rectangle) :
    (∃ k, ¬(rectangle.row k).val < rectangle.bottom.val ∧
        ∀ j, j < k → (rectangle.row j).val < rectangle.bottom.val ∧ (rectangle.filling j).Returns) ↔
      rectangle.y.toNat + rectangle.height.toNat < 65536 ∧
        ((rectangle.x.toNat + rectangle.width.toNat) % 65536 = 0 →
          rectangle.y.toNat + rectangle.height.toNat ≤ (rectangle.y.toNat + 1) % 65536) := by
  have y := rectangle.y.isLt
  simp only [Rectangle.filling, Line.Returns, line, if_true, Rectangle.row, Num.after,
    Rectangle.left, Rectangle.right, Rectangle.top, Rectangle.bottom, Num.ofU16, Num.val_u16,
    Num.val_add, Num.val_sub, Num.val_ofInt, Num.val_one]
  constructor
  · rintro ⟨k, ends, goes⟩
    refine ⟨by omega, fun edge => ?_⟩
    by_contra some
    have first := goes 0 (by omega)
    omega
  · rintro ⟨above, edge⟩
    by_cases none : rectangle.y.toNat + rectangle.height.toNat ≤ (rectangle.y.toNat + 1) % 65536
    · exact ⟨0, by omega, by rintro _ ⟨⟩⟩
    · refine ⟨rectangle.y.toNat + rectangle.height.toNat - (rectangle.y.toNat + 1) %
        65536, by omega, fun j lt => ?_⟩
      omega

theorem drawRectangle_returns (rectangle : Rectangle) (borderColor : Byte) :
    (drawRectangle rectangle borderColor).Returns () ↔ rectangle.Ends := by
  have rows : ∀ k, (fun i : Num => (i + 1).u16)^[k] (rectangle.top + 1).u16 = rectangle.row k :=
    iterate_eq_after (Num.small_u16 _)
  have drawn : (drawRectangle rectangle borderColor).Returns () ↔ LinesReturn rectangle.borders ∧
      (rectangle.fillColor ≠ vgaNoColor → ∃ k, ¬(rectangle.row k).val < rectangle.bottom.val ∧
        ∀ j, j < k → (rectangle.row j).val < rectangle.bottom.val ∧ (rectangle.filling j).Returns) := by
    simp only [LinesReturn, Rectangle.borders, List.forall_mem_cons, List.not_mem_nil,
      false_imp_iff, imp_true_iff, and_true, and_assoc]
    refine (Prog.returns_then _ _ _).trans (and_congr (drawLine_returns _ _ _ _ _) ?_)
    refine (Prog.returns_then _ _ _).trans (and_congr (drawLine_returns _ _ _ _ _) ?_)
    refine (Prog.returns_then _ _ _).trans (and_congr (drawLine_returns _ _ _ _ _) ?_)
    refine (Prog.returns_then _ _ _).trans (and_congr (drawLine_returns _ _ _ _ _) ?_)
    split
    next fills =>
      rw [forall_prop_of_true fills]
      refine Prog.returns_loop.trans
        (exists_congr fun k => and_congr ?_ (forall₂_congr fun j _ => and_congr ?_ ?_))
      · rw [← rows k]
        exact decide_eq_false_iff_not
      · rw [← rows j]
        exact decide_eq_true_iff
      · rw [Rectangle.filling, ← rows j]
        exact drawLine_returns _ _ _ _ _
    next plain => exact iff_of_true ((Prog.returns_pure () ()).mpr rfl) fun fills => absurd fills plain
  rw [drawn, borders_return, filling_returns, and_assoc]
  exact and_congr_right' (and_congr_right' or_iff_not_imp_left.symm)

end Rectangles

theorem drawString_returns {y : Num} (ySmall : y.Small) (x : Num) (str : List Byte) (color : Byte) :
    (drawString x y str color).Returns () := by
  induction str generalizing x with
  | nil => exact (Prog.returns_pure () ()).mpr rfl
  | cons ch rest ih =>
    rw [drawString, Prog.returns_then]
    exact ⟨drawChar_returns ySmall x ch color, ih _⟩

theorem line_returns (x1 y1 x2 y2 : BitVec 16) :
    (line (.ofU16 x1) (.ofU16 y1) (.ofU16 x2) (.ofU16 y2)).Returns ↔
    if y1 = y2 then x2.toNat ≠ 65535 else x1 = x2 → y2.toNat ≠ 65535 := by
  have value : ∀ n : BitVec 16, (Num.ofU16 n).u16.val = n.toNat := by
    intro n
    have small := n.isLt
    simp only [Num.ofU16, Num.val_u16, Num.val_ofInt]
    omega
  have same : ∀ n m : BitVec 16, (Num.ofU16 n).u16.val = (Num.ofU16 m).u16.val ↔ n = m := by
    intro n m
    rw [value, value, Nat.cast_inj, BitVec.toNat_inj]
  have last : ∀ n : BitVec 16, (Num.ofU16 n).u16.val ≠ 65535 ↔ n.toNat ≠ 65535 := by
    intro n
    rw [value]
    omega
  unfold Line.Returns line
  dsimp only
  by_cases level : y1 = y2
  · rw [if_pos level, if_pos ((same y1 y2).mpr level)]
    exact last x2
  · rw [if_neg level, if_neg (mt (same y1 y2).mp level)]
    by_cases upright : x1 = x2
    · rw [if_pos ((same x1 x2).mpr upright), forall_prop_of_true upright]
      exact last y2
    · rw [if_neg (mt (same x1 x2).mp upright)]
      exact iff_of_true trivial fun here => absurd here upright

def DrawType.Ends (shape : DrawType) : Prop :=
  if shape.shape = 0 then shape.round.CircleEnds
  else if shape.shape = 3 then shape.round.DiamondEnds
  else if shape.shape = 1 then
    if high shape.u0 = high shape.u1 then (low shape.u1).toNat ≠ 65535
    else low shape.u0 = low shape.u1 → (high shape.u1).toNat ≠ 65535
  else if shape.shape = 2 then shape.rectangle.Ends
  else True

theorem draw_terminates_iff (shape : DrawType) (str : List Byte) :
    (sysDraw shape str).Returns () ∧ (shape.shape = 3 → shape.round.FewRounds) ↔ shape.Ends := by
  unfold sysDraw DrawType.Ends
  dsimp only
  split
  next circle =>
    rw [drawCircle_returns, circle]
    exact and_iff_left fun other => absurd other (by decide)
  split
  next diamond =>
    rw [fewRounds_iff, Round.DiamondEnds, forall_prop_of_true diamond, and_comm]
    exact and_congr_right fun positive => drawDiamond_returns _ _ positive
  next others =>
    rw [and_iff_left fun diamond => absurd diamond others]
    split
    · rw [drawLine_returns]
      exact line_returns _ _ _ _
    split
    · exact drawRectangle_returns _ _
    split
    · exact iff_of_true (drawString_returns (Num.small_ofU16 _) _ _ _) trivial
    · exact iff_of_true ((Prog.returns_pure () ()).mpr rfl) trivial

-- A line of one pixel, in the last column there is.
theorem line_never_ends : ¬(sysDraw ⟨1, 4, 0x0000FFFF, 0x0000FFFF, 16⟩ []).Returns () := by
  unfold sysDraw
  rw [if_neg (by decide), if_neg (by decide), if_pos (by decide), drawLine_returns, line_returns]
  decide

end Jos.Kern.Vga
