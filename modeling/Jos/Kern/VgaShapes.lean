import Jos.Kern.VgaConfined

namespace Jos.Kern.Vga

open Jos.Shared
open Function

theorem Num.small_ofU16 (n : BitVec 16) : (Num.ofU16 n).Small := by
  simp only [Small, ofU16, val_ofInt]
  omega

-- The square around the circle or diamond is on the screen, and there is one.
def Round.OnScreen (round : Round) : Prop :=
  1 ≤ round.radius.toNat ∧
    (round.radius.toNat ≤ round.x.toNat ∧ round.x.toNat + round.radius.toNat < 320) ∧
    round.radius.toNat ≤ round.y.toNat ∧ round.y.toNat + round.radius.toNat < 200

theorem linesSafe_of_forall {ls : List Line} (all : ∀ l ∈ ls, l.Safe) : LinesSafe ls := by
  induction ls with
  | nil => trivial
  | cons l ls ih =>
    rw [List.forall_mem_cons] at all
    exact ⟨all.1, fun _ => ih all.2⟩

theorem row_safe {x1 y x2 : Num} (xSame : x1.val = x1.exact) (ySame : y.val = y.exact)
    (start : 0 ≤ x1.val ∧ x1.val ≤ 320) (stop : 0 ≤ x2.val ∧ x2.val < 320)
    (row : 0 ≤ y.val ∧ y.val < 200) : (line x1 y x2 y).Safe := by
  unfold Line.Safe RowSafe line
  rw [if_pos rfl, if_neg (by rw [Num.val_u16]; omega)]
  simp only [Num.val_u16, Num.exact_u16]
  omega

theorem roundSafe_of_onScreen {round : Round} (within : round.OnScreen) {x y : Num}
    (xSame : x.val = x.exact) (ySame : y.val = y.exact)
    (xIn : 0 ≤ x.val ∧ x.val ≤ round.radius.toNat) (yIn : 0 ≤ y.val ∧ y.val ≤ round.radius.toNat)
    (fillColor : Word) : RoundSafe (.ofU16 round.x) (.ofU16 round.y) fillColor x y := by
  obtain ⟨positive, ⟨left, right⟩, top, bottom⟩ := within
  refine ⟨?_, fun _ => linesSafe_of_forall ?_⟩
  · simp only [DotsSafe, dots, List.forall_mem_cons, List.not_mem_nil, false_imp_iff, imp_true_iff,
      and_true, PixelSafe, Num.ofU16, Num.val_add, Num.val_sub, Num.val_ofInt, Num.exact_add,
      Num.exact_sub, Num.exact_ofInt]
    refine ⟨.inr ?_, .inr ?_, .inr ?_, .inr ?_, .inr ?_, .inr ?_, .inr ?_, .inr ?_⟩
    all_goals omega
  · simp only [fillLines, List.forall_mem_cons, List.not_mem_nil, false_imp_iff, imp_true_iff, and_true]
    refine ⟨row_safe ?_ ?_ ?_ ?_ ?_, row_safe ?_ ?_ ?_ ?_ ?_, row_safe ?_ ?_ ?_ ?_ ?_,
      row_safe ?_ ?_ ?_ ?_ ?_⟩
    all_goals
      simp only [Num.ofU16, Num.val_add, Num.val_sub, Num.val_ofInt, Num.val_one, Num.exact_add,
        Num.exact_sub, Num.exact_ofInt, Num.exact_one]
      omega

section Circle

def decision (r x y : Int) : Int := 2 * x * x + 8 * x + 2 * y * y - 6 * y + 3 + 4 * r - 2 * r * r

def height (r : Int) : Nat → Int
  | 0 => r
  | k + 1 => if 0 < decision r k (height r k) then height r k - 1 else height r k

theorem octant_eq (radius : BitVec 16) (k : Nat) :
    Octant.next^[k] (.start radius) =
      ⟨k, height radius.toNat k, decision radius.toNat k (height radius.toNat k)⟩ := by
  induction k with
  | zero =>
    simp only [iterate_zero, id_eq, Octant.start, height, decision, Octant.mk.injEq]
    refine ⟨rfl, trivial, ?_⟩
    push_cast
    ring
  | succ k ih =>
    rw [iterate_succ_apply', ih, Octant.next, height]
    dsimp only
    split
    · simp only [Octant.mk.injEq, decision]
      refine ⟨by push_cast; rfl, trivial, ?_⟩
      push_cast
      ring
    · simp only [Octant.mk.injEq, decision]
      refine ⟨by push_cast; rfl, trivial, ?_⟩
      push_cast
      ring

theorem height_le (r : Int) (k : Nat) : height r k ≤ r := by
  induction k with
  | zero => exact Int.le_refl r
  | succ k ih =>
    rw [height]
    split <;> omega

theorem height_succ_ge (r : Int) (k : Nat) : height r k - 1 ≤ height r (k + 1) := by
  rw [height]
  split <;> omega

def CircleSafe (circle : Round) : Prop :=
  ∀ k : Nat, (∀ j : Nat, j < k → j ≤ height circle.radius.toNat j ∧
      RoundReturns (.ofU16 circle.x) (.ofU16 circle.y) circle.fillColor (.ofInt j)
        (.ofInt (height circle.radius.toNat j))) →
    RoundSafe (.ofU16 circle.x) (.ofU16 circle.y) circle.fillColor (.ofInt k)
      (.ofInt (height circle.radius.toNat k))

theorem close_of_reached {radius : BitVec 16} {k : Nat}
    (reached : ∀ j : Nat, j < k → j ≤ height radius.toNat j) :
    (Num.ofInt k).Close ∧ (Num.ofInt (height radius.toNat k)).Close := by
  have top := height_le radius.toNat k
  simp only [Num.Close, Num.val_ofInt]
  cases k with
  | zero =>
    simp only [height]
    omega
  | succ k =>
    have last := reached k (by omega)
    have le := height_le radius.toNat k
    have ge := height_succ_ge radius.toNat k
    omega

theorem height_bounds {r k : Nat} (positive : 1 ≤ r) (reached : ∀ j : Nat, j < k → j ≤ height r j) :
    (k : Int) ≤ r ∧ 0 ≤ height r k := by
  cases k with
  | zero =>
    simp only [height]
    omega
  | succ k =>
    have last := reached k (by omega)
    have le := height_le r k
    have ge := height_succ_ge r k
    by_cases all : k = r
    · -- The circle would not have come down at all, but the point before was far outside.
      obtain ⟨n, rfl⟩ : ∃ n, k = n + 1 := ⟨k - 1, by omega⟩
      have before := height_le r n
      rw [height] at last
      split at last
      · omega
      next inside =>
        have top : height r n = r := by omega
        rw [top, decision, ← all] at inside
        push_cast at inside
        have square : 0 ≤ (n : Int) * n := Int.mul_nonneg (by omega) (by omega)
        ring_nf at inside
        ring_nf at square
        omega
    · have first : height r 0 = r := rfl
      cases k with
      | zero => omega
      | succ k => omega

theorem circleSafe_of_onScreen {circle : Round} (within : circle.OnScreen) : CircleSafe circle := by
  intro k reached
  obtain ⟨column, low⟩ := height_bounds within.1 fun j lt => (reached j lt).1
  exact roundSafe_of_onScreen within rfl rfl ⟨Int.natCast_nonneg k, column⟩ ⟨low, height_le _ _⟩ _

theorem drawCircle_confined (circle : Round) (borderColor : Byte) :
    (drawCircle circle borderColor).Always Call.Confined ↔ CircleSafe circle := by
  rw [CircleSafe]
  refine (Prog.always_rounds fun o : Octant => drawRound _ _ _ _ (.ofInt o.x2) (.ofInt o.y2)).trans ?_
  simp only [octant_eq, decide_eq_true_eq, drawRound_returns]
  apply forall_congr'
  intro k
  apply forall_congr'
  intro before
  obtain ⟨xClose, yClose⟩ := close_of_reached fun j lt => (before j lt).1
  exact drawRound_confined (Num.small_ofU16 _) (Num.small_ofU16 _) xClose yClose _ _

end Circle

section Diamond

def edge (radius : BitVec 16) (k : Nat) : Edge := ⟨(Num.ofInt k).u16, (Num.ofU16 radius - .ofInt k).u16⟩

theorem edge_eq (radius : BitVec 16) (k : Nat) : Edge.next^[k] (.start radius) = edge radius k := by
  have small := Num.small_ofU16 radius
  obtain ⟨low, high⟩ := small
  induction k with
  | zero =>
    simp only [iterate_zero, id_eq, Edge.start, edge, Edge.mk.injEq]
    refine ⟨rfl, ?_⟩
    ext
    · simp only [Num.val_u16, Num.val_sub, Num.val_ofInt]
      omega
    · simp
  | succ k ih =>
    rw [iterate_succ_apply', ih, Edge.next]
    simp only [edge, Edge.mk.injEq]
    refine ⟨?_, ?_⟩
    · ext
      · simp only [Num.val_u16, Num.val_add, Num.val_ofInt, Num.val_one]
        omega
      · simp only [Num.exact_u16, Num.exact_add, Num.exact_ofInt, Num.exact_one]
        omega
    · ext
      · simp only [Num.val_u16, Num.val_sub, Num.val_ofInt, Num.val_one]
        omega
      · simp only [Num.exact_u16, Num.exact_sub, Num.exact_ofInt, Num.exact_one]
        omega

def DiamondSafe (diamond : Round) : Prop :=
  ∀ k : Nat, (∀ j : Nat, j < k → (edge diamond.radius j).x2.val ≤ (edge diamond.radius j).y2.val ∧
      RoundReturns (.ofU16 diamond.x) (.ofU16 diamond.y) diamond.fillColor (edge diamond.radius j).x2
        (edge diamond.radius j).y2) →
    RoundSafe (.ofU16 diamond.x) (.ofU16 diamond.y) diamond.fillColor (edge diamond.radius k).x2
      (edge diamond.radius k).y2

theorem diamondSafe_of_onScreen {diamond : Round} (within : diamond.OnScreen) : DiamondSafe diamond := by
  intro k reached
  have small := diamond.radius.isLt
  have positive := within.1
  have goes : k ≤ diamond.radius.toNat / 2 + 1 := by
    by_contra beyond
    obtain ⟨last, -⟩ := reached (diamond.radius.toNat / 2 + 1) (by omega)
    simp only [edge, Num.ofU16, Num.val_u16, Num.val_sub, Num.val_ofInt] at last
    omega
  apply roundSafe_of_onScreen within
  all_goals
    simp only [edge, Num.ofU16, Num.val_u16, Num.exact_u16, Num.val_sub, Num.exact_sub,
      Num.val_ofInt, Num.exact_ofInt]
    omega

theorem Num.Small.close {n : Num} (small : n.Small) : n.Close := by
  obtain ⟨low, high⟩ := small
  unfold Close
  omega

theorem drawDiamond_confined (diamond : Round) (borderColor : Byte) :
    (drawDiamond diamond borderColor).Always Call.Confined ↔ DiamondSafe diamond := by
  rw [DiamondSafe]
  refine (Prog.always_rounds fun e : Edge => drawRound _ _ _ _ e.x2 e.y2).trans ?_
  simp only [edge_eq, decide_eq_true_eq, drawRound_returns]
  apply forall_congr'
  intro k
  apply forall_congr'
  intro _
  exact drawRound_confined (Num.small_ofU16 _) (Num.small_ofU16 _) (Num.small_u16 _).close
    (Num.small_u16 _).close _ _

end Diamond

namespace Rectangle

variable (rectangle : Rectangle)

def left : Num := .ofU16 rectangle.x
def top : Num := .ofU16 rectangle.y
def right : Num := rectangle.left + .ofU16 rectangle.width
def bottom : Num := rectangle.top + .ofU16 rectangle.height

def borders : List Line :=
  [line rectangle.left rectangle.top rectangle.left rectangle.bottom,
    line rectangle.left rectangle.top rectangle.right rectangle.top,
    line rectangle.right rectangle.top rectangle.right rectangle.bottom,
    line rectangle.left rectangle.bottom rectangle.right rectangle.bottom]

def row (k : Nat) : Num := (rectangle.top + 1).u16.after k

def filling (k : Nat) : Line :=
  line (rectangle.left + 1) (rectangle.row k) (rectangle.right - 1) (rectangle.row k)

def Safe : Prop :=
  LinesSafe rectangle.borders ∧
    (LinesReturn rectangle.borders → rectangle.fillColor ≠ vgaNoColor →
      ∀ k, (∀ j, j ≤ k → (rectangle.row j).val < rectangle.bottom.val) →
        (∀ j, j < k → (rectangle.filling j).Returns) → (rectangle.filling k).Safe)

end Rectangle

theorem lines_nil (rest : Prop) : LinesSafe [] ∧ (LinesReturn [] → rest) ↔ rest := by
  simp [LinesSafe, LinesReturn]

theorem lines_cons (l : Line) (ls : List Line) (rest : Prop) :
    LinesSafe (l :: ls) ∧ (LinesReturn (l :: ls) → rest) ↔
      l.Safe ∧ (l.Returns → LinesSafe ls ∧ (LinesReturn ls → rest)) := by
  simp only [LinesSafe, LinesReturn, List.forall_mem_cons]
  constructor
  · rintro ⟨⟨safe, more⟩, after⟩
    exact ⟨safe, fun ends => ⟨more ends, fun others => after ⟨ends, others⟩⟩⟩
  · rintro ⟨safe, more⟩
    exact ⟨⟨safe, fun ends => (more ends).1⟩, fun both => (more both.1).2 both.2⟩

theorem drawLine_then {x1 y1 x2 y2 : Num} {color : Byte} {next : Drawing} {p : Prop}
    (after : next.Always Call.Confined ↔ p) :
    (drawLine x1 y1 x2 y2 color >>= fun _ => next).Always Call.Confined ↔
      (line x1 y1 x2 y2).Safe ∧ ((line x1 y1 x2 y2).Returns → p) := by
  rw [Prog.always_then, drawLine_confined, drawLine_returns, after]

theorem drawRectangle_confined (rectangle : Rectangle) (borderColor : Byte) :
    (drawRectangle rectangle borderColor).Always Call.Confined ↔ rectangle.Safe := by
  have rows : ∀ k, (fun i : Num => (i + 1).u16)^[k] (rectangle.top + 1).u16 = rectangle.row k :=
    iterate_eq_after (Num.small_u16 _)
  rw [Rectangle.Safe, Rectangle.borders]
  simp only [lines_cons, lines_nil]
  iterate 4 refine drawLine_then ?_
  split
  next fills =>
    refine Prog.always_loop.trans ?_
    rw [forall_prop_of_true fills]
    apply forall_congr'
    intro k
    apply imp_congr
    · exact forall₂_congr fun j _ => by rw [← rows j]; exact decide_eq_true_iff
    apply imp_congr
    · exact forall₂_congr fun j _ => by rw [Rectangle.filling, ← rows j]; exact drawLine_returns _ _ _ _ _
    · rw [Rectangle.filling, ← rows k]
      exact drawLine_confined _ _ _ _ _
  next plain => exact iff_of_true ((Prog.always_pure ()).mpr trivial) fun fills => absurd fills plain

section Strings

def glyph (ch : Byte) : List Nat :=
  if 48 ≤ ch.toNat ∧ ch.toNat ≤ 57 then bitmaps09.getD (ch.toNat - 48) []
  else if 65 ≤ ch.toNat ∧ ch.toNat ≤ 90 then bitmapsAZ.getD (ch.toNat - 65) []
  else []

def GlyphSafe (bits : List Nat) (x y : Num) : Prop :=
  ∀ i, i < 8 → ∀ k, (bits.getD i 0).testBit k → PixelSafe ((x + 8).u16 - .ofInt k).u16 (y.after i)

def StringSafe (x y : Num) : List Byte → Prop
  | [] => True
  | ch :: rest => GlyphSafe (glyph ch) x y ∧ StringSafe (x + 9).u16 y rest

theorem pen_eq {pix : Nat} {x : Num} (small : x.Small) (k : Nat) :
    Pen.next^[k] ⟨pix, x⟩ = ⟨pix / 2 ^ k, (x - .ofInt k).u16⟩ := by
  obtain ⟨low, high⟩ := small
  induction k with
  | zero =>
    simp only [iterate_zero, id_eq, Nat.pow_zero, Nat.div_one, Pen.mk.injEq, true_and]
    ext
    · simp only [Num.val_u16, Num.val_sub, Num.val_ofInt]
      omega
    · simp
  | succ k ih =>
    rw [iterate_succ_apply', ih, Pen.next, Nat.div_div_eq_div_mul, ← Nat.pow_succ]
    simp only [Pen.mk.injEq, true_and]
    ext
    · simp only [Num.val_u16, Num.val_sub, Num.val_ofInt, Num.val_one]
      omega
    · simp only [Num.exact_u16, Num.exact_sub, Num.exact_ofInt, Num.exact_one]
      omega

theorem row_eq {y : Num} (small : y.Small) (i : Nat) :
    (fun row : Row => (⟨row.i + 1, (row.y + 1).u16⟩ : Row))^[i] ⟨0, y⟩ = ⟨i, y.after i⟩ := by
  induction i with
  | zero =>
    rw [← iterate_eq_after small]
    rfl
  | succ i ih =>
    rw [iterate_succ_apply', ih, ← iterate_eq_after small, ← iterate_eq_after small,
      iterate_succ_apply']

def drawBits (pix : Nat) (x y : Num) (color : Byte) : Drawing :=
  .loop (fun pen : Pen => 0 < pen.pix)
    (fun pen => if pen.pix % 2 = 1 then writePixel pen.x y color else pure ()) Pen.next ⟨pix, x⟩

variable {x y : Num}

theorem bit_returns (bit : Prop) [Decidable bit] (x y : Num) (color : Byte) :
    (if bit then writePixel x y color else pure ()).Returns () := by
  split
  · exact writePixel_returns x y color
  · exact (Prog.returns_pure () ()).mpr rfl

theorem drawBits_returns (xSmall : x.Small) (pix : Nat) (color : Byte) :
    (drawBits pix x y color).Returns () := by
  rw [drawBits, Prog.returns_loop]
  simp only [pen_eq xSmall, decide_eq_true_eq, decide_eq_false_iff_not]
  -- The loop ends at the first power of two above `pix`.
  have gone : ∃ k, pix / 2 ^ k = 0 := ⟨pix, Nat.div_eq_of_lt Nat.lt_two_pow_self⟩
  refine ⟨Nat.find gone, by rw [Nat.find_spec gone]; omega, fun j before => ⟨?_, bit_returns _ _ _ _⟩⟩
  exact Nat.pos_of_ne_zero (Nat.find_min gone before)

theorem drawBits_confined (xSmall : x.Small) (ySmall : y.Small) (pix : Nat) (color : Byte) :
    (drawBits pix x y color).Always Call.Confined ↔
      ∀ k, pix.testBit k → PixelSafe (x - .ofInt k).u16 y := by
  have pixel : ∀ k : Nat, (writePixel (x - .ofInt k).u16 y color).Always Call.Confined ↔
      PixelSafe (x - .ofInt k).u16 y :=
    fun k => writePixel_confined color (near_of_small (Num.small_u16 _) ySmall color)
  rw [drawBits, Prog.always_loop]
  simp only [pen_eq xSmall, decide_eq_true_eq, Nat.testBit_eq_decide_div_mod_eq]
  constructor
  · intro all k bit
    have rounds := all k (fun j le => ?_) fun j _ => bit_returns _ _ _ _
    · rw [if_pos bit] at rounds
      exact (pixel k).mp rounds
    · -- A bit further left is still to be drawn.
      have shorter : pix / 2 ^ k ≤ pix / 2 ^ j :=
        Nat.div_le_div_left (Nat.pow_le_pow_right (by omega) le) (Nat.two_pow_pos j)
      have drawn : 0 < pix / 2 ^ k := Nat.pos_of_ne_zero fun zero => by simp [zero] at bit
      exact Nat.lt_of_lt_of_le drawn shorter
  · intro safe k _ _
    split
    next bit => exact (pixel k).mpr (safe k bit)
    · exact (Prog.always_pure ()).mpr trivial

theorem drawBitmaps_confined (ySmall : y.Small) (bitmaps : List (List Nat)) (index : Nat) (x : Num)
    (color : Byte) : (drawBitmaps bitmaps index x y color).Always Call.Confined ↔
    GlyphSafe (bitmaps.getD index []) x y := by
  have bits : ∀ i,
    (drawBits ((bitmaps.getD index []).getD i 0) (x + 8).u16 (y.after i) color).Always
    Call.Confined ↔
      ∀ k, ((bitmaps.getD index []).getD i 0).testBit k →
        PixelSafe ((x + 8).u16 - .ofInt k).u16 (y.after i) :=
    fun i => drawBits_confined (Num.small_u16 _) (Num.small_u16 _) _ _
  refine Prog.always_loop.trans ?_
  simp only [row_eq ySmall, decide_eq_true_eq, GlyphSafe]
  constructor
  · intro all i lt
    exact (bits i).mp (all i (fun j le => by omega) fun j _ => drawBits_returns (Num.small_u16 _) _ _)
  · intro safe i lt _
    exact (bits i).mpr (safe i (lt i (Nat.le_refl i)))

theorem drawBitmaps_returns (ySmall : y.Small) (bitmaps : List (List Nat)) (index : Nat) (x : Num)
    (color : Byte) : (drawBitmaps bitmaps index x y color).Returns () := by
  refine Prog.returns_loop.mpr ⟨8, ?_, fun j lt => ⟨?_, ?_⟩⟩
  · rw [row_eq ySmall]
    rfl
  · rw [row_eq ySmall]
    exact decide_eq_true lt
  · rw [row_eq ySmall]
    exact drawBits_returns (Num.small_u16 _) _ _

theorem drawChar_confined (ySmall : y.Small) (x : Num) (ch color : Byte) :
    (drawChar x y ch color).Always Call.Confined ↔ GlyphSafe (glyph ch) x y := by
  unfold drawChar glyph
  split
  · exact drawBitmaps_confined ySmall _ _ _ _
  · split
    · exact drawBitmaps_confined ySmall _ _ _ _
    · simp [GlyphSafe]

theorem drawChar_returns (ySmall : y.Small) (x : Num) (ch color : Byte) :
    (drawChar x y ch color).Returns () := by
  unfold drawChar
  split
  · exact drawBitmaps_returns ySmall _ _ _ _
  · split
    · exact drawBitmaps_returns ySmall _ _ _ _
    · exact (Prog.returns_pure () ()).mpr rfl

theorem drawString_confined (ySmall : y.Small) (x : Num) (str : List Byte) (color : Byte) :
    (drawString x y str color).Always Call.Confined ↔ StringSafe x y str := by
  induction str generalizing x with
  | nil => exact Prog.always_pure ()
  | cons ch rest ih =>
    rw [drawString, Prog.always_then, drawChar_confined ySmall, StringSafe, ih]
    simp only [drawChar_returns ySmall, forall_const]

end Strings

def DrawType.Safe (shape : DrawType) (str : List Byte) : Prop :=
  if shape.shape = 0 then CircleSafe shape.round
  else if shape.shape = 3 then DiamondSafe shape.round
  else if shape.shape = 1 then
    (line (.ofU16 (low shape.u0)) (.ofU16 (high shape.u0)) (.ofU16 (low shape.u1))
      (.ofU16 (high shape.u1))).Safe
  else if shape.shape = 2 then shape.rectangle.Safe
  else if shape.shape = 4 then StringSafe (.ofU16 (low shape.u0)) (.ofU16 (high shape.u0)) str
  else True

theorem draws_on_screen_iff (shape : DrawType) (str : List Byte) :
    (sysDraw shape str).Always (fun call => call.Confined ∧ call.WritesScreen) ↔ shape.Safe str := by
  have same : (sysDraw shape str).Always (fun call => call.Confined ∧ call.WritesScreen) ↔
      (sysDraw shape str).Always Call.Confined :=
    ⟨fun all n call member => (all n call member).1,
      fun all n call member => ⟨all n call member, (all n call member).writesScreen⟩⟩
  rw [same]
  unfold sysDraw DrawType.Safe
  dsimp only
  split
  · exact drawCircle_confined _ _
  split
  · exact drawDiamond_confined _ _
  split
  · exact drawLine_confined _ _ _ _ _
  split
  · exact drawRectangle_confined _ _
  split
  · exact drawString_confined (Num.small_ofU16 _) _ _ _
  · exact Prog.always_pure ()

-- A circle of radius 5 around the pixel (2, 2), not filled. Its pixel (2, -3) is a byte of memory
-- in front of the screen.
theorem circle_leaves_screen :
    ¬ (sysDraw ⟨0, 4, 0x00020002, 5, 16⟩ []).Always (fun call => call.Confined ∧ call.WritesScreen) := by
  intro all
  have drawn :
    (⟨.ofInt 2, .ofInt (-3), 4⟩ : Call) ∈ ((sysDraw ⟨0, 4, 0x00020002, 5, 16⟩ []).run
    1).events := by
    decide +kernel
  obtain ⟨-, inside⟩ := all 1 _ drawn
  have written : (⟨.ofInt 2, .ofInt (-3), 4⟩ : Call).write (fun _ => 0) 0xf009fc42 = 4 := by decide
  obtain ⟨low, -⟩ := inside (fun _ => 0) 0xf009fc42 (by rw [written]; decide)
  exact absurd low (by decide)

end Jos.Kern.Vga
