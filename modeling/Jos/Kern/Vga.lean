import Jos.Shared.Emit
import Jos.Kern.Mmu

namespace Jos.Kern.Vga

open Jos.Shared

/-- A number in the drawing code. `exact` is what it would be if nothing had been cut off at 16 bits
on the way to it. -/
@[ext]
structure Num where
  val : Int
  exact : Int
  cut : (65536 : Int) ∣ exact - val
  deriving DecidableEq

namespace Num

def ofInt (n : Int) : Num := ⟨n, n, by simp⟩

def ofU16 (n : BitVec 16) : Num := ofInt n.toNat

def u16 (n : Num) : Num := ⟨n.val % 65536, n.exact, by
  have := n.cut
  omega⟩

instance : Add Num := ⟨fun a b => ⟨a.val + b.val, a.exact + b.exact, by
  have := a.cut
  have := b.cut
  omega⟩⟩

instance : Sub Num := ⟨fun a b => ⟨a.val - b.val, a.exact - b.exact, by
  have := a.cut
  have := b.cut
  omega⟩⟩

instance (n : Nat) : OfNat Num n := ⟨ofInt n⟩

@[simp] theorem val_ofInt (n : Int) : (ofInt n).val = n := rfl
@[simp] theorem exact_ofInt (n : Int) : (ofInt n).exact = n := rfl
@[simp] theorem val_u16 (n : Num) : n.u16.val = n.val % 65536 := rfl
@[simp] theorem exact_u16 (n : Num) : n.u16.exact = n.exact := rfl
@[simp] theorem val_add (a b : Num) : (a + b).val = a.val + b.val := rfl
@[simp] theorem exact_add (a b : Num) : (a + b).exact = a.exact + b.exact := rfl
@[simp] theorem val_sub (a b : Num) : (a - b).val = a.val - b.val := rfl
@[simp] theorem exact_sub (a b : Num) : (a - b).exact = a.exact - b.exact := rfl
@[simp] theorem val_one : (1 : Num).val = 1 := rfl
@[simp] theorem exact_one : (1 : Num).exact = 1 := rfl

end Num

def screenBaseAddr : Word := 0xf00A0000
def screenMaxAddr : Word := 0xf00AFFFF
def screenWidth : Word := 320

structure Call where
  x : Num
  y : Num
  color : Byte
  deriving DecidableEq

def Call.off (call : Call) : Word :=
  screenBaseAddr + screenWidth * BitVec.ofInt 32 call.y.val + BitVec.ofInt 32 call.x.val

def Call.write (call : Call) (mem : Word → Byte) : Word → Byte :=
  if call.off < screenMaxAddr then Function.update mem call.off call.color else mem

abbrev Drawing := Prog Call Unit

def writePixel (x y : Num) (color : Byte) : Drawing := .emit ⟨x, y, color⟩

def vgaBlack : Byte := 0

def clearScreen : Drawing :=
  .loop (fun y : Num => y.val < 200)
    (fun y => .loop (fun x : Num => x.val < 320) (fun x => writePixel x y vgaBlack)
      (fun x => (x + 1).u16) 0)
    (fun y => (y + 1).u16) 0

def drawDots (xc yc x y : Num) (color : Byte) : Drawing := do
  writePixel (xc + x) (yc + y) color
  writePixel (xc - x) (yc + y) color
  writePixel (xc + x) (yc - y) color
  writePixel (xc - x) (yc - y) color
  writePixel (xc + y) (yc + x) color
  writePixel (xc - y) (yc + x) color
  writePixel (xc + y) (yc - x) color
  writePixel (xc - y) (yc - x) color

def forU16 (first last : Num) (body : Num → Drawing) : Drawing :=
  .loop (fun i => i.val ≤ last.val) body (fun i => (i + 1).u16) first

def drawLine16 (x1 y1 x2 y2 : Num) (color : Byte) : Drawing :=
  if y1.val = y2.val then forU16 x1 x2 fun i => writePixel i y1 color
  else if x1.val = x2.val then forU16 y1 y2 fun i => writePixel x1 i color
  else pure ()

def drawLine (x1 y1 x2 y2 : Num) (color : Byte) : Drawing := drawLine16 x1.u16 y1.u16 x2.u16 y2.u16 color

def fillShape (xc yc x y : Num) (color : Byte) : Drawing := do
  drawLine (xc - x + 1) (yc + y - 1) (xc + x - 1) (yc + y - 1) color
  drawLine (xc - x + 1) (yc - y + 1) (xc + x - 1) (yc - y + 1) color
  drawLine (xc - y + 1) (yc + x - 1) (xc + y - 1) (yc + x - 1) color
  drawLine (xc - y + 1) (yc - x + 1) (xc + y - 1) (yc - x + 1) color

def vgaNoColor : Word := 16

def drawRound (xc yc : Num) (fillColor : Word) (borderColor : Byte) (x2 y2 : Num) : Drawing := do
  drawDots xc yc x2 y2 borderColor
  if fillColor ≠ vgaNoColor then fillShape xc yc x2 y2 (fillColor.setWidth 8) else pure ()

structure Round where
  x : BitVec 16
  y : BitVec 16
  radius : BitVec 16
  fillColor : Word

structure Octant where
  x2 : Int
  y2 : Int
  d : Int
  deriving DecidableEq

namespace Octant

def start (radius : BitVec 16) : Octant := ⟨0, radius.toNat, 3 - 2 * radius.toNat⟩

def next (o : Octant) : Octant :=
  let x2 := o.x2 + 1
  if 0 < o.d then
    let y2 := o.y2 - 1
    ⟨x2, y2, o.d + 4 * (x2 - y2) + 10⟩
  else
    ⟨x2, o.y2, o.d + 4 * x2 + 6⟩

end Octant

def drawCircle (circle : Round) (borderColor : Byte) : Drawing := do
  let round (o : Octant) :=
    drawRound (.ofU16 circle.x) (.ofU16 circle.y) circle.fillColor borderColor (.ofInt o.x2) (.ofInt o.y2)
  round (.start circle.radius)
  .loop (fun o => o.x2 ≤ o.y2) (fun o => round o.next) Octant.next (.start circle.radius)

structure Edge where
  x2 : Num
  y2 : Num
  deriving DecidableEq

namespace Edge

def start (radius : BitVec 16) : Edge := ⟨0, .ofU16 radius⟩

def next (e : Edge) : Edge := ⟨(e.x2 + 1).u16, (e.y2 - 1).u16⟩

end Edge

def drawDiamond (diamond : Round) (borderColor : Byte) : Drawing := do
  let round (e : Edge) :=
    drawRound (.ofU16 diamond.x) (.ofU16 diamond.y) diamond.fillColor borderColor e.x2 e.y2
  round (.start diamond.radius)
  .loop (fun e => e.x2.val ≤ e.y2.val) (fun e => round e.next) Edge.next (.start diamond.radius)

structure Rectangle where
  x : BitVec 16
  y : BitVec 16
  width : BitVec 16
  height : BitVec 16
  fillColor : Word

def drawRectangle (rectangle : Rectangle) (borderColor : Byte) : Drawing := do
  let x := Num.ofU16 rectangle.x
  let y := Num.ofU16 rectangle.y
  let height := Num.ofU16 rectangle.height
  let width := Num.ofU16 rectangle.width
  drawLine x y x (y + height) borderColor
  drawLine x y (x + width) y borderColor
  drawLine (x + width) y (x + width) (y + height) borderColor
  drawLine x (y + height) (x + width) (y + height) borderColor
  if rectangle.fillColor ≠ vgaNoColor then
    -- `y + height` is an `int`, `i` a `uint16_t`.
    .loop (fun i => i.val < (y + height).val)
      (fun i => drawLine (x + 1) i (x + width - 1) i (rectangle.fillColor.setWidth 8))
      (fun i => (i + 1).u16) (y + 1).u16
  else pure ()

def bitmaps09 : List (List Nat) := [
  -- 0
  [0b01111110, 0b11000011, 0b11000111, 0b11001111,
    0b11011011, 0b11110011, 0b11100011, 0b01111110],
  -- 1
  [0b00011000, 0b00111000, 0b00111000, 0b00011000,
    0b00011000, 0b00011000, 0b01111110, 0b01111110],
  -- 2
  [0b00111100, 0b11100111, 0b00000111, 0b00000110,
    0b00011110, 0b01111000, 0b11100011, 0b11111111],
  -- 3
  [0b00111100, 0b11100111, 0b00000111, 0b00011100,
    0b00000111, 0b00000111, 0b11100110, 0b00111100],
  -- 4
  [0b00011100, 0b00111100, 0b01101100, 0b11001100,
    0b11001100, 0b11111110, 0b00001100, 0b00011110],
  -- 5
  [0b11111111, 0b11000000, 0b11111110, 0b00000111,
    0b00000111, 0b00000111, 0b11000110, 0b01111110],
  -- 6
  [0b00011100, 0b00110000, 0b01100000, 0b11000000,
    0b11111110, 0b11000011, 0b11000011, 0b01111110],
  -- 7
  [0b11111111, 0b11111111, 0b11000111, 0b00000111,
    0b00001110, 0b00111000, 0b00111000, 0b00111000],
  -- 8
  [0b01111110, 0b01111110, 0b11000011, 0b11000011,
    0b01111110, 0b11000011, 0b11000011, 0b01111110],
  -- 9
  [0b01111110, 0b11000011, 0b11000011, 0b01111111,
    0b00000011, 0b00000111, 0b00001110, 0b01111100]]

def bitmapsAZ : List (List Nat) := [
  -- A
  [0b00011000, 0b00111100, 0b01100110, 0b11000011,
    0b11000011, 0b11111111, 0b11000011, 0b11000011],
  -- B
  [0b11111100, 0b01100110, 0b01100110, 0b01111100,
    0b01111100, 0b01100110, 0b01100110, 0b11111100],
  -- C
  [0b00111110, 0b01100011, 0b11000000, 0b11000000,
    0b11000000, 0b11000000, 0b01100011, 0b00111110],
  -- D
  [0b11111100, 0b01100110, 0b01100011, 0b01100011,
    0b01100011, 0b01100011, 0b01100110, 0b11111100],
  -- E
  [0b11111111, 0b01100001, 0b01100000, 0b01100100,
    0b01111100, 0b01100100, 0b01100001, 0b11111111],
  -- F
  [0b11111111, 0b01100001, 0b01100000, 0b01100100,
    0b01111100, 0b01100100, 0b01100000, 0b11110000],
  -- G
  [0b00111110, 0b01100011, 0b11000000, 0b11000000,
    0b11000111, 0b11100011, 0b01100011, 0b00111111],
  -- H
  [0b11000011, 0b11000011, 0b11000011, 0b11000011,
    0b11111111, 0b11000011, 0b11000011, 0b11000011],
  -- I
  [0b01111110, 0b00011000, 0b00011000, 0b00011000,
    0b00011000, 0b00011000, 0b00011000, 0b01111110],
  -- J
  [0b00001111, 0b00000110, 0b00000110, 0b00000110,
    0b00000110, 0b11000110, 0b11000110, 0b01111100],
  -- K
  [0b11100011, 0b01100011, 0b01100110, 0b01101100,
    0b01111000, 0b01101100, 0b01100110, 0b11100011],
  -- L
  [0b11110000, 0b01100000, 0b01100000, 0b01100000,
    0b01100000, 0b01100001, 0b01100011, 0b11111111],
  -- M
  [0b11000011, 0b11100111, 0b11111111, 0b11111111,
    0b11011011, 0b11000011, 0b11000011, 0b11000011],
  -- N
  [0b11000011, 0b11100011, 0b11110011, 0b11011011,
    0b11001111, 0b11000111, 0b11000011, 0b11000011],
  -- O
  [0b00111100, 0b01100110, 0b11000011, 0b11000011,
    0b11000011, 0b11000011, 0b01100110, 0b00111100],
  -- P
  [0b11111110, 0b01100011, 0b01100011, 0b01100011,
    0b01111110, 0b01100000, 0b01100000, 0b11110000],
  -- Q
  [0b01111110, 0b11000011, 0b11000011, 0b11000011,
    0b11000011, 0b11001111, 0b01111110, 0b00001111],
  -- R
  [0b11111110, 0b01100011, 0b01100011, 0b01111110,
    0b01101110, 0b01100110, 0b01100011, 0b11100011],
  -- S
  [0b01111110, 0b11000011, 0b11100000, 0b01110000,
    0b00011111, 0b00000011, 0b11000110, 0b01111100],
  -- T
  [0b11111111, 0b10011001, 0b00011000, 0b00011000,
    0b00011000, 0b00011000, 0b00011000, 0b00111100],
  -- U
  [0b11000011, 0b11000011, 0b11000011, 0b11000011,
    0b11000011, 0b11000011, 0b11000011, 0b11111111],
  -- V
  [0b11000011, 0b11000011, 0b11000011, 0b11000011,
    0b11000011, 0b11000011, 0b00111100, 0b00011000],
  -- W
  [0b11000011, 0b11000011, 0b11000011, 0b11000011,
    0b11011011, 0b11111111, 0b11100111, 0b11000011],
  -- X
  [0b11000011, 0b11000011, 0b01100110, 0b01100110,
    0b00111100, 0b00111100, 0b01100111, 0b11000011],
  -- Y
  [0b11000011, 0b11000011, 0b11000011, 0b11000011,
    0b01111110, 0b000011000, 0b00011000, 0b00111100],
  -- Z
  [0b11111111, 0b11000011, 0b10000110, 0b00001100,
    0b00011000, 0b00110001, 0b01100011, 0b11111111]]

structure Pen where
  pix : Nat
  x : Num
  deriving DecidableEq

namespace Pen

def next (pen : Pen) : Pen := ⟨pen.pix / 2, (pen.x - 1).u16⟩

end Pen

structure Row where
  i : Nat
  y : Num
  deriving DecidableEq

def drawBitmaps (bitmaps : List (List Nat)) (index : Nat) (x y : Num) (color : Byte) : Drawing :=
  .loop (fun row : Row => row.i < 8)
    (fun row =>
      .loop (fun pen : Pen => 0 < pen.pix)
        (fun pen => if pen.pix % 2 = 1 then writePixel pen.x row.y color else pure ())
        Pen.next ⟨(bitmaps.getD index []).getD row.i 0, (x + 8).u16⟩)
    (fun row => ⟨row.i + 1, (row.y + 1).u16⟩) ⟨0, y⟩

def drawNumBitmaps : Nat → Num → Num → Byte → Drawing := drawBitmaps bitmaps09
def drawAlphaBitmaps : Nat → Num → Num → Byte → Drawing := drawBitmaps bitmapsAZ

-- `char` is signed, but the bytes from 128 on are out of both ranges either way.
def drawChar (x y : Num) (ch : Byte) (color : Byte) : Drawing :=
  if 48 ≤ ch.toNat ∧ ch.toNat ≤ 57 then drawNumBitmaps (ch.toNat - 48) x y color
  else if 65 ≤ ch.toNat ∧ ch.toNat ≤ 90 then drawAlphaBitmaps (ch.toNat - 65) x y color
  else pure ()

def drawString (x y : Num) (str : List Byte) (color : Byte) : Drawing :=
  match str with
  | [] => pure ()
  | ch :: rest => do
    drawChar x y ch color
    drawString (x + 9).u16 y rest color

structure DrawType where
  shape : Word
  borderColor : Word
  u0 : Word
  u1 : Word
  u2 : Word

namespace DrawType

variable (shape : DrawType)

def low (w : Word) : BitVec 16 := w.setWidth 16
def high (w : Word) : BitVec 16 := (w >>> 16).setWidth 16

def round : Round := ⟨low shape.u0, high shape.u0, low shape.u1, shape.u2⟩

def rectangle : Rectangle := ⟨low shape.u0, high shape.u0, low shape.u1, high shape.u1, shape.u2⟩

end DrawType

def sysDraw (shape : DrawType) (str : List Byte) : Drawing :=
  let color : Byte := shape.borderColor.setWidth 8
  let x := Num.ofU16 (DrawType.low shape.u0)
  let y := Num.ofU16 (DrawType.high shape.u0)
  if shape.shape = 0 then drawCircle shape.round color
  else if shape.shape = 3 then drawDiamond shape.round color
  else if shape.shape = 1 then
    drawLine x y (.ofU16 (DrawType.low shape.u1)) (.ofU16 (DrawType.high shape.u1)) color
  else if shape.shape = 2 then drawRectangle shape.rectangle color
  else if shape.shape = 4 then drawString x y str color
  else pure ()

end Jos.Kern.Vga
