import Jos.Kern.Vga

namespace Jos.Kern.Mouse

open Jos.Shared
open Jos.Kern.Vga (DrawType Call)
open Function

structure Packet where
  xSgn : Bool
  ySgn : Bool
  lBtn : Bool
  rBtn : Bool
  mBtn : Bool
  xOverflow : Bool
  yOverflow : Bool
  xMov : Int
  yMov : Int
  tick : Word
  deriving DecidableEq

section Decoder

structure Reading where
  data : Byte
  now : Word
  deriving DecidableEq

structure Decoder where
  packet : Packet
  recovery : Int
  count : Nat
  firstByte : Byte
  ticks : Word
  deriving DecidableEq

def recover (recovery : Int) (data : Byte) : Int :=
  if recovery = 0 ∧ data = 0 then 1
  else if recovery = 1 ∧ data = 0 then 2
  else if data = 12 then 0
  else -1

namespace Decoder

def enter (d : Decoder) (ticks : Word) : Decoder := { d with count := 0, firstByte := 0, ticks := ticks }

def store (d : Decoder) (r : Reading) : Decoder :=
  match d.count with
  | 1 =>
    if r.data.getLsbD 3 then
      { d with
        ticks := r.now
        packet := { d.packet with
          yOverflow := r.data.getLsbD 7
          xOverflow := r.data.getLsbD 6
          ySgn := r.data.getLsbD 5
          xSgn := r.data.getLsbD 4
          mBtn := r.data.getLsbD 2
          rBtn := r.data.getLsbD 1
          lBtn := r.data.getLsbD 0 }
        firstByte := r.data }
    else { d with count := 0 }
  | 2 =>
    { d with packet := { d.packet with
          xMov := r.data.toNat - (if d.firstByte.getLsbD 4 then 256 else 0) } }
  | 3 =>
    { d with packet := { d.packet with
        yMov := r.data.toNat - (if d.firstByte.getLsbD 5 then 256 else 0)
        tick := d.ticks } }
  | _ => { d with count := 0 }

def round (d : Decoder) (r : Reading) : List Packet × Decoder :=
  let d := { d with count := d.count + 1, recovery := recover d.recovery r.data }.store r
  if d.recovery = 2 then ([], { d with count := 0, recovery := -1 })
  else if d.count = 3 then ([d.packet], { d with count := 0 })
  else ([], d)

def rounds (d : Decoder) : List Reading → List Packet × Decoder
  | [] => ([], d)
  | r :: rest =>
    let (called, d) := d.round r
    let (later, d) := d.rounds rest
    (called ++ later, d)

end Decoder

structure Interrupt where
  now : Word
  bytes : List Reading

def mouseIntr (d : Decoder) (intr : Interrupt) : List Packet × Decoder :=
  (d.enter intr.now).rounds intr.bytes

def mouseIntrs (d : Decoder) : List Interrupt → List Packet × Decoder
  | [] => ([], d)
  | intr :: rest =>
    let (called, d) := mouseIntr d intr
    let (later, d) := mouseIntrs d rest
    (called ++ later, d)

end Decoder

structure GridPos where
  x : Int
  y : Int
  deriving DecidableEq

inductive ClickType where
  | rClick
  | lClick
  | dblClick
  deriving DecidableEq

structure MouseUPkt where
  x : Int
  y : Int
  type : Option ClickType
  deriving DecidableEq

def bufsize : Nat := 512

def mousePointer : List (List Nat) := [
  [2, 2, 0, 0, 0, 0, 0, 0, 0, 0, 0, 0, 0, 0, 0],
  [2, 1, 2, 0, 0, 0, 0, 0, 0, 0, 0, 0, 0, 0, 0],
  [2, 1, 1, 2, 0, 0, 0, 0, 0, 0, 0, 0, 0, 0, 0],
  [2, 1, 1, 1, 2, 0, 0, 0, 0, 0, 0, 0, 0, 0, 0],
  [2, 1, 1, 1, 1, 2, 0, 0, 0, 0, 0, 0, 0, 0, 0],
  [2, 1, 1, 1, 1, 1, 2, 0, 0, 0, 0, 0, 0, 0, 0],
  [2, 1, 1, 1, 1, 1, 1, 2, 0, 0, 0, 0, 0, 0, 0],
  [2, 1, 1, 1, 1, 1, 1, 1, 2, 0, 0, 0, 0, 0, 0],
  [2, 1, 1, 1, 1, 1, 1, 1, 1, 2, 0, 0, 0, 0, 0],
  [2, 1, 1, 1, 1, 1, 1, 1, 1, 1, 2, 0, 0, 0, 0],
  [2, 1, 1, 1, 1, 1, 1, 1, 1, 1, 1, 2, 0, 0, 0],
  [2, 1, 1, 1, 1, 1, 1, 2, 2, 2, 2, 2, 0, 0, 0],
  [2, 1, 1, 1, 2, 1, 1, 2, 0, 0, 0, 0, 0, 0, 0],
  [2, 1, 1, 2, 0, 2, 1, 1, 2, 0, 0, 0, 0, 0, 0],
  [2, 1, 2, 0, 0, 2, 1, 1, 2, 0, 0, 0, 0, 0, 0],
  [2, 2, 0, 0, 0, 0, 2, 1, 1, 2, 0, 0, 0, 0, 0],
  [0, 0, 0, 0, 0, 0, 2, 1, 1, 2, 0, 0, 0, 0, 0],
  [0, 0, 0, 0, 0, 0, 0, 2, 2, 0, 0, 0, 0, 0, 0]]

def pointer (i j : Nat) : Nat := (mousePointer.getD i []).getD j 0

def mouseColor (temp : Nat) : Byte := if temp = 1 then 7 else 15

def pixel (x y : Int) : Word := BitVec.ofInt 32 (0xf00A0000 + 320 * y + x)

def written (calls : List Call) (mem : Word → Byte) : Word → Byte :=
  calls.foldl (fun mem call => call.write mem) mem

structure Driver where
  mem : Word → Byte
  currPos : GridPos
  prevPos : GridPos
  colorBackup : Nat × Nat → Byte
  lastclicktick : Word
  buf : Nat → Option MouseUPkt
  wpos : Nat

namespace Driver

variable (s : Driver)

def forBreak (stop : Nat → Bool) (body : Nat → Driver → Driver) : Nat → Nat → Driver → Driver
  | 0, _, s => s
  | left + 1, i, s => if stop i then s else forBreak stop body left (i + 1) (body i s)

def overPointer (pos : GridPos) (body : Nat × Nat → Word → Driver → Driver) : Driver → Driver :=
  forBreak (fun i => pos.y + i ≥ 200 ∨ pos.y + i < 0)
    (fun i => forBreak (fun j => pos.x + j ≥ 320 ∨ pos.x + j < 0)
      (fun j s => if pointer i j ≠ 0 then body (i, j) (pixel (pos.x + j) (pos.y + i)) s else s) 15 0) 18 0

def save (c : Nat × Nat) (addr : Word) : Driver :=
  { s with colorBackup := update s.colorBackup c (s.mem addr) }

def put (addr : Word) (color : Byte) : Driver := { s with mem := update s.mem addr color }

def mouseUpdateColorBackup : Driver := overPointer s.currPos (fun c addr s => s.save c addr) s

def drawMouse (pos : GridPos) (recoverOld : Bool) : Driver :=
  overPointer pos (fun c addr s =>
    if recoverOld then s.put addr (s.colorBackup c)
    else (s.save c addr).put addr (mouseColor (pointer c.1 c.2))) s

def clamp (n top : Int) : Int := if n < 0 then 0 else if n > top then top else n

def target (pos : GridPos) (p : Packet) : GridPos :=
  ⟨clamp (pos.x + p.xMov / 32) 320, clamp (pos.y - p.yMov / 32) 200⟩

def move (p : Packet) : Driver :=
  if p.xMov ≠ 0 ∨ p.yMov ≠ 0 then
    let s : Driver := { s with prevPos := s.currPos, currPos := target s.currPos p }
    (s.drawMouse s.prevPos true).drawMouse s.currPos false
  else s

def clickType (p : Packet) : Option ClickType :=
  if p.rBtn then some .rClick
  else if p.lBtn then some (if p.tick - s.lastclicktick < 200 then .dblClick else .lClick)
  else none

def middle : Driver :=
  { (s.drawMouse s.prevPos true).drawMouse s.currPos false with currPos := ⟨160, 100⟩ }

def click (p : Packet) : Driver :=
  if p.lBtn || p.rBtn || p.mBtn then
    let type := s.clickType p
    let s := if p.mBtn then s.middle else s
    { s with
      buf := update s.buf s.wpos (some ⟨s.prevPos.x, s.prevPos.y, type⟩)
      wpos := if s.wpos + 1 = bufsize then 0 else s.wpos + 1
      lastclicktick := p.tick }
  else s

def mouseCommand (p : Packet) : Driver := if p.xOverflow || p.yOverflow then s else (s.move p).click p

def paint (calls : List Call) : Driver := { s with mem := written calls s.mem }

def sysDraw (shape : DrawType) (calls : List Call) : Driver :=
  if shape.shape.toNat ≤ 4 then (s.paint calls).mouseUpdateColorBackup else s.paint calls

def sysClearScreen (calls : List Call) : Driver := (s.paint calls).mouseUpdateColorBackup

end Driver

end Jos.Kern.Mouse
