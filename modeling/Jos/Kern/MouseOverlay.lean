import Jos.Kern.Mouse
import Jos.Kern.VgaConfined
import Jos.Shared.Exchange
import Jos.Shared.Run

namespace Jos.Kern.Mouse

open Jos.Shared
open Jos.Kern.Vga (DrawType Call)

def Visible (x y : Int) : Prop := (0 ≤ x ∧ x < 320) ∧ 0 ≤ y ∧ y < 200

instance (x y : Int) : Decidable (Visible x y) := inferInstanceAs (Decidable (_ ∧ _))

theorem pixel_inj {x y x' y' : Int} (on : Visible x y) (on' : Visible x' y')
    (same : pixel x y = pixel x' y') : x = x' ∧ y = y' := by
  obtain ⟨⟨xLow, xHigh⟩, yLow, yHigh⟩ := on
  obtain ⟨⟨xLow', xHigh'⟩, yLow', yHigh'⟩ := on'
  have value := Call.toNat_address (i := 0xf00A0000 + 320 * y + x) (by omega) (by omega)
  have value' := Call.toNat_address (i := 0xf00A0000 + 320 * y' + x') (by omega) (by omega)
  rw [pixel, pixel] at same
  rw [same] at value
  omega

section Cells

variable {pos : GridPos} {c : Nat × Nat}

def Shows (pos : GridPos) (c : Nat × Nat) : Prop :=
  (c.1 < 18 ∧ c.2 < 15 ∧ pointer c.1 c.2 ≠ 0) ∧ (0 ≤ pos.x ∧ pos.x + c.2 < 320) ∧ 0 ≤ pos.y ∧
    pos.y + c.1 < 200

instance (pos : GridPos) (c : Nat × Nat) : Decidable (Shows pos c) := inferInstanceAs (Decidable (_ ∧ _))

def spot (pos : GridPos) (c : Nat × Nat) : Word := pixel (pos.x + c.2) (pos.y + c.1)

theorem Shows.visible (shows : Shows pos c) : Visible (pos.x + c.2) (pos.y + c.1) := by
  obtain ⟨-, ⟨xLow, xHigh⟩, yLow, yHigh⟩ := shows
  exact ⟨⟨by omega, xHigh⟩, by omega, yHigh⟩

theorem spot_inj {c c' : Nat × Nat} (shows : Shows pos c) (shows' : Shows pos c')
    (same : spot pos c = spot pos c') : c = c' := by
  obtain ⟨xSame, ySame⟩ := pixel_inj shows.visible shows'.visible same
  apply Prod.ext <;> omega

def cells (pos : GridPos) : List (Nat × Nat) :=
  ((List.range' 0 18).takeWhile fun i : Nat => !decide (pos.y + i ≥ 200 ∨ pos.y + i < 0)).flatMap fun i =>
    (((List.range' 0 15).takeWhile fun j : Nat => !decide (pos.x + j ≥ 320 ∨ pos.x + j < 0)).filter
      fun j => pointer i j ≠ 0).map (i, ·)

theorem mem_takeWhile_range' (p : Nat → Bool) (i n k : Nat) :
    k ∈ (List.range' i n).takeWhile p ↔ (i ≤ k ∧ k < i + n) ∧ ∀ j, i ≤ j → j ≤ k → p j = true := by
  induction n generalizing i with
  | zero => simp
  | succ n ih =>
    rw [List.range'_succ, List.takeWhile_cons]
    by_cases goes : p i = true
    · rw [if_pos goes, List.mem_cons, ih]
      constructor
      · rintro (rfl | ⟨range, all⟩)
        · exact ⟨⟨by omega, by omega⟩, fun j low high => by rwa [show j = k by omega]⟩
        · refine ⟨⟨by omega, by omega⟩, fun j low high => ?_⟩
          by_cases first : j = i
          · rwa [first]
          · exact all j (by omega) high
      · intro ⟨range, all⟩
        by_cases first : k = i
        · exact .inl first
        · exact .inr ⟨by omega, fun j low high => all j (by omega) high⟩
    · rw [if_neg goes]
      constructor
      · intro none
        cases none
      · intro ⟨range, all⟩
        exact absurd (all i (by omega) (by omega)) goes

theorem mem_row (top pos : Int) (n k : Nat) :
    k ∈ ((List.range' 0 n).takeWhile fun i : Nat => !decide (pos + i ≥ top ∨ pos + i < 0)) ↔
      k < n ∧ 0 ≤ pos ∧ pos + k < top := by
  rw [mem_takeWhile_range']
  simp only [Bool.not_eq_true', decide_eq_false_iff_not, not_or, not_lt, ge_iff_le, not_le]
  constructor
  · intro ⟨range, all⟩
    have first := all 0 (by omega) (by omega)
    have last := all k (by omega) (by omega)
    exact ⟨by omega, by simpa using first.2, last.1⟩
  · intro ⟨range, low, high⟩
    exact ⟨⟨by omega, by omega⟩, fun j _ before => ⟨by omega, by omega⟩⟩

theorem mem_cells : c ∈ cells pos ↔ Shows pos c := by
  obtain ⟨i, j⟩ := c
  simp only [cells, List.mem_flatMap, List.mem_map, List.mem_filter, mem_row, Shows,
    decide_eq_true_eq, Prod.mk.injEq]
  constructor
  · rintro ⟨i, ⟨iRange, yLow, yHigh⟩, j, ⟨⟨jRange, xLow, xHigh⟩, some_⟩, rfl, rfl⟩
    exact ⟨⟨iRange, jRange, some_⟩, ⟨xLow, xHigh⟩, yLow, yHigh⟩
  · rintro ⟨⟨iRange, jRange, some_⟩, ⟨xLow, xHigh⟩, yLow, yHigh⟩
    exact ⟨i, ⟨iRange, yLow, yHigh⟩, j, ⟨⟨jRange, xLow, xHigh⟩, some_⟩, rfl, rfl⟩

theorem nodup_cells (pos : GridPos) : (cells pos).Nodup := by
  have row : ∀ (n : Nat) (p : Nat → Bool), ((List.range' 0 n).takeWhile p).Nodup := fun n p =>
    List.Nodup.sublist (List.takeWhile_sublist p) List.nodup_range'
  rw [cells, List.nodup_flatMap]
  refine ⟨fun i _ => ((row _ _).filter _).map fun a b same => (Prod.mk.inj same).2, ?_⟩
  refine (row _ _).imp fun {a b} other c first second => ?_
  simp only [List.mem_map] at first second
  obtain ⟨j, -, rfl⟩ := first
  obtain ⟨k, -, same⟩ := second
  exact other (Prod.mk.inj same).1.symm

end Cells

namespace Driver

theorem forBreak_eq (stop : Nat → Bool) (body : Nat → Driver → Driver) (left i : Nat) (s : Driver) :
    forBreak stop body left i s = ((List.range' i left).takeWhile fun k => !stop k).foldl
    (fun s k => body k s) s := by
  induction left generalizing i s with
  | zero => rfl
  | succ left ih =>
    rw [forBreak, List.range'_succ, List.takeWhile_cons]
    cases ends : stop i with
    | true => rfl
    | false => exact ih (i + 1) (body i s)

theorem overPointer_eq (pos : GridPos) (body : Nat × Nat → Word → Driver → Driver) (s : Driver) :
    overPointer pos body s = (cells pos).foldl (fun s c => body c (spot pos c) s) s := by
  simp only [overPointer, forBreak_eq, cells, List.foldl_flatMap, List.foldl_map, List.foldl_filter,
    spot, decide_eq_true_eq]

section Loops

variable {s : Driver} {pos : GridPos} {x : Exchange Word (Nat × Nat) Byte}

def withScreen (s : Driver) (screen : (Word → Byte) × (Nat × Nat → Byte)) : Driver :=
  { s with mem := screen.1, colorBackup := screen.2 }

theorem overPointer_all {body : Nat × Nat → Word → Driver → Driver}
    (one : ∀ c s, body c (spot pos c) s = s.withScreen (x.once (s.mem, s.colorBackup) c)) :
    overPointer pos body s = s.withScreen (x.all (cells pos) (s.mem, s.colorBackup)) := by
  rw [overPointer_eq]
  induction cells pos generalizing s with
  | nil => rfl
  | cons c rest ih =>
    rw [List.foldl_cons, ih, one]
    rfl

def restoring (pos : GridPos) : Exchange Word (Nat × Nat) Byte :=
  ⟨spot pos, fun _ _ kept => kept, fun _ _ kept => kept⟩

def drawing (pos : GridPos) : Exchange Word (Nat × Nat) Byte :=
  ⟨spot pos, fun c _ _ => mouseColor (pointer c.1 c.2), fun _ shown _ => shown⟩

def saving (pos : GridPos) : Exchange Word (Nat × Nat) Byte :=
  ⟨spot pos, fun _ shown _ => shown, fun _ shown _ => shown⟩

theorem drawMouse_true :
    s.drawMouse pos true =
    s.withScreen ((restoring pos).all (cells pos) (s.mem, s.colorBackup)) := by
  apply overPointer_all
  intro c s
  simp [withScreen, Exchange.once, restoring, put]

theorem drawMouse_false :
    s.drawMouse pos false =
    s.withScreen ((drawing pos).all (cells pos) (s.mem, s.colorBackup)) := by
  apply overPointer_all
  intro c s
  simp [withScreen, Exchange.once, drawing, put, save]

theorem mouseUpdateColorBackup_eq : s.mouseUpdateColorBackup =
    s.withScreen ((saving s.currPos).all (cells s.currPos) (s.mem, s.colorBackup)) := by
  apply overPointer_all
  intro c s
  simp [withScreen, Exchange.once, saving, save]

end Loops

end Driver

section Pointer

variable {pos : GridPos} {c : Nat × Nat} {x y : Int}

def under (pos : GridPos) (x y : Int) : Option (Nat × Nat) :=
  let c := ((y - pos.y).toNat, (x - pos.x).toNat)
  if Shows pos c ∧ pos.x + c.2 = x ∧ pos.y + c.1 = y then some c else none

theorem under_cell (shows : Shows pos c) : under pos (pos.x + c.2) (pos.y + c.1) = some c := by
  have cell : ((pos.y + c.1 - pos.y).toNat, (pos.x + c.2 - pos.x).toNat) = c := by simp
  rw [under, cell]
  exact if_pos ⟨shows, rfl, rfl⟩

theorem of_under (found : under pos x y = some c) : Shows pos c ∧ pos.x + c.2 = x ∧ pos.y + c.1 = y := by
  unfold under at found
  dsimp only at found
  split at found
  next there =>
    rw [← Option.some.inj found]
    exact there
  · cases found

theorem spot_ne (on : Visible x y) (clear_ : under pos x y = none) (shows : Shows pos c) :
    spot pos c ≠ pixel x y := by
  intro same
  obtain ⟨rfl, rfl⟩ := pixel_inj shows.visible on same
  rw [under_cell shows] at clear_
  cases clear_

end Pointer

structure Sight where
  curr : GridPos
  prev : GridPos
  look : Int → Int → Byte
  kept : Nat × Nat → Byte

namespace Sight

variable (v : Sight)

def erase (pos : GridPos) : Sight :=
  { v with look := fun x y => match under pos x y with | some c => v.kept c | none => v.look x y }

def keep (pos : GridPos) : Sight :=
  { v with kept := fun c => if Shows pos c then v.look (pos.x + c.2) (pos.y + c.1) else v.kept c }

def draw (pos : GridPos) : Sight :=
  { v.keep pos with
    look := fun x y =>
      match under pos x y with
      | some c => mouseColor (pointer c.1 c.2)
      | none => v.look x y }

def background (x y : Int) : Byte := match under v.curr x y with | some c => v.kept c | none => v.look x y

end Sight

structure Sees (s : Driver) (v : Sight) : Prop where
  curr : s.currPos = v.curr
  prev : s.prevPos = v.prev
  kept : s.colorBackup = v.kept
  look : ∀ x y, Visible x y → s.mem (pixel x y) = v.look x y

namespace Sees

variable {s : Driver} {v : Sight} (sees : Sees s v)
include sees

theorem exchange {x : Exchange Word (Nat × Nat) Byte} {pos : GridPos} (place : x.place = spot pos)
    {kept : Nat × Nat → Byte} {look : Int → Int → Byte}
    (toCell : ∀ c, kept c = if Shows pos c
    then x.toCell c (v.look (pos.x + c.2) (pos.y + c.1)) (v.kept c) else v.kept c)
    (toPlace : ∀ x' y, look x' y = match under pos x' y with
      | some c => x.toPlace c (v.look x' y) (v.kept c)
      | none => v.look x' y) :
    Sees (s.withScreen (x.all (cells pos) (s.mem, s.colorBackup))) ⟨v.curr, v.prev, look, kept⟩ := by
  have inside : ∀ c, Shows pos c → s.mem (x.place c) = v.look (pos.x + c.2) (pos.y + c.1) := by
    intro c shows
    rw [place]
    exact sees.look _ _ shows.visible
  have apart : ∀ c ∈ cells pos, ∀ d ∈ cells pos, x.place c = x.place d → c = d := by
    rw [place]
    exact fun c here d there => spot_inj (mem_cells.mp here) (mem_cells.mp there)
  have swept : ∀ c, Shows pos c →
      (x.all (cells pos) (s.mem, s.colorBackup)).1 (x.place c) =
        x.toPlace c (s.mem (x.place c)) (s.colorBackup c) ∧
        (x.all (cells pos) (s.mem, s.colorBackup)).2 c =
        x.toCell c (s.mem (x.place c)) (s.colorBackup c) := fun c shows =>
    Exchange.all_of_mem (s.mem, s.colorBackup) (nodup_cells pos) apart (mem_cells.mpr shows)
  refine ⟨sees.curr, sees.prev, ?_, fun x' y on => ?_⟩
  · funext c
    refine Eq.trans ?_ (toCell c).symm
    split
    next shows =>
      have cell := (swept c shows).2
      rw [inside c shows] at cell
      rw [← sees.kept]
      exact cell
    next hidden =>
      rw [← sees.kept]
      exact Exchange.all_cell_of_notMem (s.mem, s.colorBackup) fun here => hidden (mem_cells.mp here)
  · refine Eq.trans ?_ (toPlace x' y).symm
    split
    next c found =>
      obtain ⟨shows, rfl, rfl⟩ := of_under found
      have cell := (swept c shows).1
      rw [inside c shows, place] at cell
      rw [← sees.kept]
      exact cell
    next free =>
      rw [← sees.look x' y on]
      refine Exchange.all_place_of_ne (s.mem, s.colorBackup) fun c here => ?_
      rw [place]
      exact spot_ne on free (mem_cells.mp here)

theorem erase (pos : GridPos) : Sees (s.drawMouse pos true) (v.erase pos) := by
  rw [Driver.drawMouse_true]
  exact sees.exchange rfl (fun c => by simp [Driver.restoring]) fun x y => rfl

theorem draw (pos : GridPos) : Sees (s.drawMouse pos false) (v.draw pos) := by
  rw [Driver.drawMouse_false]
  exact sees.exchange rfl (fun c => rfl) fun x y => rfl

theorem keep : Sees s.mouseUpdateColorBackup (v.keep v.curr) := by
  rw [Driver.mouseUpdateColorBackup_eq, sees.curr]
  exact sees.exchange rfl (fun c => rfl) fun x y => by
    dsimp only [Sight.keep, Driver.saving]
    split <;> rfl

end Sees

section Drawing

variable {calls : List Call} {addr : Word}

def Covers (calls : List Call) (addr : Word) : Prop :=
  ∃ call ∈ calls, call.off < Vga.screenMaxAddr ∧ call.off = addr

instance (calls : List Call) (addr : Word) : Decidable (Covers calls addr) :=
  inferInstanceAs (Decidable (∃ call ∈ calls, _))

def colored (calls : List Call) (addr : Word) (old : Byte) : Byte :=
  calls.foldl (fun old call => if call.off < Vga.screenMaxAddr ∧ call.off = addr then call.color
    else old) old

theorem written_apply (calls : List Call) (mem : Word → Byte) (addr : Word) :
    written calls mem addr = colored calls addr (mem addr) := by
  induction calls generalizing mem with
  | nil => rfl
  | cons call rest ih =>
    have here : call.write mem addr = if call.off < Vga.screenMaxAddr ∧
      call.off = addr then call.color else mem addr := by
      unfold Call.write
      by_cases inside : call.off < Vga.screenMaxAddr <;> by_cases same : addr = call.off <;>
        simp [inside, same, Function.update, eq_comm]
    exact (ih (call.write mem)).trans (congrArg (colored rest addr) here)

theorem colored_of_not_covers (bare : ¬Covers calls addr) (old : Byte) :
    colored calls addr old = old := by
  induction calls with
  | nil => rfl
  | cons call rest ih =>
    have first : ¬(call.off < Vga.screenMaxAddr ∧ call.off = addr) :=
      fun hit => bare ⟨call, List.mem_cons_self, hit⟩
    have later : ¬Covers rest addr :=
      fun ⟨other, member, hit⟩ => bare ⟨other, List.mem_cons_of_mem call member, hit⟩
    rw [colored, List.foldl_cons, if_neg first]
    exact ih later

theorem colored_of_covers (covers : Covers calls addr) (old old' : Byte) :
    colored calls addr old = colored calls addr old' := by
  induction calls generalizing old old' with
  | nil =>
    obtain ⟨call, none, -⟩ := covers
    cases none
  | cons call rest ih =>
    by_cases later : Covers rest addr
    · exact ih later _ _
    · obtain ⟨other, member, hit⟩ := covers
      rcases List.mem_cons.mp member with rfl | member
      · simp only [colored, List.foldl_cons, if_pos hit]
      · exact absurd ⟨other, member, hit⟩ later

end Drawing

namespace Sight

variable (v : Sight)

def paint (calls : List Call) : Sight :=
  { v with look := fun x y => colored calls (pixel x y) (v.look x y) }

def move (p : Packet) : Sight :=
  if p.xMov ≠ 0 ∨ p.yMov ≠ 0 then
    let pos := Driver.target v.curr p
    ({ v with prev := v.curr, curr := pos }.erase v.curr).draw pos
  else v

def middle : Sight := { (v.erase v.prev).draw v.curr with curr := ⟨160, 100⟩ }

def command (p : Packet) : Sight :=
  if p.xOverflow || p.yOverflow then v
  else if p.mBtn then (v.move p).middle else v.move p

end Sight

namespace Sees

variable {s : Driver} {v : Sight} (sees : Sees s v)
include sees

theorem paint (calls : List Call) : Sees (s.paint calls) (v.paint calls) where
  curr := sees.curr
  prev := sees.prev
  kept := sees.kept
  look x y on := by
    show written calls s.mem (pixel x y) = _
    rw [written_apply, sees.look x y on]
    rfl

theorem move (p : Packet) : Sees (s.move p) (v.move p) := by
  obtain ⟨curr, prev, look, kept⟩ := v
  obtain ⟨rfl, rfl, rfl, same⟩ := sees
  unfold Driver.move Sight.move
  split
  · have moved : Sees { s with prevPos := s.currPos, currPos := Driver.target s.currPos p }
        ⟨Driver.target s.currPos p, s.currPos, look, s.colorBackup⟩ := ⟨rfl, rfl, rfl, same⟩
    have drawn := (moved.erase s.currPos).draw (Driver.target s.currPos p)
    exact drawn
  · exact ⟨rfl, rfl, rfl, same⟩

theorem middle : Sees s.middle v.middle := by
  have drawn := (sees.erase v.prev).draw v.curr
  unfold Driver.middle Sight.middle
  rw [sees.prev, sees.curr]
  exact ⟨rfl, drawn.prev, drawn.kept, drawn.look⟩

theorem command (p : Packet) : Sees (s.mouseCommand p) (v.command p) := by
  unfold Driver.mouseCommand Sight.command
  split
  · exact sees
  · have moved := sees.move p
    unfold Driver.click
    split
    next pressed =>
      cases middle : p.mBtn with
      | true =>
        have clicked := moved.middle
        exact ⟨clicked.curr, clicked.prev, clicked.kept, clicked.look⟩
      | false => exact ⟨moved.curr, moved.prev, moved.kept, moved.look⟩
    next released =>
      have up : p.mBtn = false := by
        simp only [Bool.or_eq_true, not_or, Bool.not_eq_true] at released
        exact released.2
      rw [up]
      exact moved

end Sees

section Clear

open Jos.Kern.Vga hiding Num

theorem after_zero {k : Nat} (small : k < 65536) : ((0 : Vga.Num).after k).val = k := by
  have zero : (0 : Vga.Num).val = 0 := rfl
  simp only [Vga.Num.after, Vga.Num.val_u16, Vga.Num.val_add, Vga.Num.val_ofInt, zero]
  omega

theorem clearScreen_row (y : Vga.Num) :
    (Prog.loop (fun x : Vga.Num => x.val < 320) (fun x => writePixel x y vgaBlack)
    (fun x => (x + 1).u16) 0).Returns () := by
  rw [Prog.returns_loop]
  simp only [iterate_eq_after (show (0 : Vga.Num).Small from ⟨by decide, by decide⟩),
    decide_eq_true_eq, decide_eq_false_iff_not]
  refine ⟨320, by rw [after_zero] <;> decide, fun j before => ⟨?_, writePixel_returns _ _ _⟩⟩
  rw [after_zero (by omega)]
  omega

theorem always_of_returned {drawing : Drawing} {n : Nat}
    (returned : (drawing.run n).result = some ()) {P : Call → Prop}
    (all : ∀ call ∈ (drawing.run n).events, P call) : drawing.Always P := by
  intro m call member
  apply all
  by_cases later : n ≤ m
  · rwa [Prog.result_later returned later] at member
  · exact (drawing.later m n (by omega)).events.subset member

theorem clearScreen_covers {n : Nat} {x y : Int} (returned : (clearScreen.run n).result = some ())
    (on : Visible x y) : Covers (clearScreen.run n).events (pixel x y) := by
  by_contra bare
  obtain ⟨⟨xLow, xHigh⟩, yLow, yHigh⟩ := on
  have always : clearScreen.Always fun call => ¬(call.off < screenMaxAddr ∧ call.off = pixel x y) :=
    always_of_returned returned fun call member hit => bare ⟨call, member, hit⟩
  have zero : (0 : Vga.Num).Small := ⟨by decide, by decide⟩
  rw [clearScreen, Prog.always_loop] at always
  simp only [iterate_eq_after zero, decide_eq_true_eq] at always
  have row := always y.toNat (fun j le => by rw [after_zero] <;> omega) fun j before => clearScreen_row _
  rw [Prog.always_loop] at row
  simp only [iterate_eq_after zero, decide_eq_true_eq] at row
  have call := row x.toNat (fun j le => by rw [after_zero] <;> omega) fun j before =>
    writePixel_returns _ _ _
  rw [writePixel, Prog.always_emit, Call.off_eq] at call
  apply call
  have place : 0xf00A0000 + 320 * ((0 : Vga.Num).after y.toNat).val +
    ((0 : Vga.Num).after x.toNat).val = 0xf00A0000 + 320 * y + x := by
    rw [after_zero (by omega), after_zero (by omega)]
    omega
  rw [place]
  refine ⟨?_, rfl⟩
  have value := Call.toNat_address (i := 0xf00A0000 + 320 * y + x) (by omega) (by omega)
  rw [BitVec.lt_def, show screenMaxAddr.toNat = 4027252735 from rfl]
  omega

end Clear

inductive Event where
  | draw (shape : DrawType) (str : List Byte) (rounds : Nat)
  | clear (rounds : Nat)
  | packet (p : Packet)

namespace Event

def calls : Event → List Call
  | .draw shape str rounds => ((Vga.sysDraw shape str).run rounds).events
  | .clear rounds => (Vga.clearScreen.run rounds).events
  | .packet _ => []

def returns : Event → Bool
  | .draw shape str rounds => ((Vga.sysDraw shape str).run rounds).result.isSome
  | .clear rounds => (Vga.clearScreen.run rounds).result.isSome
  | .packet _ => true

end Event

namespace Driver

def mouseInit (mem : Word → Byte) : Driver where
  mem := mem
  currPos := ⟨160, 100⟩
  prevPos := ⟨0, 0⟩
  colorBackup _ := 0
  lastclicktick := -1000
  buf _ := none
  wpos := 0

def apply (s : Driver) (e : Event) : Driver :=
  match e with
  | .draw shape _ _ => s.sysDraw shape e.calls
  | .clear _ => s.sysClearScreen e.calls
  | .packet p => s.mouseCommand p

def step (s : Driver) (e : Event) : Option Driver := if e.returns then some (s.apply e) else none

def bare (mem : Word → Byte) (events : List Event) : Word → Byte :=
  events.foldl (fun mem e => written e.calls mem) mem

def Overlay (s : Driver) (mem : Word → Byte) : Prop :=
  ∀ x y, Visible x y → (s.drawMouse s.currPos true).mem (pixel x y) = mem (pixel x y)

def sight (s : Driver) : Sight := ⟨s.currPos, s.prevPos, fun x y => s.mem (pixel x y), s.colorBackup⟩

end Driver

namespace Sight

variable (v : Sight)

def restored (x y : Int) : Byte := match under v.prev x y with | some c => v.kept c | none => v.look x y

def rekept (c : Nat × Nat) : Byte :=
  if Shows v.curr c then v.restored (v.curr.x + c.2) (v.curr.y + c.1) else v.kept c

-- The middle button does no harm: what it keeps for the pointer in the middle of the screen is the
-- background there, the pointer that it leaves behind hides only pixels of its own colours, and
-- what it puts where the pointer was before is already there.
structure SafeMiddle : Prop where
  keeps : ∀ c, Shows ⟨160, 100⟩ c → v.rekept c = v.background (160 + c.2) (100 + c.1)
  leaves : ∀ c, Shows v.curr c → under ⟨160, 100⟩ (v.curr.x + c.2) (v.curr.y + c.1) = none →
    mouseColor (pointer c.1 c.2) = v.kept c
  restores : ∀ c, Shows v.prev c → under ⟨160, 100⟩ (v.prev.x + c.2) (v.prev.y + c.1) = none →
    under v.curr (v.prev.x + c.2) (v.prev.y + c.1) = none →
      v.kept c = v.look (v.prev.x + c.2) (v.prev.y + c.1)

def SafeDraw (calls : List Call) : Prop :=
  ∀ c, Shows v.curr c → Covers calls (spot v.curr c) ∨ v.look (v.curr.x + c.2) (v.curr.y + c.1) = v.kept c

variable {v}

theorem background_cell {c : Nat × Nat} (shows : Shows v.curr c) :
    v.background (v.curr.x + c.2) (v.curr.y + c.1) = v.kept c := by
  rw [background, under_cell shows]

theorem background_eq {look : Int → Int → Byte}
    (kept : ∀ c, Shows v.curr c → v.kept c = look (v.curr.x + c.2) (v.curr.y + c.1))
    (aside : ∀ x y, under v.curr x y = none → v.look x y = look x y) (x y : Int) :
    v.background x y = look x y := by
  unfold background
  split
  next c found =>
    obtain ⟨shows, rfl, rfl⟩ := of_under found
    exact kept c shows
  next free => exact aside x y free

theorem background_draw {pos : GridPos} (here : v.curr = pos) (x y : Int) :
    (v.draw pos).background x y = v.look x y := by
  subst here
  have aside : ∀ x y, under v.curr x y = none → (v.draw v.curr).look x y = v.look x y := by
    intro x y free
    simp only [draw, free]
  exact background_eq (v := v.draw v.curr) (fun _ shows => if_pos shows) aside x y

theorem background_move (p : Packet) (x y : Int) : (v.move p).background x y = v.background x y := by
  unfold move
  split
  · exact background_draw rfl x y
  · rfl

theorem background_middle (x y : Int) : v.middle.background x y =
    match under ⟨160, 100⟩ x y with
    | some c => v.rekept c
    | none =>
      match under v.curr x y with
      | some c => mouseColor (pointer c.1 c.2)
      | none => v.restored x y := rfl

theorem background_keep (x y : Int) : (v.keep v.curr).background x y = v.look x y :=
  background_eq (v := v.keep v.curr) (fun _ shows => if_pos shows) (fun _ _ _ => rfl) x y

theorem safeMiddle_iff : v.SafeMiddle ↔ ∀ x y, Visible x y →
    v.middle.background x y = v.background x y := by
  constructor
  · intro safe x y _
    rw [background_middle]
    split
    next c found =>
      obtain ⟨shows, rfl, rfl⟩ := of_under found
      exact safe.keeps c shows
    next aside =>
      split
      next c found =>
        obtain ⟨shows, rfl, rfl⟩ := of_under found
        rw [background_cell shows]
        exact safe.leaves c shows aside
      next free =>
        rw [restored, background, free]
        split
        next c found =>
          obtain ⟨shows, rfl, rfl⟩ := of_under found
          exact safe.restores c shows aside free
        · rfl
  · intro same
    refine ⟨fun c shows => ?_, fun c shows aside => ?_, fun c shows aside free => ?_⟩
    · have here := same _ _ shows.visible
      rwa [background_middle, under_cell shows] at here
    · have here := same _ _ shows.visible
      rwa [background_middle, aside, under_cell shows, background_cell shows] at here
    · have here := same _ _ shows.visible
      rwa [background_middle, aside, free, restored, under_cell shows, background, free] at here

theorem safeDraw_iff {calls : List Call} : v.SafeDraw calls ↔ ∀ x y, Visible x y →
    ((v.paint calls).keep v.curr).background x y = colored calls (pixel x y) (v.background x y) := by
  have drawn : ∀ x y, ((v.paint calls).keep v.curr).background x y =
    colored calls (pixel x y) (v.look x y) :=
    fun x y => background_keep (v := v.paint calls) x y
  constructor
  · intro safe x y on
    rw [drawn]
    unfold background
    split
    next c found =>
      obtain ⟨shows, rfl, rfl⟩ := of_under found
      rcases safe c shows with covers | same
      · exact colored_of_covers covers _ _
      · rw [same]
    · rfl
  · intro same c shows
    by_cases covers : Covers calls (spot v.curr c)
    · exact .inl covers
    · have here := same _ _ shows.visible
      rw [drawn, background_cell shows] at here
      change colored calls (spot v.curr c) _ = colored calls (spot v.curr c) _ at here
      rw [colored_of_not_covers covers, colored_of_not_covers covers] at here
      exact .inr here

end Sight

namespace Driver

variable {s s' : Driver} {mem : Word → Byte} {v : Sight} {events : List Event} {e : Event}

def Calm (s : Driver) : Event → Prop
  | .draw shape str rounds =>
    4 < shape.shape.toNat ∨ s.sight.SafeDraw ((Vga.sysDraw shape str).run rounds).events
  | .clear _ => True
  | .packet p => (p.xOverflow || p.yOverflow) = true ∨ p.mBtn = false ∨ (s.sight.move p).SafeMiddle

theorem sees_sight (s : Driver) : Sees s s.sight := ⟨rfl, rfl, rfl, fun _ _ _ => rfl⟩

theorem overlay_iff (sees : Sees s v) : s.Overlay mem ↔ ∀ x y, Visible x y →
    v.background x y = mem (pixel x y) := by
  have erased := sees.erase v.curr
  rw [← sees.curr] at erased
  refine forall_congr' fun x => forall_congr' fun y => forall_congr' fun on => ?_
  rw [erased.look x y on, sees.curr]
  rfl

theorem paint_overlay (overlay : s.Overlay mem) (calls : List Call) :
    (s.paint calls).mouseUpdateColorBackup.Overlay (written calls mem) ↔ s.sight.SafeDraw calls := by
  have sees := sees_sight s
  have behind := (overlay_iff sees).mp overlay
  rw [overlay_iff (sees.paint calls).keep, Sight.safeDraw_iff]
  refine forall_congr' fun x => forall_congr' fun y => forall_congr' fun on => ?_
  rw [written_apply, behind x y on]
  rfl

theorem calls_unknown {shape : DrawType} {str : List Byte} {rounds : Nat}
    (unknown : ¬shape.shape.toNat ≤ 4) : ((Vga.sysDraw shape str).run rounds).events = [] := by
  have other : ∀ n : Word, n.toNat ≤ 4 → shape.shape ≠ n := by
    intro n small same
    exact unknown (same ▸ small)
  rw [Vga.sysDraw, if_neg (other 0 (by decide)), if_neg (other 3 (by decide)),
    if_neg (other 1 (by decide)), if_neg (other 2 (by decide)), if_neg (other 4 (by decide))]
  rfl

theorem apply_overlay (overlay : s.Overlay mem) (returns : e.returns = true) :
    (s.apply e).Overlay (written e.calls mem) ↔ s.Calm e := by
  have sees := sees_sight s
  have behind := (overlay_iff sees).mp overlay
  cases e with
  | draw shape str rounds =>
    unfold Calm apply sysDraw
    by_cases known : shape.shape.toNat ≤ 4
    · dsimp only
      rw [if_pos known, paint_overlay overlay]
      exact ⟨.inr, fun calm => calm.resolve_left (by omega)⟩
    · have none_ : (Event.draw shape str rounds).calls = [] := calls_unknown known
      dsimp only
      rw [if_neg known, none_]
      exact iff_of_true overlay (.inl (by omega))
  | clear rounds =>
    refine iff_of_true ((paint_overlay overlay _).mpr fun c shows => .inl ?_) trivial
    exact clearScreen_covers (Option.isSome_iff_exists.mp returns).choose_spec shows.visible
  | packet p =>
    show (s.mouseCommand p).Overlay mem ↔ _
    rw [overlay_iff (sees.command p), Calm]
    cases overflow : (p.xOverflow || p.yOverflow) with
    | true =>
      refine iff_of_true ?_ (.inl rfl)
      rw [Sight.command, if_pos overflow]
      exact behind
    | false =>
      rw [Sight.command, if_neg (by rw [overflow]; decide)]
      cases middle : p.mBtn with
      | false =>
        refine iff_of_true (fun x y on => ?_) (.inr (.inl rfl))
        exact (Sight.background_move p x y).trans (behind x y on)
      | true =>
        rw [if_pos rfl]
        have safe : (s.sight.move p).SafeMiddle ↔ _ := Sight.safeMiddle_iff
        simp only [Bool.false_eq_true, false_or, reduceCtorEq, safe]
        refine forall_congr' fun x => forall_congr' fun y => forall_congr' fun on => ?_
        rw [Sight.background_move, behind x y on]

def Cleared (mem : Word → Byte) : Prop := ∀ x y, Visible x y → mem (pixel x y) = Vga.vgaBlack

theorem mouseInit_overlay (cleared : Cleared mem) : (mouseInit mem).Overlay mem := by
  rw [overlay_iff (sees_sight _)]
  intro x y on
  rw [cleared x y on, Sight.background]
  split
  · rfl
  · exact cleared x y on

theorem step_overlay (overlay : s.Overlay (bare mem events)) (next : step s e = some s') :
    s'.Overlay (bare mem (events ++ [e])) ↔ s.Calm e := by
  unfold step at next
  split at next
  next returns =>
    rw [← Option.some.inj next, bare, List.foldl_append]
    exact apply_overlay overlay returns
  · cases next

theorem overlay_of_run (cleared : Cleared mem) (run : Run step Calm (mouseInit mem) events s) :
    s.Overlay (bare mem events) := by
  induction run with
  | nil => exact mouseInit_overlay cleared
  | snoc _ calm next ih => exact (step_overlay ih next).mpr calm

theorem pointer_erased_iff (cleared : Cleared mem) (run : Run step Calm (mouseInit mem) events s)
    (next : step s e = some s') : s.Overlay (bare mem events) ∧
    (s'.Overlay (bare mem (events ++ [e])) ↔ s.Calm e) := by
  have overlay := overlay_of_run cleared run
  exact ⟨overlay, step_overlay overlay next⟩

def rightwards : Packet := ⟨false, false, false, false, false, false, false, 64, 0, 0⟩

def middleClick : Packet := ⟨false, false, false, false, true, false, false, 0, 0, 0⟩

-- The first packet is a click with the middle button: the pointer has not been drawn before it.
theorem pointer_erased_clicked : ∃ s, Run step Calm (mouseInit fun _ => 0) [.packet middleClick] s ∧
    (s.mouseCommand rightwards).Overlay fun _ => 0 := by
  have cleared : Cleared fun _ => 0 := fun _ _ _ => rfl
  have black : ∀ x y, (mouseInit fun _ => 0).sight.background x y = 0 := by
    intro x y
    unfold Sight.background
    split <;> rfl
  have safe : ((mouseInit fun _ => 0).sight.move middleClick).SafeMiddle := by
    refine ⟨fun c shows => ?_, fun c shows aside => ?_, fun c _ _ _ => rfl⟩
    · refine Eq.trans ?_ (black _ _).symm
      unfold Sight.rekept Sight.restored
      split
      · split <;> rfl
      · rfl
    · exact absurd ((under_cell shows).symm.trans aside) (by simp)
  have run : Run step Calm (mouseInit fun _ => 0) [.packet middleClick]
    ((mouseInit fun _ => 0).mouseCommand middleClick) :=
    Run.single (.inr (.inr safe)) rfl
  exact ⟨_, run, (pointer_erased_iff cleared run (e := .packet rightwards) rfl).2.mpr (.inr (.inl rfl))⟩

def shortLine : DrawType := ⟨1, 4, 0, 3, 0⟩

-- After a movement and a drawing elsewhere on the screen, the pointer cannot be erased any more.
theorem pointer_stays :
    ∃ s, Run step (fun _ _ => True) (mouseInit fun _ => 0)
      [.packet rightwards, .draw shortLine [] 9] s ∧
    bare (fun _ => 0) [.packet rightwards, .draw shortLine [] 9] (pixel 162 100) = 0 ∧
    (s.drawMouse s.currPos true).mem (pixel 162 100) = 15 ∧
    ¬s.Overlay (bare (fun _ => 0) [.packet rightwards, .draw shortLine [] 9]) := by
  have plain : bare (fun _ => 0) [.packet rightwards, .draw shortLine [] 9] (pixel 162 100) = 0 := by
    decide +kernel
  refine Run.of_exec_imp (p := fun s => (s.drawMouse s.currPos true).mem (pixel 162 100) = 15)
    (by decide +kernel) fun s run shows => ?_
  refine ⟨plain, shows, fun overlay => ?_⟩
  have same := overlay 162 100 ⟨⟨by decide, by decide⟩, by decide, by decide⟩
  rw [plain, shows] at same
  cases same

end Driver

end Jos.Kern.Mouse
