import Jos.Fs.Volume

namespace Jos.Fs

open Jos.Shared
open Jos.Kern (Word Byte)

inductive Cell where
  | direct (i : Fin 10)
  | indirect
  | entry (k : Fin 1024)
  deriving DecidableEq

def Cell.ofBlock (n : Nat) : Option Cell :=
  if h : n < 10 then some (.direct ⟨n, h⟩)
  else if h : n - 10 < 1024 then some (.entry ⟨n - 10, h⟩)
  else none

theorem Cell.ofBlock_cases {n : Nat} {c : Cell} (place : ofBlock n = some c) :
    (∃ i : Fin 10, c = .direct i ∧ n = i) ∨ ∃ k : Fin 1024, c = .entry k ∧ n = 10 + k := by
  unfold ofBlock at place
  split at place
  next low => exact .inl ⟨⟨n, low⟩, by cases place; rfl, rfl⟩
  next high =>
    split at place
    next inside => exact .inr ⟨⟨n - 10, inside⟩, by cases place; rfl, by simp only; omega⟩
    · cases place

theorem Cell.ofBlock_data {n : Nat} {c : Cell} (place : ofBlock n = some c) : c ≠ .indirect := by
  rcases ofBlock_cases place with ⟨i, rfl, -⟩ | ⟨k, rfl, -⟩ <;> simp

theorem Cell.ofBlock_inj {n n' : Nat} {c : Cell} (place : ofBlock n = some c)
    (place' : ofBlock n' = some c) : n = n' := by
  rcases ofBlock_cases place with ⟨i, rfl, rfl⟩ | ⟨k, rfl, rfl⟩ <;>
    rcases ofBlock_cases place' with ⟨i', same, rfl⟩ | ⟨k', same, rfl⟩ <;> cases same <;> rfl

def Cell.word : Cell → Option Nat
  | .direct i => some (34 + i)
  | .indirect => some 44
  | .entry _ => none

namespace Image

def size (m : Image) (f : FilePtr) : Word := m f.block f.fSize

def type (m : Image) (f : FilePtr) : Word := m f.block f.fType

def indirect (m : Image) (f : FilePtr) : Nat := (m f.block f.fIndirect).toNat

def loc (m : Image) (f : FilePtr) : Cell → Nat × Nat
  | .direct i => (f.block, f.fDirect i)
  | .indirect => (f.block, f.fIndirect)
  | .entry k => (m.indirect f, k)

def cell (m : Image) (f : FilePtr) : Cell → Nat
  | .direct i => (m f.block (f.fDirect i)).toNat
  | .indirect => m.indirect f
  | .entry k => if m.indirect f = 0 then 0 else (m (m.indirect f) k).toNat

/-- The structures in the directory tree, whether they are in use or not. -/
inductive Slot (m : Image) : FilePtr → Prop
  | root : Slot m .root
  | entry {d : FilePtr} {c : Cell} {j : Nat} (dir : Slot m d) (kind : m.type d = ftypeDir)
    (data : c ≠ .indirect)
      (present : m.cell d c ≠ 0) (place : j < 16) : Slot m (.entry (m.cell d c) j)

def Trusted (stale : Set FilePtr) (f : FilePtr) (c : Cell) : Prop := c.word = none → f ∉ stale

theorem Trusted.of_mem {stale : Set FilePtr} {f : FilePtr} {c : Cell} (current : f ∉ stale) :
    Trusted stale f c :=
  fun _ => current

theorem Trusted.indirect {stale : Set FilePtr} {f : FilePtr} : Trusted stale f .indirect := nofun

/-- The metadata hang together: pointers lead to blocks in use, no two of them to the same one, and
what is not in use as a file is empty. -/
structure Inv (m : Image) (stale : Set FilePtr) : Prop where
  small : m.Small
  regular : ∀ f ∈ stale, m.Slot f → m.type f ≠ ftypeDir
  range : ∀ f c, m.Slot f → Trusted stale f c → m.cell f c ≠ 0 → 3 ≤ m.cell f c ∧ m.Valid (m.cell f c)
  unique : ∀ f c g c', m.Slot f → m.Slot g → Trusted stale f c → Trusted stale g c' → m.cell f c ≠ 0 →
    m.cell f c = m.cell g c' → f = g ∧ c = c'
  rootDir : m.type .root = ftypeDir
  kinds : ∀ f, m.Slot f → m.type f = 0 ∨ m.type f = ftypeDir
  dirSize : ∀ f, m.Slot f → m.type f = ftypeDir → (m.size f).toNat % 4096 = 0
  vacant : ∀ f, m.Slot f → f ≠ .root → byteAt (m f.block) f.fName = 0 →
    m.size f = 0 ∧ m.type f = 0 ∧ ∀ c, m.cell f c = 0

section Places

variable {m : Image} {stale : Set FilePtr} {f g : FilePtr} {c : Cell}

theorem Slot.cases (slot : m.Slot f) : f = .root ∨
    ∃ d c j, m.Slot d ∧ m.type d = ftypeDir ∧ c ≠ .indirect ∧ m.cell d c ≠ 0 ∧ j < 16 ∧
    f = .entry (m.cell d c) j := by
  cases slot with
  | root => exact .inl rfl
  | entry dir kind data present place => exact .inr ⟨_, _, _, dir, kind, data, present, place, rfl⟩

variable (inv : m.Inv stale)
include inv

theorem Inv.trusted (dir : m.Slot f) (kind : m.type f = ftypeDir) : Trusted stale f c :=
  .of_mem fun old => inv.regular f old dir kind

theorem Slot.valid (slot : m.Slot f) : m.Valid f.block := by
  rcases slot.cases with rfl | ⟨d, c, j, dir, kind, -, present, -, rfl⟩
  · exact inv.small.valid (by decide)
  · exact (inv.range d c dir (inv.trusted dir kind) present).2

theorem Slot.block_cases (slot : m.Slot f) : f = .root ∨ 3 ≤ f.block := by
  rcases slot.cases with rfl | ⟨d, c, j, dir, kind, -, present, -, rfl⟩
  · exact .inl rfl
  · exact .inr (inv.range d c dir (inv.trusted dir kind) present).1

theorem Slot.word_inj (slot : m.Slot f) (slot' : m.Slot g) {x y : Nat} (small : x < 64) (small' : y < 64)
    (block : f.block = g.block) (word : f.base + x = g.base + y) : f = g ∧ x = y := by
  rcases slot.cases with rfl | ⟨d, c, j, dir, kind, -, present, -, rfl⟩
  · rcases slot'.block_cases inv with rfl | high
    · exact ⟨rfl, by omega⟩
    · rw [← block] at high
      exact absurd high (by decide)
  · rcases slot'.cases with rfl | ⟨d', c', j', dir', -, -, present', -, rfl⟩
    · have high := (inv.range d c dir (inv.trusted dir kind) present).1
      rw [show m.cell d c = 1 from block] at high
      exact absurd high (by decide)
    · simp only [FilePtr.entry] at block word ⊢
      have same : j = j' := by omega
      subst same
      exact ⟨by rw [block], by omega⟩

theorem Slot.indirect_ne (slot : m.Slot f) (slot' : m.Slot g) (present : m.indirect f ≠ 0) :
    m.indirect f ≠ g.block := by
  intro same
  rcases slot'.cases with rfl | ⟨d, c, j, dir, kind, data, -, -, rfl⟩
  · have high := (inv.range f .indirect slot .indirect present).1
    rw [show m.cell f .indirect = 1 from same] at high
    exact absurd high (by decide)
  · exact data (inv.unique f .indirect d c slot dir .indirect (inv.trusted dir kind) present same).2.symm

theorem Slot.indirect_inj (slot : m.Slot f) (slot' : m.Slot g) (present : m.indirect f ≠ 0)
    (same : m.indirect f = m.indirect g) : f = g :=
  (inv.unique f .indirect g .indirect slot slot' .indirect .indirect present same).1

theorem Slot.data_ne (slot : m.Slot f) (current : f ∉ stale) (kind : m.type f ≠ ftypeDir)
    (data : c ≠ .indirect) (present : m.cell f c ≠ 0) (slot' : m.Slot g) : m.cell f c ≠ g.block ∧
    m.cell f c ≠ m.indirect g := by
  refine ⟨fun same => ?_, fun same => ?_⟩
  · rcases slot'.cases with rfl | ⟨d, c', j, dir, kind', -, -, -, rfl⟩
    · have high := (inv.range f c slot (.of_mem current) present).1
      rw [show m.cell f c = 1 from same] at high
      exact absurd high (by decide)
    · obtain ⟨rfl, -⟩ :=
        inv.unique f c d c' slot dir (.of_mem current) (inv.trusted dir kind') present same
      exact kind kind'
  · exact data (inv.unique f c g .indirect slot slot' (.of_mem current) .indirect present same).2

theorem Slot.own_ne (slot : m.Slot f) (current : f ∉ stale) (present : m.cell f c ≠ 0) :
    m.cell f c ≠ f.block := by
  induction slot generalizing c with
  | root =>
    have high := (inv.range .root c .root (.of_mem current) present).1
    exact fun same => absurd (same ▸ high) (by decide)
  | @entry d c' j dir kind data present' place ih =>
    intro same
    have slot : m.Slot (.entry (m.cell d c') j) := .entry dir kind data present' place
    obtain ⟨here, -⟩ := inv.unique _ c d c' slot dir (.of_mem current) (inv.trusted dir kind) present same
    rw [here] at current
    exact ih current present' (congrArg FilePtr.block here)

end Places

def Outside (m : Image) (f g : FilePtr) : Prop := ∀ c, c ≠ .indirect → m.cell g c ≠ 0 →
    m.cell g c ≠ f.block

section Outside

variable {m : Image} {stale : Set FilePtr} {f g : FilePtr} (inv : m.Inv stale) (slot : m.Slot g)
    (current : g ∉ stale)
include inv slot current

theorem Slot.outside (kind : m.type g ≠ ftypeDir) (slot' : m.Slot f) : m.Outside f g :=
  fun _ data present => (slot.data_ne inv current kind data present slot').1

theorem Slot.outside_self : m.Outside g g := fun _ _ present => slot.own_ne inv current present

end Outside

structure SameBitmap (m m' : Image) : Prop where
  nblocks : m'.nblocks = m.nblocks
  free : ∀ q < 32768, m'.free q = m.free q

namespace SameBitmap

variable {m m' : Image} {b k : Nat} (same : m.SameBitmap m')
include same

theorem small (small : m.Small) : m'.Small :=
  ⟨same.nblocks ▸ small.low, same.nblocks ▸ small.high, fun b low =>
    (same.free b (by omega)).trans (small.reserved b low)⟩

theorem valid (small : m.Small) {b : Nat} (valid : m.Valid b) : m'.Valid b :=
  ⟨same.nblocks ▸ valid.exists_, (same.free b (valid.exists_.trans_le small.high)).trans valid.used⟩

omit same in
theorem put (word : Word) (bitmap : b ≠ 2) (super : b = 1 → k ≠ 1) : m.SameBitmap (m.put b k word) := by
  refine ⟨nblocks_put (by by_cases one : b = 1 <;> simp [one, super]), fun q inside => ?_⟩
  rw [free_of_small inside, free_of_small inside, put_of_ne (.inl bitmap.symm)]

end SameBitmap

structure SameMeta (m m' : Image) : Prop where
  field : ∀ g, m.Slot g → ∀ x, 32 ≤ x → x < 64 → m' g.block (g.base + x) = m g.block (g.base + x)
  entry : ∀ g, m.Slot g → m.indirect g ≠ 0 → ∀ k : Fin 1024, m' (m.indirect g) k = m (m.indirect g) k

namespace SameMeta

variable {m m' : Image} {g : FilePtr} (same : m.SameMeta m') (slot : m.Slot g)
include same slot

theorem size : m'.size g = m.size g := same.field g slot 32 (by decide) (by decide)

theorem type : m'.type g = m.type g := same.field g slot 33 (by decide) (by decide)

theorem indirect : m'.indirect g = m.indirect g :=
  congrArg BitVec.toNat (same.field g slot 44 (by decide) (by decide))

theorem cell (c : Cell) : m'.cell g c = m.cell g c := by
  have ind := same.indirect slot
  cases c with
  | direct i =>
    have word := same.field g slot (34 + i) (by omega) (by omega)
    rw [← Nat.add_assoc] at word
    exact congrArg BitVec.toNat word
  | indirect => exact ind
  | entry k =>
    simp only [Image.cell, ind]
    split
    · rfl
    next present => rw [same.entry g slot present k]

end SameMeta

theorem slot_congr {m m' : Image} (same : ∀ g, m.Slot g → m'.type g = m.type g ∧
    (m.type g = ftypeDir → ∀ c, c ≠ .indirect → m'.cell g c = m.cell g c)) (f : FilePtr) :
    m'.Slot f ↔ m.Slot f := by
  refine ⟨fun slot => ?_, fun slot => ?_⟩
  · induction slot with
    | root => exact .root
    | entry _ kind data present place ih =>
      obtain ⟨type, cells⟩ := same _ ih
      rw [type] at kind
      rw [cells kind _ data] at present ⊢
      exact .entry ih kind data present place
  · induction slot with
    | root => exact .root
    | entry dir kind data present place ih =>
      obtain ⟨type, cells⟩ := same _ dir
      rw [← cells kind _ data] at present ⊢
      exact .entry ih (type.trans kind) data present place

theorem SameMeta.slot {m m' : Image} (same : m.SameMeta m') (f : FilePtr) : m'.Slot f ↔ m.Slot f :=
  slot_congr (fun _ slot => ⟨same.type slot, fun _ c _ => same.cell slot c⟩) f

theorem Inv.revise {m m' : Image} {stale : Set FilePtr} (inv : m.Inv stale) (small : m'.Small)
    (slots : ∀ f, m'.Slot f → m.Slot f) (types : ∀ f, m.Slot f → m'.type f = m.type f)
    (cells : ∀ f c, m.Slot f → m'.cell f c ≠ 0 → m'.cell f c = m.cell f c ∧
    (Trusted stale f c → m'.Valid (m.cell f c)))
    (sizes : ∀ f, m.Slot f → m.type f = ftypeDir → (m'.size f).toNat % 4096 = 0)
    (names : ∀ f, m.Slot f → f ≠ .root → byteAt (m' f.block) f.fName = 0 →
      byteAt (m f.block) f.fName = 0 ∧ m'.size f = m.size f) : m'.Inv stale where
  small := small
  regular := by
    intro f old slot
    replace slot := slots f slot
    rw [types f slot]
    exact inv.regular f old slot
  range := by
    intro f c slot trusted present
    replace slot := slots f slot
    obtain ⟨same, valid⟩ := cells f c slot present
    rw [same] at present ⊢
    exact ⟨(inv.range f c slot trusted present).1, valid trusted⟩
  unique := by
    intro f c g c' slot slot' trusted trusted' present equal
    replace slot := slots f slot
    replace slot' := slots g slot'
    have same := (cells f c slot present).1
    have same' := (cells g c' slot' (equal ▸ present)).1
    rw [same] at present equal
    exact inv.unique f c g c' slot slot' trusted trusted' present (equal.trans same')
  rootDir := (types _ .root).trans inv.rootDir
  kinds := by
    intro f slot
    replace slot := slots f slot
    rw [types f slot]
    exact inv.kinds f slot
  dirSize := by
    intro f slot kind
    replace slot := slots f slot
    rw [types f slot] at kind
    exact sizes f slot kind
  vacant := by
    intro f slot other unnamed
    replace slot := slots f slot
    obtain ⟨unnamed, sameSize⟩ := names f slot other unnamed
    obtain ⟨size, type, zero⟩ := inv.vacant f slot other unnamed
    refine ⟨sameSize.trans size, (types f slot).trans type, fun c => ?_⟩
    by_contra present
    exact present ((cells f c slot present).1.trans (zero c))

theorem SameMeta.inv {m m' : Image} {stale : Set FilePtr} (same : m.SameMeta m') (inv : m.Inv stale)
    (small : m'.Small) (valid : ∀ f c, m.Slot f → Trusted stale f c → m.cell f c ≠ 0 →
    m'.Valid (m.cell f c)) (names : ∀ f, m.Slot f → f ≠ .root → byteAt (m' f.block) f.fName = 0 →
    byteAt (m f.block) f.fName = 0) : m'.Inv stale := by
  refine inv.revise small (fun f => (same.slot f).mp) (fun f slot => same.type slot)
    (fun f c slot present => ?_) (fun f slot kind => ?_) fun f slot other unnamed =>
    ⟨names f slot other unnamed, same.size slot⟩
  · have equal := same.cell slot c
    exact ⟨equal, fun trusted => valid f c slot trusted (equal ▸ present)⟩
  · rw [same.size slot]
    exact inv.dirSize f slot kind

def Away (m : Image) (p : Nat) : Prop :=
  ∀ g, m.Slot g → g.block ≠ p ∧ (m.indirect g ≠ 0 → m.indirect g ≠ p)

section Blocks

variable {m m' : Image} {stale : Set FilePtr} {p : Nat} {f : FilePtr} {c : Cell}

theorem SameMeta.of_blocks {p : Nat → Prop} (away : ∀ b, p b → m.Away b) (same : ∀ b, ¬p b → m' b = m b) :
    m.SameMeta m' := by
  refine ⟨fun g slot x _ _ => ?_, fun g slot present k => ?_⟩
  · rw [same g.block fun changed => (away _ changed g slot).1 rfl]
  · rw [same (m.indirect g) fun changed => (away _ changed g slot).2 present rfl]

theorem Inv.away_bitmap (inv : m.Inv stale) : m.Away 2 := by
  refine fun g slot => ⟨?_, fun present same => ?_⟩
  · rcases slot.block_cases inv with rfl | high
    · decide
    · omega
  · have high := (inv.range g .indirect slot .indirect present).1
    rw [show m.cell g .indirect = 2 from same] at high
    omega

theorem Inv.away_free (inv : m.Inv stale) (free : m.free p = true) : m.Away p := by
  refine fun g slot => ⟨?_, fun present => ?_⟩ <;> rintro rfl
  · exact absurd free (by rw [(slot.valid inv).used]; decide)
  · have used : m.free (m.indirect g) = false :=
      (inv.range g .indirect slot .indirect present).2.used
    exact absurd free (by rw [used]; decide)

theorem Slot.away_data (inv : m.Inv stale) (slot : m.Slot f) (current : f ∉ stale)
    (kind : m.type f ≠ ftypeDir) (data : c ≠ .indirect) (present : m.cell f c ≠ 0) :
    m.Away (m.cell f c) := by
  intro g slot'
  obtain ⟨block, indirect⟩ := slot.data_ne inv current kind data present slot'
  exact ⟨block.symm, fun _ => indirect.symm⟩

end Blocks

section Pointer

variable {m : Image} {stale : Set FilePtr} {f g : FilePtr} {c : Cell} {w : Word}

def setCell (m : Image) (f : FilePtr) (c : Cell) (w : Word) : Image := m.put (m.loc f c).1 (m.loc f c).2 w

variable (inv : m.Inv stale) (slot : m.Slot f) (present : ∀ k, c = .entry k → m.indirect f ≠ 0)
include inv slot

theorem field_put (slot' : m.Slot g) {x y : Nat} (small : x < 64) (small' : y < 64) :
    m.put f.block (f.base + y) w g.block (g.base + x) =
      if g = f ∧ x = y then w else m g.block (g.base + x) := by
  split
  next here => rw [here.1, here.2, put_self]
  next other =>
    refine put_of_ne ?_
    by_contra same
    push Not at same
    exact other (slot'.word_inj inv slot small small' same.1 same.2)

theorem sameBitmap_put (w : Word) (y : Nat) : m.SameBitmap (m.put f.block (f.base + y) w) := by
  refine .put w (inv.away_bitmap f slot).1 fun one => ?_
  rcases slot.block_cases inv with rfl | high
  · simp only [FilePtr.root]
    omega
  · omega

theorem entry_put (slot' : m.Slot g) (present' : m.indirect g ≠ 0) (y : Nat) (k : Fin 1024) :
    m.put f.block y w (m.indirect g) k = m (m.indirect g) k :=
  put_of_ne (.inl (slot'.indirect_ne inv slot present'))

include present

theorem field_setCell (slot' : m.Slot g) {x : Nat} (small : x < 64) :
    m.setCell f c w g.block (g.base + x) = if g = f ∧
    c.word = some x then w else m g.block (g.base + x) := by
  cases c with
  | direct i =>
    have spot := field_put inv slot slot' (w := w) small (show 34 + i.val < 64 by omega)
    simpa [setCell, loc, FilePtr.fDirect, Cell.word, Nat.add_assoc, eq_comm (a := x)] using spot
  | indirect =>
    have spot := field_put inv slot slot' (w := w) small (show 44 < 64 by decide)
    simpa [setCell, loc, FilePtr.fIndirect, Cell.word, eq_comm (a := x)] using spot
  | entry k =>
    rw [if_neg (by simp [Cell.word]), setCell]
    exact put_of_ne (.inl (slot.indirect_ne inv slot' (present k rfl)).symm)

theorem entry_setCell (slot' : m.Slot g) (present' : m.indirect g ≠ 0) (k : Fin 1024) :
    m.setCell f c w (m.indirect g) k = if g = f ∧ c = .entry k then w else m (m.indirect g) k := by
  cases c with
  | direct i =>
    rw [if_neg (by simp)]
    exact entry_put inv slot slot' present' _ k
  | indirect =>
    rw [if_neg (by simp)]
    exact entry_put inv slot slot' present' _ k
  | entry k' =>
    split
    next here =>
      obtain ⟨rfl, same⟩ := here
      obtain rfl := Cell.entry.inj same
      exact put_self _ _ _ _
    next other =>
      refine put_of_ne ?_
      by_contra same
      push Not at same
      obtain rfl := slot'.indirect_inj inv slot present' same.1
      exact other ⟨rfl, by rw [Fin.ext (show k.val = k'.val from same.2)]⟩

theorem sameBitmap_setCell (w : Word) : m.SameBitmap (m.setCell f c w) := by
  cases c with
  | direct i =>
    rw [setCell, loc, FilePtr.fDirect, Nat.add_assoc]
    exact sameBitmap_put inv slot w _
  | indirect => exact sameBitmap_put inv slot w 44
  | entry k =>
    have high := (inv.range f .indirect slot .indirect (present k rfl)).1
    simp only [Image.cell] at high
    refine .put w ?_ ?_ <;> simp only [loc] <;> omega

theorem size_setCell (slot' : m.Slot g) : (m.setCell f c w).size g = m.size g := by
  refine (field_setCell inv slot present slot' (show 32 < 64 by decide)).trans (if_neg ?_)
  cases c <;> simp [Cell.word]
  omega

theorem type_setCell (slot' : m.Slot g) : (m.setCell f c w).type g = m.type g := by
  refine (field_setCell inv slot present slot' (show 33 < 64 by decide)).trans (if_neg ?_)
  cases c <;> simp [Cell.word]
  omega

theorem indirect_setCell (slot' : m.Slot g) :
    (m.setCell f c w).indirect g = if g = f ∧ c = .indirect then w.toNat else m.indirect g := by
  have spot := field_setCell inv slot present slot' (w := w) (show 44 < 64 by decide)
  rw [Image.indirect, Image.indirect, FilePtr.fIndirect, spot]
  cases c with
  | direct i => simp [Cell.word, show 34 + i.val ≠ 44 by omega]
  | indirect => by_cases same : g = f <;> simp [Cell.word, same]
  | entry k => simp [Cell.word]

theorem cell_setCell (empty : c = .indirect → (∀ k, m.cell f (.entry k) = 0) ∧
      (w ≠ 0 → m w.toNat = (fun _ => 0) ∧ w.toNat ≠ f.block)) (slot' : m.Slot g) (c' : Cell) :
    (m.setCell f c w).cell g c' = if g = f ∧ c' = c then w.toNat else m.cell g c' := by
  have ind := indirect_setCell inv slot present slot' (w := w)
  cases c' with
  | direct i =>
    have spot := field_setCell inv slot present slot' (w := w) (show 34 + i.val < 64 by omega)
    rw [← Nat.add_assoc] at spot
    rw [Image.cell, Image.cell, FilePtr.fDirect, spot]
    have this : c.word = some (34 + i.val) ↔ .direct i = c := by
      cases c with
      | direct i' => simp [Cell.word, Fin.ext_iff, eq_comm]
      | indirect => simp [Cell.word]; omega
      | entry k => simp [Cell.word]
    simp only [this, apply_ite BitVec.toNat]
  | indirect => simpa [Image.cell, eq_comm] using ind
  | entry k =>
    by_cases switch : g = f ∧ c = .indirect
    · obtain ⟨rfl, rfl⟩ := switch
      obtain ⟨before, after⟩ := empty rfl
      replace ind := ind.trans (if_pos ⟨rfl, rfl⟩)
      rw [if_neg (by simp), before k, Image.cell, ind]
      by_cases none : w = 0
      · simp [none]
      · obtain ⟨zero, away⟩ := after none
        have clear : m.setCell g .indirect w w.toNat k = 0 := by
          rw [setCell, loc, put_of_ne (.inl away), zero]
        simp [clear]
    · rw [if_neg switch] at ind
      rw [Image.cell, Image.cell, ind]
      by_cases gone : m.indirect g = 0
      · have other : ¬(g = f ∧ Cell.entry k = c) := by
          rintro ⟨rfl, rfl⟩
          exact present k rfl gone
        rw [if_pos gone, if_pos gone, if_neg other]
      · rw [if_neg gone, if_neg gone, entry_setCell inv slot present slot' gone, apply_ite BitVec.toNat]
        simp only [eq_comm (a := c)]

theorem name_setCell (slot' : m.Slot g) :
    byteAt (m.setCell f c w g.block) g.fName = byteAt (m g.block) g.fName := by
  have spot := field_setCell inv slot present slot' (w := w) (show 0 < 64 by decide)
  rw [if_neg (by cases c <;> simp [Cell.word])] at spot
  have index : g.fName / 4 = g.base + 0 := by simp [FilePtr.fName]
  rw [byteAt, byteAt, index, spot]

end Pointer

def Named (m : Image) (f : FilePtr) : Prop := f = .root ∨ byteAt (m f.block) f.fName ≠ 0

theorem Inv.named_dir {m : Image} {stale : Set FilePtr} {d : FilePtr} (inv : m.Inv stale)
    (slot : m.Slot d) (kind : m.type d = ftypeDir) : m.Named d := by
  by_contra unnamed
  simp only [Named, not_or, ne_eq, not_not] at unnamed
  have vacant := (inv.vacant d slot unnamed.1 unnamed.2).2.1
  exact absurd (kind.symm.trans vacant) (by decide)

structure Fresh (m : Image) (stale : Set FilePtr) (p : Nat) : Prop where
  high : 3 ≤ p
  valid : m.Valid p
  zero : m p = fun _ => 0
  unreferenced : ∀ g c, m.Slot g → Trusted stale g c → m.cell g c ≠ p

section Link

variable {m : Image} {stale : Set FilePtr} {f g : FilePtr} {c : Cell} {p : Nat}

theorem Fresh.away (inv : m.Inv stale) (fresh : m.Fresh stale p) : m.Away p := by
  refine fun g slot => ⟨?_, fun _ => fresh.unreferenced g .indirect slot .indirect⟩
  rcases slot.cases with rfl | ⟨d, c, j, dir, kind, -, -, -, rfl⟩
  · have high := fresh.high
    simp only [FilePtr.root]
    omega
  · exact fresh.unreferenced d c dir (inv.trusted dir kind)

theorem Fresh.toNat (inv : m.Inv stale) (fresh : m.Fresh stale p) : (BitVec.ofNat 32 p).toNat = p := by
  have inside := fresh.valid.exists_
  have high := inv.small.high
  rw [BitVec.toNat_ofNat]
  omega

variable (inv : m.Inv stale) (slot : m.Slot f) (present : ∀ k, c = .entry k → m.indirect f ≠ 0)
    (fresh : m.Fresh stale p)
  (vacant : m.cell f c = 0)
include inv slot present fresh vacant

theorem cell_link (slot' : m.Slot g) (c' : Cell) :
    (m.setCell f c (BitVec.ofNat 32 p)).cell g c' = if g = f ∧ c' = c then p else m.cell g c' := by
  have number := fresh.toNat inv
  rw [cell_setCell inv slot present ?_ slot' c', number]
  rintro rfl
  refine ⟨fun k => if_pos vacant, fun _ => ?_⟩
  rw [number]
  exact ⟨fresh.zero, (fresh.away inv f slot).1.symm⟩

omit vacant in
theorem words_link (x : Nat) : m.setCell f c (BitVec.ofNat 32 p) p x = 0 := by
  have other : p ≠ (m.loc f c).1 := by
    cases c with
    | direct i => exact (fresh.away inv f slot).1.symm
    | indirect => exact (fresh.away inv f slot).1.symm
    | entry k => exact ((fresh.away inv f slot).2 (present k rfl)).symm
  rw [setCell, put_of_ne (.inl other), fresh.zero]

omit vacant in
theorem cell_new (j : Nat) (c' : Cell) :
    (m.setCell f c (BitVec.ofNat 32 p)).cell (.entry p j) c' = 0 := by
  have words := words_link inv slot present fresh
  have none : (m.setCell f c (BitVec.ofNat 32 p)).indirect (.entry p j) = 0 := by
    simp [Image.indirect, FilePtr.entry, words]
  cases c' with
  | direct i => simp [Image.cell, FilePtr.entry, words]
  | indirect => exact none
  | entry k => simp [Image.cell, none]

theorem slot_link (g : FilePtr) : (m.setCell f c (BitVec.ofNat 32 p)).Slot g ↔
    m.Slot g ∨ (m.type f = ftypeDir ∧ c ≠ .indirect) ∧ ∃ j < 16, g = .entry p j := by
  have cells := fun {g} (slot' : m.Slot g) => cell_link inv slot present fresh vacant slot'
  have types := fun {g} (slot' : m.Slot g) => type_setCell inv slot present slot' (w := BitVec.ofNat 32 p)
  refine ⟨fun slot' => ?_, ?_⟩
  · induction slot' with
    | root => exact .inl .root
    | entry dir kind data linked place ih =>
      rcases ih with old | ⟨-, j, -, rfl⟩
      · rw [types old] at kind
        rw [cells old] at linked ⊢
        split
        next here =>
          obtain ⟨rfl, rfl⟩ := here
          exact .inr ⟨⟨kind, data⟩, _, place, rfl⟩
        next other =>
          rw [if_neg other] at linked
          exact .inl (.entry old kind data linked place)
      · have zero : (m.setCell f c (BitVec.ofNat 32 p)).type (.entry p j) = 0 :=
          words_link inv slot present fresh _
        exact absurd (kind.symm.trans zero) (by decide)
  · have grows : ∀ g, m.Slot g → (m.setCell f c (BitVec.ofNat 32 p)).Slot g := by
      intro g old
      induction old with
      | root => exact .root
      | @entry d c' j dir kind data linked place ih =>
        have same : (m.setCell f c (BitVec.ofNat 32 p)).cell d c' = m.cell d c' := by
          rw [cells dir, if_neg]
          rintro ⟨rfl, rfl⟩
          exact linked vacant
        rw [← same] at linked ⊢
        exact .entry ih ((types dir).trans kind) data linked place
    rintro (old | ⟨⟨kind, data⟩, j, place, rfl⟩)
    · exact grows g old
    · have target : (m.setCell f c (BitVec.ofNat 32 p)).cell f c = p :=
        (cells slot c).trans (if_pos ⟨rfl, rfl⟩)
      have high := fresh.high
      rw [show FilePtr.entry p j = .entry ((m.setCell f c (BitVec.ofNat 32 p)).cell f c) j by rw [target]]
      exact .entry (grows f slot) ((types slot).trans kind) data (by omega) place

theorem link_inv (named : m.Named f) : (m.setCell f c (BitVec.ofNat 32 p)).Inv stale := by
  have cells := fun {g} (slot' : m.Slot g) => cell_link inv slot present fresh vacant slot'
  have types := fun {g} (slot' : m.Slot g) => type_setCell inv slot present slot' (w := BitVec.ofNat 32 p)
  have sizes := fun {g} (slot' : m.Slot g) => size_setCell inv slot present slot' (w := BitVec.ofNat 32 p)
  have slots := slot_link inv slot present fresh vacant
  have new := cell_new inv slot present fresh
  have words := words_link inv slot present fresh
  have bitmap := sameBitmap_setCell inv slot present (BitVec.ofNat 32 p)
  have distinct : ∀ g c' h c'', m.Slot g → m.Slot h → Trusted stale g c' → Trusted stale h c'' →
      (m.setCell f c (BitVec.ofNat 32 p)).cell g c' ≠ 0 →
        (m.setCell f c (BitVec.ofNat 32 p)).cell g c' =
        (m.setCell f c (BitVec.ofNat 32 p)).cell h c'' →
      g = h ∧ c' = c'' := by
    intro g c' h c'' slotg sloth trustedg trustedh
    rw [cells slotg, cells sloth]
    split
    next here =>
      split
      next there => exact fun _ _ => ⟨here.1.trans there.1.symm, here.2.trans there.2.symm⟩
      · exact fun _ same => absurd same.symm (fresh.unreferenced h c'' sloth trustedh)
    · split
      · exact fun _ same => absurd same (fresh.unreferenced g c' slotg trustedg)
      · exact inv.unique g c' h c'' slotg sloth trustedg trustedh
  refine ⟨bitmap.small inv.small, ?_, ?_, ?_, (types .root).trans inv.rootDir, ?_, ?_, ?_⟩
  · intro g old slot'
    rcases (slots g).mp slot' with before | ⟨-, j, -, rfl⟩
    · rw [types before]
      exact inv.regular g old before
    · exact fun kind => absurd (kind.symm.trans (words _)) (by decide)
  · intro g c' slot' trusted
    rcases (slots g).mp slot' with old | ⟨-, j, -, rfl⟩
    · rw [cells old]
      split
      · exact fun _ => ⟨fresh.high, bitmap.valid inv.small fresh.valid⟩
      · intro linked
        have range := inv.range g c' old trusted linked
        exact ⟨range.1, bitmap.valid inv.small range.2⟩
    · exact fun linked => absurd (new j c') linked
  · intro g c' h c'' slotg sloth trustedg trustedh linked same
    rcases (slots g).mp slotg with oldg | ⟨-, j, -, rfl⟩
    · rcases (slots h).mp sloth with oldh | ⟨-, j, -, rfl⟩
      · exact distinct g c' h c'' oldg oldh trustedg trustedh linked same
      · exact absurd (same.trans (new j c'')) linked
    · exact absurd (new j c') linked
  · intro g slot'
    rcases (slots g).mp slot' with old | ⟨-, j, -, rfl⟩
    · rw [types old]
      exact inv.kinds g old
    · exact .inl (words _)
  · intro g slot'
    rcases (slots g).mp slot' with old | ⟨-, j, -, rfl⟩
    · rw [types old, sizes old]
      exact inv.dirSize g old
    · exact fun kind => absurd (kind.symm.trans (words _)) (by decide)
  · intro g slot' other unnamed
    rcases (slots g).mp slot' with old | ⟨-, j, -, rfl⟩
    · rw [name_setCell inv slot present old] at unnamed
      obtain ⟨size, type, zero⟩ := inv.vacant g old other unnamed
      refine ⟨(sizes old).trans size, (types old).trans type, fun c' => ?_⟩
      rw [cells old, if_neg, zero c']
      rintro ⟨rfl, -⟩
      exact named.elim other fun name => name unnamed
    · exact ⟨words _, words _, new j⟩

end Link

end Image

end Jos.Fs
