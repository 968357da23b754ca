import Jos.Fs.Edits

namespace Jos.Fs

open Jos.Shared
open Jos.Kern (Word Byte)

namespace Image

variable {m m' m'' : Image} {stale : Set FilePtr} {tidy : Prop} {f g : FilePtr} {c c' : Cell} {p : Nat}

def raw (m : Image) (f : FilePtr) (i : Nat) : Byte :=
  match Cell.ofBlock (i / 4096) with
  | none => 0
  | some c => if m.cell f c = 0 then 0 else byteAt (m (m.cell f c)) (i % 4096)

structure Persists (m m' : Image) : Prop where
  slot : ∀ g, m.Slot g → m'.Slot g
  name : ∀ g, m.Slot g → ∀ x < 32, m' g.block (g.base + x) = m g.block (g.base + x)
  type : ∀ {g}, m.Slot g → m'.type g = m.type g
  dirCell : ∀ d c, m.Slot d → m.type d = ftypeDir → m.cell d c ≠ 0 → m'.cell d c = m.cell d c
  fresh : ∀ d c j, m.Slot d → m.type d = ftypeDir → c ≠ .indirect → j < 16 → m.cell d c = 0 →
    m'.cell d c ≠ 0 → byteAt (m' (m'.cell d c)) (256 * j) = 0

namespace Persists

theorem refl (m : Image) : m.Persists m :=
  ⟨fun _ slot => slot, fun _ _ _ _ => rfl, fun _ => rfl, fun _ _ _ _ _ => rfl,
    fun _ _ _ _ _ _ _ zero linked => absurd zero linked⟩

theorem name_byte (keeps : m.Persists m') (slot : m.Slot g) :
    byteAt (m' g.block) (4 * g.base) = byteAt (m g.block) (4 * g.base) := by
  have index : 4 * g.base / 4 = g.base + 0 := by omega
  rw [byteAt, byteAt, index, keeps.name g slot 0 (by decide)]

theorem named (keeps : m.Persists m') (slot : m.Slot g) : m'.Named g ↔ m.Named g := by
  rw [Named, Named, FilePtr.fName, keeps.name_byte slot]

theorem neat (keeps : m.Persists m') (slot : m.Slot g) : m'.Neat tidy g ↔ m.Neat tidy g := by
  rw [Neat, Neat, keeps.type slot]

theorem trans (keeps : m.Persists m') (keeps' : m'.Persists m'') : m.Persists m'' where
  slot g slot := keeps'.slot g (keeps.slot g slot)
  name g slot x small := (keeps'.name g (keeps.slot g slot) x small).trans (keeps.name g slot x small)
  type slot := (keeps'.type (keeps.slot _ slot)).trans (keeps.type slot)
  dirCell d c slot kind linked := by
    have same := keeps.dirCell d c slot kind linked
    exact (keeps'.dirCell d c (keeps.slot d slot) ((keeps.type slot).trans kind)
      (same ▸ linked)).trans same
  fresh d c j slot kind data small zero linked := by
    have slot' := keeps.slot d slot
    have kind' := (keeps.type slot).trans kind
    by_cases zero' : m'.cell d c = 0
    · exact keeps'.fresh d c j slot' kind' data small zero' linked
    · have unnamed := keeps.fresh d c j slot kind data small zero zero'
      have same := keeps'.name_byte (.entry slot' kind' data zero' small)
      rw [show 256 * j = 4 * (64 * j) by omega] at unnamed ⊢
      rw [keeps'.dirCell d c slot' kind' zero']
      exact same.trans unnamed

end Persists

structure Extends (m m' : Image) (stale : Set FilePtr) : Prop extends m.Persists m' where
  nblocks : m'.nblocks = m.nblocks
  free : ∀ q < 32768, m'.free q = true → m.free q = true
  size : ∀ {g}, m.Slot g → m'.size g = m.size g
  cell : ∀ g c, m.Slot g → m.cell g c ≠ 0 → m'.cell g c = m.cell g c
  raw : ∀ g, m.Slot g → m.type g ≠ ftypeDir → g ∉ stale → m'.raw g = m.raw g

namespace Extends

theorem refl (m : Image) (stale : Set FilePtr) : m.Extends m stale :=
  ⟨.refl m, rfl, fun _ _ free => free, fun _ => rfl, fun _ _ _ _ => rfl, fun _ _ _ _ => rfl⟩

theorem trans (ext : m.Extends m' stale) (ext' : m'.Extends m'' stale) : m.Extends m'' stale where
  toPersists := ext.toPersists.trans ext'.toPersists
  nblocks := ext'.nblocks.trans ext.nblocks
  free q inside free := ext.free q inside (ext'.free q inside free)
  size slot := (ext'.size (ext.slot _ slot)).trans (ext.size slot)
  cell g c slot present := by
    have same := ext.cell g c slot present
    exact (ext'.cell g c (ext.slot g slot) (same ▸ present)).trans same
  raw g slot kind current :=
    (ext'.raw g (ext.slot g slot) (ext.type slot ▸ kind) current).trans (ext.raw g slot kind current)

end Extends

structure Attaches (m : Image) (stale : Set FilePtr) (tidy : Prop) (f : FilePtr) (c : Cell)
    (p : Nat) : Prop where
  slot : m.Slot f
  named : m.Named f
  present : ∀ k, c = .entry k → m.indirect f ≠ 0
  vacant : m.cell f c = 0
  high : 3 ≤ p
  inside : p < m.nblocks
  free : m.free p = true
  room : m.Neat tidy f → ∀ n, Cell.ofBlock n = some c → n < blocksOf (m.size f)

def attach (m : Image) (f : FilePtr) (c : Cell) (p : Nat) : Image :=
  (m.reserve p).setCell f c (BitVec.ofNat 32 p)

section Attach

variable (inv : m.Inv stale) (can : m.Attaches stale tidy f c p)
include inv can

theorem Attaches.sameMeta : m.SameMeta (m.reserve p) := reserve_sameMeta inv can.high can.inside can.free

theorem Attaches.reserved_inv : (m.reserve p).Inv stale := reserve_inv inv can.high can.inside can.free

theorem Attaches.fresh : (m.reserve p).Fresh stale p := reserve_fresh inv can.high can.inside can.free

theorem Attaches.reserved : (m.reserve p).Slot f ∧ (∀ k, c = .entry k → (m.reserve p).indirect f ≠ 0) ∧
    (m.reserve p).cell f c = 0 := by
  have same := can.sameMeta inv
  refine ⟨(same.slot f).mpr can.slot, fun k entry => ?_, (same.cell can.slot c).trans can.vacant⟩
  rw [same.indirect can.slot]
  exact can.present k entry

theorem attach_inv : (m.attach f c p).Inv stale := by
  obtain ⟨slot, present, vacant⟩ := can.reserved inv
  refine link_inv (can.reserved_inv inv) slot present (can.fresh inv) vacant ?_
  rw [Named, name_reserve inv can.free can.slot]
  exact can.named

theorem slot_attach (g : FilePtr) : (m.attach f c p).Slot g ↔
    m.Slot g ∨ (m.type f = ftypeDir ∧ c ≠ .indirect) ∧ ∃ j < 16, g = .entry p j := by
  have same := can.sameMeta inv
  obtain ⟨slot, present, vacant⟩ := can.reserved inv
  rw [attach, slot_link (can.reserved_inv inv) slot present (can.fresh inv) vacant, same.slot,
    same.type can.slot]

theorem cell_attach (slot' : m.Slot g) (c' : Cell) :
    (m.attach f c p).cell g c' = if g = f ∧ c' = c then p else m.cell g c' := by
  have same := can.sameMeta inv
  obtain ⟨slot, present, vacant⟩ := can.reserved inv
  rw [attach,
    cell_link (can.reserved_inv inv) slot present (can.fresh inv) vacant ((same.slot g).mpr slot'),
    same.cell slot']

theorem field_attach (slot' : m.Slot g) {x : Nat} (small : x < 64) (other : c.word ≠ some x) :
    m.attach f c p g.block (g.base + x) = m g.block (g.base + x) := by
  have same := can.sameMeta inv
  obtain ⟨slot, present, -⟩ := can.reserved inv
  rw [attach, field_setCell (can.reserved_inv inv) slot present ((same.slot g).mpr slot') small,
    if_neg (fun here => other here.2), name_reserve inv can.free slot']

theorem words_attach (x : Nat) : m.attach f c p p x = 0 := by
  obtain ⟨slot, present, -⟩ := can.reserved inv
  exact words_link (can.reserved_inv inv) slot present (can.fresh inv) x

theorem cell_attach_new (j : Nat) (c' : Cell) : (m.attach f c p).cell (.entry p j) c' = 0 := by
  obtain ⟨slot, present, -⟩ := can.reserved inv
  exact cell_new (can.reserved_inv inv) slot present (can.fresh inv) j c'

theorem sameBitmap_attach : (m.reserve p).SameBitmap (m.attach f c p) := by
  obtain ⟨slot, present, -⟩ := can.reserved inv
  exact sameBitmap_setCell (can.reserved_inv inv) slot present _

theorem nblocks_attach : (m.attach f c p).nblocks = m.nblocks :=
  (sameBitmap_attach inv can).nblocks.trans (nblocks_reserve m can.high)

theorem free_attach {q : Nat} (inside : q < 32768) :
    (m.attach f c p).free q = (m.free q && decide (q ≠ p)) :=
  ((sameBitmap_attach inv can).free q inside).trans (free_reserve inv can.high can.inside inside)

theorem block_attach {b : Nat} (bitmap : b ≠ 2) (new : b ≠ p) (place : b ≠ (m.loc f c).1) :
    m.attach f c p b = m b := by
  have same : (m.reserve p).loc f c = m.loc f c := by
    cases c with
    | direct i => rfl
    | indirect => rfl
    | entry k => simp only [loc, (can.sameMeta inv).indirect can.slot]
  rw [attach, setCell, same, put_of_block_ne place, reserve, clear, Function.update_of_ne new, take,
    put_of_block_ne bitmap]

theorem data_attach (slot' : m.Slot g) (current : g ∉ stale) (outside : m.Outside f g)
    (data : c' ≠ .indirect) (linked : m.cell g c' ≠ 0) :
    m.attach f c p (m.cell g c') = m (m.cell g c') := by
  obtain ⟨high, valid⟩ := inv.range g c' slot' (.of_mem current) linked
  have block := outside c' data linked
  have indirect : m.cell g c' ≠ m.indirect f := fun same =>
    data (inv.unique g c' f .indirect slot' can.slot (.of_mem current) .indirect linked same).2
  refine block_attach inv can (by omega) ?_ ?_
  · intro same
    have used := valid.used
    rw [same, can.free] at used
    cases used
  · cases c with
    | direct i => exact block
    | indirect => exact block
    | entry k => exact indirect

theorem raw_attach (slot' : m.Slot g) (outside : m.Outside f g) (current : g ∉ stale) :
    (m.attach f c p).raw g = m.raw g := by
  funext i
  unfold raw
  split
  · rfl
  next c' place =>
    have data := Cell.ofBlock_data place
    rw [cell_attach inv can slot']
    split
    next here =>
      obtain ⟨rfl, rfl⟩ := here
      simp [can.vacant, byteAt, words_attach inv can]
    · split
      · rfl
      next linked => rw [data_attach inv can slot' current outside data linked]

theorem attach_persists : m.Persists (m.attach f c p) where
  slot g slot := (slot_attach inv can g).mpr (.inl slot)
  name g slot x small := by
    refine field_attach inv can slot (by omega) ?_
    cases c <;> simp [Cell.word] <;> omega
  type slot := by
    refine field_attach inv can slot (by decide) ?_
    cases c <;> simp [Cell.word]
    omega
  dirCell d c' slot _ linked := by
    rw [cell_attach inv can slot, if_neg]
    rintro ⟨rfl, rfl⟩
    exact linked can.vacant
  fresh d c' j slot _ _ _ zero linked := by
    have here := cell_attach inv can slot c'
    split at here
    · rw [here, byteAt, words_attach inv can]; simp
    · exact absurd (here.trans zero) linked

theorem attach_extends : m.Extends (m.attach f c p) stale where
  toPersists := attach_persists inv can
  nblocks := nblocks_attach inv can
  free q inside free := by
    rw [free_attach inv can inside, Bool.and_eq_true] at free
    exact free.1
  size slot := by
    refine field_attach inv can slot (by decide) ?_
    cases c <;> simp [Cell.word]
    omega
  cell g c' slot linked := by
    rw [cell_attach inv can slot, if_neg]
    rintro ⟨rfl, rfl⟩
    exact linked can.vacant
  raw g slot kind current := raw_attach inv can slot (slot.outside inv current kind can.slot) current

theorem attach_exact (exact_ : m.Exact) : (m.attach f c p).Exact := by
  intro b high inside used
  have top := inv.small.high
  rw [nblocks_attach inv can] at inside
  rw [free_attach inv can (by omega)] at used
  by_cases new : b = p
  · subst new
    exact ⟨f, c, (slot_attach inv can f).mpr (.inl can.slot),
      (cell_attach inv can can.slot c).trans (if_pos ⟨rfl, rfl⟩)⟩
  · simp only [new, ne_eq, not_false_eq_true, decide_true, Bool.and_true] at used
    obtain ⟨g, c', slot, target⟩ := exact_ b high inside used
    refine ⟨g, c', (slot_attach inv can g).mpr (.inl slot), ?_⟩
    rw [cell_attach inv can slot, if_neg, target]
    rintro ⟨rfl, rfl⟩
    rw [can.vacant] at target
    omega

theorem attach_trim (trim : m.Trim tidy) : (m.attach f c p).Trim tidy := by
  intro g slot neat
  rcases (slot_attach inv can g).mp slot with old | ⟨-, j, -, rfl⟩
  · rw [(attach_persists inv can).neat old] at neat
    obtain ⟨bound, cells⟩ := trim g old neat
    rw [(attach_extends inv can).size old]
    refine ⟨bound, fun n c' place after => ?_⟩
    rw [cell_attach inv can old, if_neg]
    · exact cells n c' place after
    · rintro ⟨rfl, rfl⟩
      have room := can.room neat n place
      omega
  · refine ⟨?_, fun _ c' _ _ => cell_attach_new inv can j c'⟩
    rw [size, show m.attach f c p (FilePtr.entry p j).block _ = 0 from words_attach inv can _]
    decide

end Attach

end Image

end Jos.Fs
