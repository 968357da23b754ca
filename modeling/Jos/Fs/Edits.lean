import Jos.Fs.Layout

namespace Jos.Fs

open Jos.Shared
open Jos.Kern (Word Byte)
open Function

def Cell.Under (c' c : Cell) : Prop := c' = c ∨ c = .indirect ∧ ∃ k, c' = .entry k

namespace Image

variable {m m' : Image} {stale : Set FilePtr} {f g : FilePtr} {c : Cell} {p : Nat}

def Referenced (m : Image) (p : Nat) : Prop := ∃ f c, m.Slot f ∧ m.cell f c = p

def Exact (m : Image) : Prop := ∀ b, 3 ≤ b → b < m.nblocks → m.free b = false → m.Referenced b

def blocksOf (size : Word) : Nat := (size.toNat + 4095) / 4096

def Neat (m : Image) (tidy : Prop) (f : FilePtr) : Prop := tidy ∨ m.type f = ftypeDir

def Trim (m : Image) (tidy : Prop) : Prop :=
  ∀ f, m.Slot f → m.Neat tidy f → (m.size f).toNat ≤ 2 * maxfilesize ∧
  ∀ n c, Cell.ofBlock n = some c → blocksOf (m.size f) ≤ n → m.cell f c = 0

theorem Trim.weaken {tidy : Prop} (trim : m.Trim True) : m.Trim tidy :=
  fun f slot _ => trim f slot (.inl trivial)

section Unlink

variable (inv : m.Inv stale) (slot : m.Slot f) (present : ∀ k, c = .entry k → m.indirect f ≠ 0)
include inv slot present

theorem cell_unlink (slot' : m.Slot g) {c' : Cell} (under : ¬(g = f ∧ c'.Under c)) :
    (m.setCell f c 0).cell g c' = m.cell g c' := by
  have ind := indirect_setCell inv slot present slot' (w := 0)
  cases c' with
  | entry k =>
    have other : ¬(g = f ∧ c = .indirect) := fun here => under ⟨here.1, .inr ⟨here.2, k, rfl⟩⟩
    rw [if_neg other] at ind
    rw [Image.cell, Image.cell, ind]
    split
    · rfl
    next linked =>
      rw [entry_setCell inv slot present slot' linked, if_neg]
      exact fun here => under ⟨here.1, .inl here.2.symm⟩
  | direct i =>
    have spot := field_setCell inv slot present slot' (w := 0) (show 34 + i.val < 64 by omega)
    rw [if_neg ?_, ← Nat.add_assoc] at spot
    · exact congrArg BitVec.toNat spot
    · rintro ⟨rfl, word⟩
      refine under ⟨rfl, .inl ?_⟩
      cases c <;> simp [Cell.word] at word ⊢ <;> omega
  | indirect =>
    refine ind.trans (if_neg fun here => under ⟨here.1, .inl here.2.symm⟩)

theorem cell_unlink_under {c' : Cell} (under : c'.Under c) : (m.setCell f c 0).cell f c' = 0 := by
  have ind := indirect_setCell inv slot present slot (w := 0)
  rcases under with rfl | ⟨rfl, k, rfl⟩
  · cases c' with
    | direct i =>
      have spot := field_setCell inv slot present slot (w := 0) (show 34 + i.val < 64 by omega)
      rw [if_pos ⟨rfl, rfl⟩, ← Nat.add_assoc] at spot
      exact congrArg BitVec.toNat spot
    | indirect => exact ind.trans (if_pos ⟨rfl, rfl⟩)
    | entry k =>
      have same : (m.setCell f (.entry k) 0).indirect f = m.indirect f := ind.trans (if_neg (by simp))
      have zero : m.setCell f (.entry k) 0 (m.indirect f) k = 0 :=
        (entry_setCell inv slot present slot (present k rfl) k).trans (if_pos ⟨rfl, rfl⟩)
      rw [Image.cell, same, zero]
      exact ite_self 0
  · exact if_pos (ind.trans (if_pos ⟨rfl, rfl⟩))

theorem slot_of_unlink (slot' : (m.setCell f c 0).Slot g) : m.Slot g := by
  induction slot' with
  | root => exact .root
  | @entry d c' j _ kind data linked place ih =>
    have same : (m.setCell f c 0).cell d c' = m.cell d c' := by
      refine cell_unlink inv slot present ih ?_
      rintro ⟨rfl, under⟩
      exact linked (cell_unlink_under inv slot present under)
    rw [type_setCell inv slot present ih] at kind
    rw [same] at linked ⊢
    exact .entry ih kind data linked place

-- The way from the root to `f` does not use a pointer of `f`.
theorem slot_unlink_or (slot' : m.Slot g) : (m.setCell f c 0).Slot g ∨ (m.setCell f c 0).Slot f := by
  induction slot' with
  | root => exact .inl .root
  | @entry d c' j dir kind data linked place ih =>
    rcases ih with kept | own
    · by_cases here : d = f
      · exact .inr (here ▸ kept)
      · have same : (m.setCell f c 0).cell d c' = m.cell d c' :=
          cell_unlink inv slot present dir fun both => here both.1
        rw [← same] at linked ⊢
        exact .inl (.entry kept ((type_setCell inv slot present dir).trans kind) data linked place)
    · exact .inr own

theorem slot_unlink (kind : m.type f ≠ ftypeDir) (g : FilePtr) : (m.setCell f c 0).Slot g ↔ m.Slot g := by
  refine slot_congr (fun g slot' => ⟨type_setCell inv slot present slot', fun dir c' _ => ?_⟩) g
  refine cell_unlink inv slot present slot' ?_
  rintro ⟨rfl, -⟩
  exact kind dir

theorem unlink_inv : (m.setCell f c 0).Inv stale := by
  have bitmap := sameBitmap_setCell inv slot present 0
  refine inv.revise (bitmap.small inv.small) (fun g => slot_of_unlink inv slot present)
    (fun g slot' => type_setCell inv slot present slot') (fun g c' slot' linked => ?_)
      (fun g slot' dir => ?_)
    fun g slot' _ unnamed =>
      ⟨name_setCell inv slot present slot' ▸ unnamed, size_setCell inv slot present slot'⟩
  · have apart : ¬(g = f ∧ c'.Under c) := by
      rintro ⟨rfl, under⟩
      exact linked (cell_unlink_under inv slot present under)
    have same := cell_unlink inv slot present slot' apart
    rw [same] at linked ⊢
    exact ⟨rfl, fun trusted => bitmap.valid inv.small (inv.range g c' slot' trusted linked).2⟩
  · rw [size_setCell inv slot present slot']
    exact inv.dirSize g slot' dir

end Unlink

section Resize

def resize (m : Image) (f : FilePtr) (size : Word) : Image := m.put f.block f.fSize size

variable (inv : m.Inv stale) (slot : m.Slot f) (size : Word)
include inv slot

theorem size_resize (slot' : m.Slot g) : (m.resize f size).size g = if g = f then size else m.size g := by
  refine (field_put inv slot slot' (show 32 < 64 by decide) (show 32 < 64 by decide)).trans ?_
  simp only [and_true]
  rfl

theorem field_resize (slot' : m.Slot g) {x : Nat} (low : x ≠ 32) (small : x < 64) :
    m.resize f size g.block (g.base + x) = m g.block (g.base + x) :=
  (field_put inv slot slot' small (show 32 < 64 by decide)).trans (if_neg fun here => low here.2)

theorem type_resize (slot' : m.Slot g) : (m.resize f size).type g = m.type g :=
  field_resize inv slot size slot' (by decide) (by decide)

theorem cell_resize (slot' : m.Slot g) (c : Cell) : (m.resize f size).cell g c = m.cell g c := by
  have ind : (m.resize f size).indirect g = m.indirect g :=
    congrArg BitVec.toNat (field_resize inv slot size slot' (show 44 ≠ 32 by decide) (by decide))
  cases c with
  | direct i =>
    have word := field_resize inv slot size slot' (show 34 + i.val ≠ 32 by omega) (by omega)
    rw [← Nat.add_assoc] at word
    exact congrArg BitVec.toNat word
  | indirect => exact ind
  | entry k =>
    simp only [Image.cell, ind]
    split
    · rfl
    next present =>
      rw [show m.resize f size (m.indirect g) k = _ from entry_put inv slot slot' present _ k]

theorem slot_resize (g : FilePtr) : (m.resize f size).Slot g ↔ m.Slot g :=
  slot_congr (fun _ slot' => ⟨type_resize inv slot size slot',
    fun _ c _ => cell_resize inv slot size slot' c⟩) g

theorem name_resize (slot' : m.Slot g) :
    byteAt (m.resize f size g.block) g.fName = byteAt (m g.block) g.fName := by
  have index : g.fName / 4 = g.base + 0 := by simp [FilePtr.fName]
  rw [byteAt, byteAt, index, field_resize inv slot size slot' (by decide) (by decide)]

theorem resize_inv (named : m.Named f) (whole : m.type f = ftypeDir → size.toNat % 4096 = 0) :
    (m.resize f size).Inv stale := by
  have bitmap := sameBitmap_put inv slot size 32
  refine inv.revise (bitmap.small inv.small) (fun g => (slot_resize inv slot size g).mp)
    (fun g => type_resize inv slot size) (fun g c' slot' linked => ?_) (fun g slot' dir => ?_) fun g
    slot' other unnamed => ?_
  · have same := cell_resize inv slot size slot' c'
    exact ⟨same, fun trusted => bitmap.valid inv.small (inv.range g c' slot' trusted (same ▸ linked)).2⟩
  · rw [size_resize inv slot size slot']
    split
    next here => exact whole (here ▸ dir)
    · exact inv.dirSize g slot' dir
  · rw [name_resize inv slot size slot'] at unnamed
    refine ⟨unnamed, (size_resize inv slot size slot').trans (if_neg ?_)⟩
    rintro rfl
    exact named.elim other fun name => name unnamed

end Resize

section Rename

def rename (m : Image) (f : FilePtr) (name : List Byte) : Image :=
  update m f.block (strcpy f.fName name (m f.block))

variable (inv : m.Inv stale) (slot : m.Slot f) {name : List Byte} (short : name.length < maxnamelen)
include inv slot short

theorem field_rename (slot' : m.Slot g) {x : Nat} (small : x < 64) (other : g ≠ f ∨ 32 ≤ x) :
    m.rename f name g.block (g.base + x) = m g.block (g.base + x) := by
  by_cases block : g.block = f.block
  · rw [rename, block, update_self, strcpy]
    nth_rewrite 2 [← wordsOf_byteAt (m f.block)]
    refine wordsOf_congr fun i low high => overwrite_outside ?_
    simp only [List.length_append, List.length_singleton, FilePtr.fName, maxnamelen] at short ⊢
    -- The name ends before the word, or the word is in another structure of the block.
    rcases Nat.lt_or_ge (g.base + x) f.base with before | after
    · omega
    · by_contra inside
      have spot : g.base + x = f.base + (g.base + x - f.base) := by omega
      obtain ⟨rfl, -⟩ := slot'.word_inj inv slot small (by omega) block spot
      exact other.elim (fun ne => ne rfl) fun late => by omega
  · rw [rename, update_of_ne block]

theorem rename_sameMeta : m.SameMeta (m.rename f name) := by
  refine ⟨fun g slot' x low small => field_rename inv slot short slot' small (.inr low),
    fun g slot' present k => ?_⟩
  rw [rename, update_of_ne (slot'.indirect_ne inv slot present)]

omit short in
theorem sameBitmap_rename : m.SameBitmap (m.rename f name) := by
  have bitmap := (inv.away_bitmap f slot).1
  refine ⟨?_, fun q inside => ?_⟩
  · by_cases root : f = .root
    · subst root
      have word : m.rename .root name 1 1 = m 1 1 := by
        rw [rename, show FilePtr.root.block = 1 from rfl, update_self, strcpy]
        nth_rewrite 2 [← wordsOf_byteAt (m 1)]
        refine wordsOf_congr fun i low high => overwrite_outside (.inl ?_)
        simp only [FilePtr.fName, FilePtr.root]
        omega
      exact congrArg BitVec.toNat word
    · have other : 1 ≠ f.block := by
        have high := (slot.block_cases inv).resolve_left root
        omega
      rw [nblocks, rename, update_of_ne other]
      rfl
  · rw [free_of_small inside, free_of_small inside, rename, update_of_ne bitmap.symm]

omit inv slot short in
theorem name_rename (nonempty : name ≠ []) (nonzero : ∀ b ∈ name, b ≠ 0) :
    byteAt (m.rename f name f.block) f.fName ≠ 0 := by
  rw [rename, update_self, strcpy, byteAt_wordsOf, overwrite, if_pos (by simp)]
  cases name with
  | nil => exact absurd rfl nonempty
  | cons b rest => simpa using nonzero b List.mem_cons_self

theorem rename_inv (nonempty : name ≠ []) (nonzero : ∀ b ∈ name, b ≠ 0) :
    (m.rename f name).Inv stale := by
  have bitmap : m.SameBitmap (m.rename f name) := sameBitmap_rename inv slot
  refine (rename_sameMeta inv slot short).inv inv (bitmap.small inv.small)
    (fun g c' slot' trusted linked =>
      bitmap.valid inv.small (inv.range g c' slot' trusted linked).2)
    fun g slot' other unnamed => ?_
  by_cases same : g = f
  · subst same
    exact absurd unnamed (name_rename nonempty nonzero)
  · have word := field_rename inv slot short slot' (show 0 < 64 by decide) (.inl same)
    have index : g.fName / 4 = g.base + 0 := by simp [FilePtr.fName]
    rw [byteAt, index, word, ← index] at unnamed
    exact unnamed

end Rename

section Reserve

def clear (m : Image) (p : Nat) : Image := update m p fun _ => 0

def reserve (m : Image) (p : Nat) : Image := (m.take p).clear p

theorem nblocks_reserve (m : Image) (high : 3 ≤ p) : (m.reserve p).nblocks = m.nblocks := by
  rw [nblocks, reserve, clear, update_of_ne (by omega)]
  exact nblocks_take m p

variable (inv : m.Inv stale) (high : 3 ≤ p) (inside : p < m.nblocks) (free : m.free p = true)
include inv high inside

theorem free_reserve {q : Nat} (inside' : q < 32768) :
    (m.reserve p).free q = (m.free q && decide (q ≠ p)) := by
  have top := inv.small.high
  rw [← free_take (by omega) inside', free_of_small inside', free_of_small inside', reserve, clear,
    update_of_ne (by omega)]

theorem reserve_small : (m.reserve p).Small := by
  have nblocks := nblocks_reserve m high
  refine ⟨nblocks ▸ inv.small.low, nblocks ▸ inv.small.high, fun q low => ?_⟩
  rw [free_reserve inv high inside (by omega), inv.small.reserved q low, Bool.false_and]

theorem valid_reserve {q : Nat} (valid : m.Valid q) : (m.reserve p).Valid q := by
  refine ⟨nblocks_reserve m high ▸ valid.exists_, ?_⟩
  rw [free_reserve inv high inside (valid.exists_.trans_le inv.small.high), valid.used, Bool.false_and]

include free

theorem reserve_sameMeta : m.SameMeta (m.reserve p) := by
  refine .of_blocks (p := fun b => b = 2 ∨ b = p) ?_ fun b other => ?_
  · rintro b (rfl | rfl)
    · exact inv.away_bitmap
    · exact inv.away_free free
  · push Not at other
    rw [reserve, clear, update_of_ne other.2, take, put_of_block_ne other.1]

omit high inside in
theorem name_reserve (slot : m.Slot g) : m.reserve p g.block = m g.block := by
  rw [reserve, clear, update_of_ne (inv.away_free free g slot).1, take,
    put_of_block_ne (inv.away_bitmap g slot).1]

theorem reserve_inv : (m.reserve p).Inv stale := by
  refine (reserve_sameMeta inv high inside free).inv inv (reserve_small inv high inside)
    (fun f c slot trusted present => valid_reserve inv high inside
      (inv.range f c slot trusted present).2) fun f slot _ unnamed => ?_
  rw [name_reserve inv free slot] at unnamed
  exact unnamed

theorem reserve_fresh : (m.reserve p).Fresh stale p := by
  have same := reserve_sameMeta inv high inside free
  refine ⟨high,
    ⟨nblocks_reserve m high ▸ inside,
    ?_⟩, by simp [reserve, clear], fun g c slot trusted target => ?_⟩
  · rw [free_reserve inv high inside (inside.trans_le inv.small.high)]
    simp
  · rw [same.slot] at slot
    rw [same.cell slot] at target
    have used := (inv.range g c slot trusted (by omega)).2.used
    rw [target, free] at used
    cases used

end Reserve

section Give

variable (inv : m.Inv stale) (inside : p < m.nblocks)
include inv inside

omit inside in
theorem give_sameMeta : m.SameMeta (m.give p) :=
  .of_blocks (p := fun b => b = 2) (by rintro b rfl; exact inv.away_bitmap) fun b other =>
    put_of_block_ne other

theorem give_inv (high : 3 ≤ p)
    (unreferenced : ∀ g c, m.Slot g → Trusted stale g c → m.cell g c ≠ p) :
    (m.give p).Inv stale := by
  have top := inv.small.high
  have nblocks := nblocks_give m p
  refine (give_sameMeta inv).inv inv ⟨nblocks ▸ inv.small.low, nblocks ▸ top, fun q low => ?_⟩ ?_ ?_
  · rw [free_give (by omega) (by omega), inv.small.reserved q low]
    simp
    omega
  · intro g c slot trusted present
    have valid := (inv.range g c slot trusted present).2
    refine ⟨nblocks ▸ valid.exists_, ?_⟩
    rw [free_give (by omega) (valid.exists_.trans_le top), valid.used]
    simpa using unreferenced g c slot trusted
  · intro f slot _ unnamed
    rw [give, put_of_block_ne (inv.away_bitmap f slot).1] at unnamed
    exact unnamed

end Give

section Data

theorem data_sameMeta (inv : m.Inv stale) (slot : m.Slot f) (current : f ∉ stale)
    (kind : m.type f ≠ ftypeDir) (data : c ≠ .indirect) (present : m.cell f c ≠ 0) (blk : Block) :
    m.SameMeta (update m (m.cell f c) blk) :=
  .of_blocks
    (p := fun b => b = m.cell f c)
    (by rintro b rfl; exact slot.away_data inv current kind data present) fun b other =>
    update_of_ne other blk m

theorem sameBitmap_data (inv : m.Inv stale) (slot : m.Slot f) (current : f ∉ stale)
    (present : m.cell f c ≠ 0) (blk : Block) : m.SameBitmap (update m (m.cell f c) blk) := by
  have high := (inv.range f c slot (.of_mem current) present).1
  refine ⟨?_, fun q inside => ?_⟩
  · rw [nblocks, update_of_ne (by omega)]
    rfl
  · rw [free_of_small inside, free_of_small inside, update_of_ne (by omega)]

theorem data_inv (inv : m.Inv stale) (slot : m.Slot f) (current : f ∉ stale) (kind : m.type f ≠ ftypeDir)
    (data : c ≠ .indirect) (present : m.cell f c ≠ 0) (blk : Block) :
    Inv (update m (m.cell f c) blk) stale := by
  have bitmap := sameBitmap_data inv slot current present blk
  refine (data_sameMeta inv slot current kind data present blk).inv inv (bitmap.small inv.small)
    (fun g c' slot' trusted linked =>
      bitmap.valid inv.small (inv.range g c' slot' trusted linked).2) fun g slot' _ unnamed => ?_
  rw [update_of_ne (slot.data_ne inv current kind data present slot').1.symm] at unnamed
  exact unnamed

end Data

end Image

end Jos.Fs
