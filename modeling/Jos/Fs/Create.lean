import Jos.Fs.Directory

namespace Jos.Fs

open Jos.Shared
open Jos.Kern (Word Byte)

namespace Volume

variable {v v' : Volume} {stale : Set FilePtr} {tidy : Prop} {b : Nat} {done done' : Set Nat}

structure Flushing (stale : Set FilePtr) (tidy : Prop) (v : Volume) (done : Set Nat) (v' : Volume) :
    Prop where
  growth : Growth stale tidy v v'
  mem : v'.mem = v.mem
  written : ∀ b ∈ done, v'.disk b = v.mem b
  rest : ∀ b, v'.disk b = v.disk b ∨ v'.disk b = v.mem b

namespace Flushing

theorem refl (stale : Set FilePtr) (tidy : Prop) (v : Volume) : Flushing stale tidy v ∅ v :=
  ⟨.refl, rfl, fun _ none => none.elim, fun _ => .inl rfl⟩

theorem flush (flushing : Flushing stale tidy v done v') (inside : b < v.mem.nblocks) :
    Flushing stale tidy v (insert b done) (v'.flush b) := by
  have same := flushing.mem
  refine ⟨flushing.growth.tail (.flush (same ▸ inside)), same, fun b' member => ?_, fun b' => ?_⟩
  · by_cases here : b' = b
    · subst here
      simp [Volume.flush, same]
    · simp only [Volume.flush, Function.update_of_ne here]
      exact flushing.written b' (member.resolve_left here)
  · by_cases here : b' = b
    · subst here
      simp [Volume.flush, same]
    · simp only [Volume.flush, Function.update_of_ne here]
      exact flushing.rest b'

theorem mono (flushing : Flushing stale tidy v done v') (fewer : done' ⊆ done) :
    Flushing stale tidy v done' v' :=
  ⟨flushing.growth, flushing.mem, fun b here => flushing.written b (fewer here), flushing.rest⟩

end Flushing

end Volume

def Image.flushed (m : Image) (f : FilePtr) : Set Nat :=
  {b | b = f.block ∨ b = m.indirect f ∧ b ≠ 0 ∨
    ∃ n c, n < (FsM.sizeBlocks (m.size f)).toInt.toNat ∧ Cell.ofBlock n = some c ∧ m.cell f c = b ∧ b ≠ 0}

namespace Image

variable {m m' : Image} {tidy : Prop} {d f g : FilePtr} {n j : Nat} {name : List Byte}

def Child (m : Image) (d : FilePtr) (n j : Nat) (g : FilePtr) : Prop :=
  ∃ c, Cell.ofBlock n = some c ∧ m.cell d c ≠ 0 ∧ j < 16 ∧ g = .entry (m.cell d c) j

theorem Child.slot (child : m.Child d n j g) (slot : m.Slot d) (kind : m.type d = ftypeDir) :
    m.Slot g := by
  obtain ⟨c, place, linked, small, rfl⟩ := child
  exact .entry slot kind (Cell.ofBlock_data place) linked small

def Absent (m : Image) (d : FilePtr) (name : List Byte) : Prop :=
  ∀ n j g, m.Child d n j g → strEq (m g.block) g.fName name = false

theorem strEq_of_unnamed {blk : Block} {o : Nat} (unnamed : byteAt blk o = 0) (nonempty : name ≠ [])
    (nonzero : ∀ b ∈ name, b ≠ 0) : strEq blk o name = false := by
  cases name with
  | nil => exact absurd rfl nonempty
  | cons b rest =>
    have other : b ≠ 0 := nonzero b List.mem_cons_self
    simp only [strEq, List.cons_append, List.zipIdx_cons, List.all_cons, Nat.add_zero, unnamed,
      Bool.and_eq_false_iff]
    exact .inl (decide_eq_false other.symm)

theorem Absent.persist (absent : m.Absent d name) (keeps : m.Persists m') (slot : m.Slot d)
    (kind : m.type d = ftypeDir) (short : name.length < maxnamelen) (nonempty : name ≠ [])
    (nonzero : ∀ b ∈ name, b ≠ 0) : m'.Absent d name := by
  rintro n j _ ⟨c, place, linked, small, rfl⟩
  rw [FilePtr.fName_entry]
  by_cases new : m.cell d c = 0
  · exact strEq_of_unnamed (keeps.fresh d c j slot kind (Cell.ofBlock_data place) small new linked)
      nonempty nonzero
  · have child : m.Child d n j (.entry (m.cell d c) j) := ⟨c, place, new, small, rfl⟩
    have same := keeps.hits_eq (nameOnly_strEq short) (child.slot slot kind)
    have misses := absent n j _ child
    rw [FilePtr.fName_entry] at misses
    rw [keeps.dirCell d c slot kind new]
    exact same.trans misses

structure Vacancy (m : Image) (d : FilePtr) (name : List Byte) (f : FilePtr) : Prop where
  slot : m.Slot d
  kind : m.type d = ftypeDir
  child : ∃ n j, m.Child d n j f ∧ (∀ n' < n, ∃ c, Cell.ofBlock n' = some c ∧ m.cell d c ≠ 0) ∧
    n < m.dirBlocks d
  short : name.length < maxnamelen
  nonempty : name ≠ []
  nonzero : ∀ b ∈ name, b ≠ 0
  unnamed : byteAt (m f.block) f.fName = 0
  absent : m.Absent d name

end Image

def Image.CutTo (m : Image) (f : FilePtr) (size : Word) (m' : Image) : Prop :=
  ∃ freed gone m₁, m.Cut ∅ f freed gone m₁ ∧ m' = m₁.resize f size

inductive Volume.Widens (tidy : Prop) (d : FilePtr) (v : Volume) : Volume → Prop
  | same {v' : Volume} (growth : Volume.Growth ∅ tidy v v') : Widens tidy d v v'
  | more {v₁ v' : Volume} (growth : Volume.Growth ∅ tidy v v₁)
    (bound : (v₁.mem.size d).toNat ≤ maxfilesize)
      (rest : Volume.Growth ∅ tidy (v₁.edit fun m => m.resize d (v₁.mem.size d + 4096)) v') :
      Widens tidy d v v'

def Image.KeepsEntries (m : Image) (f : FilePtr) (newsize : Word) : Prop :=
  newsize.slt (m.size f) = true → ndirect < (FsM.sizeBlocks newsize).toNat →
    ∀ n c, Cell.ofBlock n = some c → (FsM.sizeBlocks newsize).toNat ≤ n →
    n < (FsM.sizeBlocks (m.size f)).toNat → m.cell f c = 0

namespace FsM

open Volume (Flushing Growth Change Changes Act Acts)

variable {v : Volume} {stale : Set FilePtr} {tidy safe : Prop} {f d : FilePtr} {n : Nat}

theorem sizeBlocks_eq {size : Word} (bound : size.toNat ≤ 2 * maxfilesize) :
    (sizeBlocks size).toNat = Image.blocksOf size := by
  rw [maxfilesize_eq] at bound
  have sum : (size + 4095).toNat = size.toNat + 4095 := by
    rw [BitVec.toNat_add, show (4095 : Word).toNat = 4095 from rfl]
    omega
  rw [sizeBlocks, sdiv_block (by omega), sum, Image.blocksOf]

section Flush

theorem flushFileBlock_does (inv : v.mem.Inv stale) (slot : v.mem.Slot f) (current : f ∉ stale)
    (n : Nat) : Does (flushFileBlock f n) v () v ∧
    (∀ c, Cell.ofBlock n = some c → v.mem.cell f c = 0) ∨ ∃ c, Cell.ofBlock n = some c ∧
    v.mem.cell f c ≠ 0 ∧ Does (flushFileBlock f n) v () (v.flush (v.mem.cell f c)) := by
  obtain ⟨r, v', walked, outcome⟩ := fileBlockWalk_does inv slot True n false nofun
  cases outcome with
  | outside none => exact .inl ⟨.bind walked (.pure _ _), by simp [none]⟩
  | missing place hole =>
    refine .inl ⟨.bind walked (.pure _ _), fun c place' => ?_⟩
    cases place.symm.trans place'
    exact if_pos hole
  | full _ _ _ asked => cases asked
  | attached _ _ asked => cases asked
  | @found c place present =>
    obtain ⟨w, loaded, target⟩ := load_cell inv slot present
    by_cases zero : w = 0
    · refine .inl ⟨.bind walked (.bind loaded ?_), fun c' place' => ?_⟩
      · rw [if_pos zero]
        exact .pure _ _
      · cases place.symm.trans place'
        rw [← target, zero]
        rfl
    · have linked : v.mem.cell f c ≠ 0 := by
        rw [← target]
        exact fun none => zero (BitVec.toNat_eq.mpr none)
      have inside := (inv.range f c slot (.of_mem current) linked).2.exists_
      refine .inr ⟨c, place, linked, .bind walked (.bind loaded ?_)⟩
      rw [if_neg zero, target]
      exact .bind (diskaddr_does inv.small linked inside) (flushBlock_does inv.small inside)

theorem fileFlush_does (tidy : Prop) (inv : v.mem.Inv stale) (slot : v.mem.Slot f) (current : f ∉ stale) :
    ∃ v', Does (fileFlush f) v () v' ∧ Flushing stale tidy v (v.mem.flushed f) v' := by
  let rounds := (sizeBlocks (v.mem.size f)).toInt.toNat
  have loaded : Does (load f.block f.fSize) v (v.mem.size f) v := load_does inv.small (slot.valid inv) _
  obtain ⟨v₁, swept, flushing⟩ := sweep_does (v := v) (flushFileBlock f)
    (fun k v' => Flushing stale tidy v {b | ∃ n c, n < k ∧ Cell.ofBlock n = some c ∧
      v.mem.cell f c = b ∧ b ≠ 0} v')
    rounds 0 ((Flushing.refl stale tidy v).mono (by simp)) (by
      intro k v' _ _ flushing
      have same := flushing.mem
      rcases flushFileBlock_does (v := v') (same ▸ inv) (same ▸ slot) current k with
        ⟨does, empty⟩ | ⟨c, place, linked, does⟩
      · refine ⟨v', does, flushing.mono ?_⟩
        rintro b ⟨n, c, low, place, target, linked⟩
        rcases Nat.lt_succ_iff_lt_or_eq.mp low with earlier | rfl
        · exact ⟨n, c, earlier, place, target, linked⟩
        · exact absurd (target.symm.trans (same ▸ empty c place)) linked
      · rw [same] at linked does
        refine ⟨_, does, (flushing.flush (inv.range f c slot (.of_mem current) linked).2.exists_).mono ?_⟩
        rintro b ⟨n, c', low, place', target, linked'⟩
        rcases Nat.lt_succ_iff_lt_or_eq.mp low with earlier | rfl
        · exact .inr ⟨n, c', earlier, place', target, linked'⟩
        · cases place.symm.trans place'
          exact .inl target.symm)
  have same := flushing.mem
  rw [Nat.zero_add] at flushing
  have block := flushing.flush (slot.valid inv).exists_
  have small₁ : v₁.mem.Small := same ▸ inv.small
  have flushed : Does (flushBlock f.block) v₁ () (v₁.flush f.block) :=
    flushBlock_does small₁ (same ▸ (slot.valid inv).exists_)
  have loaded' : Does (load f.block f.fIndirect) (v₁.flush f.block) (v.mem f.block f.fIndirect)
    (v₁.flush f.block) := by
    have read :=
      load_does
      (v := v₁.flush f.block) small₁ (show v₁.mem.Valid f.block from same ▸ slot.valid inv)
      f.fIndirect
    rw [show (v₁.flush f.block).mem = v.mem from same] at read
    exact read
  by_cases none : v.mem f.block f.fIndirect = 0
  · refine ⟨_, .bind loaded (.bind swept (.bind flushed (.bind loaded' ?_))), block.mono ?_⟩
    · rw [if_pos none]
      exact .pure _ _
    · rintro b (rfl | ⟨rfl, linked⟩ | data)
      · exact .inl rfl
      · exact absurd (congrArg BitVec.toNat none) linked
      · exact .inr data
  · have linked : v.mem.indirect f ≠ 0 := fun zero => none (BitVec.toNat_eq.mpr zero)
    have inside := (inv.range f .indirect slot .indirect linked).2.exists_
    have small₂ : (v₁.flush f.block).mem.Small := small₁
    have inside₂ : v.mem.indirect f < (v₁.flush f.block).mem.nblocks := by
      rw [show (v₁.flush f.block).mem = v.mem from same]
      exact inside
    refine ⟨_, .bind loaded (.bind swept (.bind flushed (.bind loaded' ?_))),
      (block.flush inside).mono ?_⟩
    · rw [if_neg none]
      exact .bind (diskaddr_does small₂ linked inside₂) (flushBlock_does small₂ inside₂)
    · rintro b (rfl | ⟨rfl, -⟩ | data)
      · exact .inr (.inl rfl)
      · exact .inl rfl
      · exact .inr (.inr data)

theorem fsSync_does (stale : Set FilePtr) (tidy : Prop) (small : v.mem.Small) :
    ∃ v', Does fsSync v () v' ∧ Flushing stale tidy v {b | 1 ≤ b ∧ b < v.mem.nblocks} v' := by
  have low := small.low
  obtain ⟨v', swept, flushing⟩ := sweep_does (v := v) syncBlock
    (fun k v' => Flushing stale tidy v {b | 1 ≤ b ∧ b < k} v') (v.mem.nblocks - 1) 1
    ((Flushing.refl stale tidy v).mono fun b none => by simp at none; omega) (by
      intro k v' _ _ flushing
      have same := flushing.mem
      have inside : k < v.mem.nblocks := by omega
      have small' : v'.mem.Small := same ▸ small
      have inside' : k < v'.mem.nblocks := same ▸ inside
      refine ⟨_, .bind (diskaddr_does small' (by omega) inside') (flushBlock_does small' inside'),
        (flushing.flush inside).mono ?_⟩
      rintro b ⟨positive, high⟩
      rcases Nat.lt_succ_iff_lt_or_eq.mp high with earlier | rfl
      · exact .inr ⟨positive, earlier⟩
      · exact .inl rfl)
  rw [show 1 + (v.mem.nblocks - 1) = v.mem.nblocks by omega] at flushing
  exact ⟨v', .bind (sNblocks_does small) swept, flushing⟩

end Flush

section SetSize

variable {newsize : Word}

theorem resize_does {m : Image} (inv : m.Inv ∅) (slot : m.Slot f) :
    Does (do store f.block f.fSize newsize; flushBlock f.block) (v.edit fun _ => m) ()
      ((v.edit fun _ => m.resize f newsize).flush f.block) := by
  have valid := slot.valid inv
  have bitmap := Image.sameBitmap_put inv slot newsize 32
  refine .bind (store_does (v := v.edit fun _ => m) inv.small valid f.fSize newsize) ?_
  exact flushBlock_does (v := v.edit fun _ => m.resize f newsize) (bitmap.small inv.small)
    (bitmap.valid inv.small valid).exists_

theorem fileSetSize_grow (inv : v.mem.Inv ∅) (slot : v.mem.Slot f)
    (longer : newsize.slt (v.mem.size f) = false) :
    Does (fileSetSize f newsize) v () ((v.edit fun m => m.resize f newsize).flush f.block) := by
  have loaded : Does (load f.block f.fSize) v (v.mem.size f) v := load_does inv.small (slot.valid inv) _
  refine .bind loaded ?_
  simp only [longer, Bool.false_eq_true, if_false]
  exact resize_does inv slot

variable (inv : v.mem.Inv ∅) (file : v.mem.Regular f)
include inv file

theorem fileSetSize_shrink (shorter : newsize.slt (v.mem.size f) = true) : ∃ freed gone m,
    v.mem.Truncated ∅ f (sizeBlocks newsize).toNat (sizeBlocks (v.mem.size f)).toNat freed gone m ∧
    Does (fileSetSize f newsize) v () ((v.edit fun _ => m.resize f newsize).flush f.block) := by
  have loaded : Does (load f.block f.fSize) v (v.mem.size f) v :=
    load_does inv.small (file.slot.valid inv) _
  obtain ⟨freed, gone, m, truncated, cuts⟩ :=
    fileTruncateBlocks_does inv file.slot (Set.notMem_empty f) file.kind newsize
  refine ⟨freed, gone, m, cuts, .bind loaded ?_⟩
  simp only [shorter, if_true]
  exact .bind truncated (resize_does cuts.cut.inv ((cuts.cut.slot f).mpr file.slot))

theorem fileSetSize_does (trim : v.mem.Trim tidy) (bound : tidy → newsize.toNat ≤ 2 * maxfilesize)
    (entries : safe → v.mem.KeepsEntries f newsize) :
    ∃ v', Does (fileSetSize f newsize) v () v' ∧ Change tidy safe v v' ∧ v'.mem.size f = newsize ∧
      (newsize.slt (v.mem.size f) = false → v'.mem = v.mem.resize f newsize) ∧
      v.mem.CutTo f newsize v'.mem := by
  cases shorter : newsize.slt (v.mem.size f) with
  | false =>
    refine ⟨_, fileSetSize_grow inv file.slot shorter,
      .setSize file (.refl inv f) bound (by simp) (fun holds n c place behind => ?_) fun _ _ _ =>
      rfl, (Image.size_resize inv file.slot newsize file.slot).trans (if_pos rfl), fun _ => rfl,
      ∅, ∅, v.mem, .refl inv f, rfl⟩
    have small := (trim f file.slot (.inl holds)).1
    have big := bound holds
    rw [maxfilesize_eq] at small big
    refine (trim f file.slot (.inl holds)).2 n c place (le_trans ?_ behind)
    have longer : (v.mem.size f).toNat ≤ newsize.toNat := by
      rw [BitVec.slt, decide_eq_false_iff_not, BitVec.toInt_eq_toNat_of_lt (by omega),
        BitVec.toInt_eq_toNat_of_lt (by omega)] at shorter
      omega
    simp only [Image.blocksOf]
    omega
  | true =>
    obtain ⟨freed, gone, m, cuts, does⟩ := fileSetSize_shrink inv file shorter
    have cut := cuts.cut
    have slot := (cut.slot f).mpr file.slot
    have behind : tidy → ∀ n c, Cell.ofBlock n = some c → (sizeBlocks (v.mem.size f)).toNat ≤ n →
      v.mem.cell f c = 0 := by
      intro holds n c place high
      rw [sizeBlocks_eq (trim f file.slot (.inl holds)).1] at high
      exact (trim f file.slot (.inl holds)).2 n c place high
    refine ⟨_, does,
      .setSize file cut bound (fun holds c dropped kept => ?_) (fun holds n c place high => ?_)
      (fun holds linked k => ?_),
      (Image.size_resize cut.inv slot newsize slot).trans
      (if_pos rfl), by rintro ⟨⟩, freed, gone, m, cut, rfl⟩
    · obtain ⟨few, k, rfl⟩ := (cuts.gone_cases c dropped).resolve_left kept
      have place : Cell.ofBlock (10 + k.val) = some (.entry k) := by
        simp [Cell.ofBlock]
      simp only [ndirect] at few
      by_cases inside : 10 + k.val < (sizeBlocks (v.mem.size f)).toNat
      · exact cuts.hole _ _ place (by omega) inside kept
      · exact behind holds _ _ place (by omega)
    · rw [← sizeBlocks_eq (bound holds)] at high
      by_cases inside : n < (sizeBlocks (v.mem.size f)).toNat
      · exact cuts.zero n c place high inside
      · exact (cut.cell_or file.slot c).elim id fun same => same.trans (behind holds n c place (by omega))
    · have many : ndirect < (sizeBlocks newsize).toNat := by
        by_contra few
        exact linked (cuts.indirect (by omega))
      by_cases dropped : .entry k ∈ gone
      · have here : .entry k ∈ freed := (cuts.gone_cases _ dropped).resolve_right fun other => by omega
        obtain ⟨n, ⟨low, high⟩, place⟩ := cuts.freed_range _ here (by simp)
        rw [cut.zero _ dropped, entries holds shorter many n _ place low high]
      · exact cut.kept f _ file.slot fun both => dropped both.2

end SetSize

section Allocate

variable {name : List Byte} (inv : v.mem.Inv ∅) (slot : v.mem.Slot d) (kind : v.mem.type d = ftypeDir)
  (trim : v.mem.Trim tidy)
include inv slot kind trim

theorem dirBlocks_eq : v.mem.dirBlocks d = (v.mem.size d).toNat / 4096 ∧
    v.mem.dirBlocks d = Image.blocksOf (v.mem.size d) := by
  have bound := (trim d slot (.inr kind)).1
  have whole := inv.dirSize d slot kind
  rw [maxfilesize_eq] at bound
  rw [Image.dirBlocks, sdiv_block (by omega), Image.blocksOf]
  omega

theorem absent_of_passed (passed : ∀ n < v.mem.dirBlocks d, v.mem.Passed d (strEq · · name) n) :
    v.mem.Absent d name := by
  rintro n j _ ⟨c, place, linked, small, rfl⟩
  have inside : n < v.mem.dirBlocks d := by
    rw [(dirBlocks_eq inv slot kind trim).2]
    by_contra behind
    exact linked ((trim d slot (.inr kind)).2 n c place (by omega))
  obtain ⟨c', place', -, misses⟩ := passed n inside
  cases place.symm.trans place'
  rw [FilePtr.fName_entry]
  exact misses j small

theorem dirAllocFile_does (safe : Prop) (short : name.length < maxnamelen) (nonempty : name ≠ [])
    (nonzero : ∀ b ∈ name, b ≠ 0) (absent : v.mem.Absent d name) :
    ∃ r v', Does (dirAllocFile d) v r v' ∧ (Changes tidy safe v v' ∧ v.Widens tidy d v') ∧
      ∀ f, r = .ok f → v'.mem.Vacancy d name f := by
  obtain ⟨found, v₁, scanned, growth, scans⟩ := scanDir_does Image.nameOnly_unnamed inv slot kind trim
  have ext := Growth.extends growth inv
  have inv₁ := Growth.inv growth inv
  have slot₁ := ext.slot d slot
  have kind₁ := (ext.type slot).trans kind
  have trim₁ := Growth.trim growth inv trim
  have size₁ := ext.size slot
  have absent₁ : v₁.mem.Absent d name := absent.persist ext.toPersists slot kind short nonempty nonzero
  have blocks₁ : v₁.mem.dirBlocks d = v.mem.dirBlocks d := by rw [Image.dirBlocks, size₁, Image.dirBlocks]
  cases scans with
  | failed error =>
    exact ⟨_, v₁, .bind scanned (.pure _ _), ⟨Growth.changes growth, .same growth⟩, by rintro _ ⟨⟩⟩
  | @found n f inside first =>
    refine ⟨_, v₁, .bind scanned (.pure _ _), ⟨Growth.changes growth, .same growth⟩, fun _ same => ?_⟩
    cases same
    obtain ⟨c, j, place, linked, small, rfl, hit, -⟩ := first.here
    refine ⟨slot₁, kind₁,
      ⟨n, j, ⟨c, place, linked, small, rfl⟩, fun n' low => ?_, blocks₁ ▸ inside⟩, short, nonempty,
      nonzero, ?_, absent₁⟩
    · obtain ⟨c', place', linked', -⟩ := first.before n' low
      exact ⟨c', place', linked'⟩
    · rw [FilePtr.fName_entry]
      exact of_decide_eq_true hit
  | passed passed =>
    have more : ∀ x : Nat, x / 4096 < (x + 4096 + 4095) / 4096 := fun x => by omega
    let v₂ := v₁.edit fun m => m.resize d (v₁.mem.size d + 4096)
    have linked : ∀ n' < v.mem.dirBlocks d, ∃ c, Cell.ofBlock n' = some c ∧ v₁.mem.cell d c ≠ 0 := by
      intro n' low
      obtain ⟨c, place, linked, -⟩ := passed n' low
      exact ⟨c, place, linked⟩
    have bound : (v₁.mem.size d).toNat ≤ maxfilesize := by
      by_contra big
      have many := (dirBlocks_eq inv slot kind trim).1
      have whole := inv.dirSize d slot kind
      rw [size₁, maxfilesize_eq] at big
      obtain ⟨c, place, -⟩ := linked 1034 (by omega)
      rcases Cell.ofBlock_cases place with ⟨i, -, high⟩ | ⟨k, -, high⟩ <;> omega
    have extend : Change tidy safe v₁ v₂ := .extend slot₁ kind₁ bound
    have inv₂ : v₂.mem.Inv ∅ := extend.inv' inv₁
    have keeps := extend.persists inv₁
    have slot₂ := keeps.slot d slot₁
    have kind₂ := (keeps.type slot₁).trans kind₁
    have size₂ : v₂.mem.size d = v₁.mem.size d + 4096 :=
      (Image.size_resize inv₁ slot₁ _ slot₁).trans (if_pos rfl)
    have grown : (v₂.mem.size d).toNat = (v₁.mem.size d).toNat + 4096 := size₂ ▸ Image.toNat_extend bound
    have room : v.mem.dirBlocks d < Image.blocksOf (v₂.mem.size d) := by
      rw [Image.blocksOf, grown, size₁, (dirBlocks_eq inv slot kind trim).1]
      exact more _
    have loaded : Does (load d.block d.fSize) v₁ (v₁.mem.size d) v₁ :=
      load_does inv₁.small (slot₁.valid inv₁) _
    have stored : Does (store d.block d.fSize (v₁.mem.size d + 4096)) v₁ () v₂ :=
      store_does inv₁.small (slot₁.valid inv₁) _ _
    obtain ⟨r, v₃, does, gets⟩ :=
      fileGetBlock_does inv₂ slot₂ (Set.notMem_empty d) (inv₂.named_dir slot₂ kind₂)
      (show v₂.mem.Neat tidy d → _ from fun _ => room)
    have changes : Changes tidy safe v v₃ :=
      (Growth.changes growth).trans (.head extend (Growth.changes gets.growth))
    have widens : v.Widens tidy d v₃ := .more growth bound gets.growth
    cases r with
    | error e =>
      exact ⟨_, v₃, .bind scanned (.bind loaded (.bind stored (.bind does (.pure _ _)))),
        ⟨changes, widens⟩, by rintro _ ⟨⟩⟩
    | ok b =>
      refine ⟨_, v₃, .bind scanned (.bind loaded (.bind stored (.bind does (.pure _ _)))),
        ⟨changes, widens⟩, fun _ same => ?_⟩
      cases same
      have ext₃ := Growth.extends gets.growth inv₂
      have keeps₃ := keeps.trans ext₃.toPersists
      obtain ⟨c, place, target, present⟩ := gets.linked inv₂ slot₂
      have blocks₃ : v.mem.dirBlocks d < v₃.mem.dirBlocks d := by
        rw [maxfilesize_eq] at bound
        have small' : (v₂.mem.size d).toNat < 2 ^ 31 := by
          clear size₂
          omega
        rw [(dirBlocks_eq inv slot kind trim).1, Image.dirBlocks, ext₃.size slot₂,
          sdiv_block small', grown, size₁, Nat.add_div_right _ (by decide)]
        exact Nat.lt_succ_self _
      refine ⟨ext₃.slot d slot₂, (ext₃.type slot₂).trans kind₂,
        ⟨_, 0, ⟨c, place, target ▸ present, by decide, by rw [target]⟩, fun n' low => ?_, blocks₃⟩,
        short, nonempty, nonzero, ?_, absent₁.persist keeps₃ slot₁ kind₁ short nonempty nonzero⟩
      · obtain ⟨c', place', linked'⟩ := linked n' low
        exact ⟨c', place', (keeps₃.dirCell d c' slot₁ kind₁ linked').trans_ne linked'⟩
      · have hole : v₁.mem.cell d c = 0 := by
          refine (trim₁ d slot₁ (.inr kind₁)).2 _ c place ?_
          rw [size₁, (dirBlocks_eq inv slot kind trim).2]
        have unnamed :=
          keeps₃.fresh d c 0 slot₁ kind₁ (Cell.ofBlock_data place) (by decide) hole
          (target ▸ present)
        rw [target] at unnamed
        exact unnamed

end Allocate

inductive Creates (v : Volume) (tidy safe : Prop) (path : List Byte) : Except Errno FilePtr →
    Volume → Prop
  | failed {e : Errno} {v' : Volume} (changes : Changes tidy safe v v') :
    Creates v tidy safe path (.error e) v'
  | made {init : List (List Byte)} {name : List Byte} {d f : FilePtr} {v₁ v₂ v' : Volume}
      (last : components path = init ++ [name]) (growth : Growth ∅ tidy v v₁)
      (reached : v₁.mem.Path .root init d) (changes : Changes tidy safe v₁ v₂)
      (vacancy : v₂.mem.Vacancy d name f)
      (flushing : Flushing ∅ tidy (v₂.edit fun m => m.rename f name)
      ((v₂.mem.rename f name).flushed d) v') : Creates v tidy safe path (.ok f) v'

inductive Builds (v : Volume) (tidy : Prop) (path : List Byte) : Except Errno FilePtr → Volume → Prop
  | failed {e : Errno} {v' : Volume} (growth : Growth ∅ tidy v v') : Builds v tidy path (.error e) v'
  | full {init : List (List Byte)} {name : List Byte} {d : FilePtr} {e : Errno} {v₁ v' : Volume}
      (last : components path = init ++ [name]) (growth : Growth ∅ tidy v v₁)
      (reached : v₁.mem.Path .root init d) (kind : v₁.mem.type d = ftypeDir)
      (widens : v₁.Widens tidy d v') : Builds v tidy path (.error e) v'
  | made {init : List (List Byte)} {name : List Byte} {d f : FilePtr} {v₁ v₂ v' : Volume}
      (last : components path = init ++ [name]) (growth : Growth ∅ tidy v v₁)
      (reached : v₁.mem.Path .root init d) (kind : v₁.mem.type d = ftypeDir)
      (widens : v₁.Widens tidy d v₂) (vacancy : v₂.mem.Vacancy d name f)
      (mem : v'.mem = v₂.mem.rename f name) : Builds v tidy path (.ok f) v'

theorem fileCreate_does {path : List Byte} (safe : Prop) (nonzero : ∀ b ∈ path, b ≠ 0) (inv : v.mem.Inv ∅)
    (trim : v.mem.Trim tidy) : ∃ r v', Does (fileCreate path) v r v' ∧ Creates v tidy safe path r v' ∧
    Builds v tidy path r v' := by
  obtain ⟨w, v₁, walked, growth, arrives⟩ := walkPath_does path inv trim
  have changes : Changes tidy safe v v₁ := Growth.changes growth
  cases arrives with
  | found => exact ⟨_, v₁, .bind walked (.pure _ _), .failed changes, .failed growth⟩
  | @failed e =>
    refine ⟨_, v₁, .bind (b := .error e) walked ?_, .failed changes, .failed growth⟩
    cases e <;> exact .pure _ _
  | @missing init name d last reached short kind passed =>
    have inv₁ := Growth.inv growth inv
    have trim₁ := Growth.trim growth inv trim
    have slot : v₁.mem.Slot d := reached.slot .root
    obtain ⟨nonempty, nonzero'⟩ := proper_components nonzero name (by simp [last])
    obtain ⟨r, v₂, allocated, ⟨changes₂, widens⟩, vacancy⟩ :=
      dirAllocFile_does inv₁ slot kind trim₁ safe short nonempty nonzero'
      (absent_of_passed inv₁ slot kind trim₁ passed)
    cases r with
    | error e =>
      exact ⟨_, v₂, .bind walked (.bind allocated (.pure _ _)), .failed (changes.trans changes₂),
        .full last growth reached kind widens⟩
    | ok f =>
      have vac := vacancy f rfl
      have inv₂ := Changes.inv' changes₂ inv₁
      obtain ⟨n, j, child, -⟩ := vac.child
      have file := child.slot vac.slot vac.kind
      have same := Image.rename_sameMeta inv₂ file vac.short
      have renamed :
        Does (change f.block (strcpy f.fName name)) v₂ () (v₂.edit fun m => m.rename f name) :=
        change_does inv₂.small (file.valid inv₂) _
      obtain ⟨v₃, flushed, flushing⟩ := fileFlush_does (v := v₂.edit fun m => m.rename f name) tidy
        (Image.rename_inv inv₂ file vac.short vac.nonempty vac.nonzero) ((same.slot d).mpr vac.slot)
          (Set.notMem_empty d)
      exact ⟨_, v₃, .bind walked (.bind allocated (.bind renamed (.bind flushed (.pure _ _)))),
        .made last growth reached changes₂ vac flushing,
          .made last growth reached kind widens vac flushing.mem⟩

end FsM

end Jos.Fs
