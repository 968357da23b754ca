import Jos.Fs.Account
import Jos.Fs.Copy

namespace Jos.Fs

open Jos.Shared
open Jos.Kern (Word Byte)
open Function

namespace Image

variable {m m' m'' : Image} {stale : Set FilePtr} {f g : FilePtr} {c : Cell} {n i : Nat}

theorem raw_of_cell (place : Cell.ofBlock n = some c) (linked : m.cell f c ≠ 0) (block : i / 4096 = n) :
    m.raw f i = byteAt (m (m.cell f c)) (i % 4096) := by
  simp only [raw, block, place, if_neg linked]

def readable (m : Image) (f : FilePtr) (offset : Word) : Nat := ((m.size f).toInt - offset.toInt).toNat

def bytes (m : Image) (f : FilePtr) (o n : Nat) : List Byte := (List.range n).map fun i => m.raw f (o + i)

theorem bytes_append (m : Image) (f : FilePtr) (o n k : Nat) :
    m.bytes f o (n + k) = m.bytes f o n ++ m.bytes f (o + n) k := by
  simp only [bytes, List.range_add, List.map_append, List.map_map]
  congr 2
  funext i
  simp only [comp_apply, Nat.add_assoc]

theorem raw_data (inv : m.Inv stale) (slot : m.Slot f) (current : f ∉ stale) (kind : m.type f ≠ ftypeDir)
    (place : Cell.ofBlock n = some c) (linked : m.cell f c ≠ 0) (blk : Block) (slot' : m.Slot g)
    (current' : g ∉ stale) : Image.raw (update m (m.cell f c) blk) g i =
      if g = f ∧ i / 4096 = n then byteAt blk (i % 4096) else m.raw g i := by
  have same := data_sameMeta inv slot current kind (Cell.ofBlock_data place) linked blk
  by_cases here : g = f ∧ i / 4096 = n
  · obtain ⟨rfl, block⟩ := here
    have cell := same.cell slot c
    rw [if_pos ⟨rfl, block⟩, raw_of_cell place (cell.trans_ne linked) block, cell, update_self]
  · rw [if_neg here]
    unfold raw
    split
    · rfl
    next c' place' =>
      rw [same.cell slot' c']
      split
      · rfl
      next linked' =>
        rw [update_of_ne]
        intro target
        obtain ⟨rfl, rfl⟩ :=
          inv.unique g c' f c slot' slot (.of_mem current') (.of_mem current) linked' target
        exact here ⟨rfl, Cell.ofBlock_inj place' place⟩

theorem raw_resize (inv : m.Inv stale) (slot : m.Slot f) (size : Word) (slot' : m.Slot g)
    (outside : m.Outside f g) : (m.resize f size).raw g = m.raw g := by
  funext i
  unfold raw
  split
  · rfl
  next c' place =>
    rw [cell_resize inv slot size slot']
    split
    · rfl
    next linked => rw [resize, put_of_block_ne (outside c' (Cell.ofBlock_data place) linked)]

/-- The bytes `xs` have been written to `f` from position `o` on. Other files are what they were,
except that the structure of `f` is in one of them. -/
structure Wrote (m : Image) (f : FilePtr) (o : Nat) (xs : List Byte) (m' : Image) : Prop where
  persists : m.Persists m'
  size : ∀ g, m.Slot g → m'.size g = m.size g
  cells : ∀ g c, m.Slot g → g ≠ f → m'.cell g c = m.cell g c
  raw : m'.raw f = overwrite (m.raw f) o xs
  others : ∀ g, m.Slot g → g ≠ f → m.Outside f g → m'.raw g = m.raw g

theorem Regular.persist (file : m.Regular f) (keeps : m.Persists m') : m'.Regular f :=
  ⟨keeps.slot f file.slot, (keeps.named file.slot).mpr file.named,
    (keeps.type file.slot).trans_ne file.kind⟩

theorem Wrote.refl (m : Image) (f : FilePtr) (o : Nat) : m.Wrote f o [] m :=
  ⟨.refl m, fun _ _ => rfl, fun _ _ _ _ => rfl, overwrite_nil.symm, fun _ _ _ _ => rfl⟩

theorem Outside.congr (outside : m.Outside f g) (cells : ∀ c, m'.cell g c = m.cell g c) :
    m'.Outside f g :=
  fun c data linked => cells c ▸ outside c data (cells c ▸ linked)

theorem Wrote.trans {xs ys : List Byte} {o : Nat} (first : m.Wrote f o xs m')
    (second : m'.Wrote f (o + xs.length) ys m'') : m.Wrote f o (xs ++ ys) m'' where
  persists := first.persists.trans second.persists
  size g slot := (second.size g (first.persists.slot g slot)).trans (first.size g slot)
  cells g c slot other :=
    (second.cells g c (first.persists.slot g slot) other).trans (first.cells g c slot other)
  raw := by rw [second.raw, first.raw, overwrite_append]
  others g slot other outside :=
    (second.others g (first.persists.slot g slot) other
      (outside.congr fun c => first.cells g c slot other)).trans (first.others g slot other outside)

theorem attach_wrote {tidy : Prop} {p : Nat} (inv : m.Inv ∅) (can : m.Attaches ∅ tidy f c p) (o : Nat) :
    m.Wrote f o [] (m.attach f c p) where
  persists := attach_persists inv can
  size _ slot := (attach_extends inv can).size slot
  cells _ c' slot other := (cell_attach inv can slot c').trans (if_neg fun here => other here.1)
  raw := (raw_attach inv can can.slot (can.slot.outside_self inv (Set.notMem_empty f))
    (Set.notMem_empty f)).trans overwrite_nil.symm
  others g slot _ outside := raw_attach inv can slot outside (Set.notMem_empty g)

structure Written (m : Image) (f : FilePtr) (o : Nat) (xs : List Byte) (m' : Image) : Prop where
  size : (m'.size f).toNat = max (m.size f).toNat (o + xs.length)
  raw : m'.raw f = overwrite (m.raw f) o xs
  others : ∀ g, m.Slot g → g ≠ f → m.Outside f g → m'.size g = m.size g ∧ m'.raw g = m.raw g

structure Stored (m : Image) (f : FilePtr) (o : Nat) (data : List Byte) (k : Nat) (m' : Image) :
    Prop where
  persists : m.Persists m'
  size : (m'.size f).toNat = max (m.size f).toNat (o + data.length)
  raw : m'.raw f = overwrite (m.raw f) o (data.take k)
  sizes : ∀ g, m.Slot g → g ≠ f → m'.size g = m.size g
  cells : ∀ g c, m.Slot g → g ≠ f → m'.cell g c = m.cell g c
  others : ∀ g, m.Slot g → g ≠ f → m.Outside f g → m'.raw g = m.raw g

theorem Wrote.stored {data : List Byte} {o k : Nat} {newsize : Word} (inv : m.Inv ∅) (slot : m.Slot f)
    (length : newsize.toNat = max (m.size f).toNat (o + data.length))
    (wrote : (m.resize f newsize).Wrote f o (data.take k) m') : m.Stored f o data k m' := by
  have keeps := resize_persists inv slot newsize
  have sizes :=
    fun g (slot' : m.Slot g) =>
    (wrote.size g (keeps.slot g slot')).trans (size_resize inv slot newsize slot')
  refine ⟨keeps.trans wrote.persists, ?_, ?_,
    fun g slot' other => (sizes g slot').trans (if_neg other), fun g c slot' other => ?_,
    fun g slot' other outside => ?_⟩
  · rw [sizes f slot, if_pos rfl, length]
  · rw [wrote.raw, raw_resize inv slot newsize slot (slot.outside_self inv (Set.notMem_empty f))]
  · exact (wrote.cells g c (keeps.slot g slot') other).trans (cell_resize inv slot newsize slot' c)
  · rw [wrote.others g (keeps.slot g slot') other
      (outside.congr fun c => cell_resize inv slot newsize slot' c),
      raw_resize inv slot newsize slot' outside]

theorem Stored.written {data : List Byte} {o : Nat} (stored : m.Stored f o data data.length m') :
    m.Written f o data m' :=
  ⟨stored.size, by rw [stored.raw, List.take_length], fun g slot other outside =>
    ⟨stored.sizes g slot other, stored.others g slot other outside⟩⟩

theorem overwrite_block (block : Nat → Byte) {raw : Nat → Byte} {pos n off : Nat} {xs : List Byte}
    (position : pos = 4096 * n + off) (inside : off + xs.length ≤ 4096)
    (same : ∀ i, i / 4096 = n → raw i = block (i % 4096)) (i : Nat) :
    (if i / 4096 = n then overwrite block off xs (i % 4096) else raw i) =
    overwrite raw pos xs i := by
  by_cases here : i / 4096 = n
  · rw [if_pos here]
    unfold overwrite
    rw [same i here]
    have range : (off ≤ i % 4096 ∧ i % 4096 < off + xs.length) ↔ pos ≤ i ∧ i < pos + xs.length := by omega
    simp only [range]
    by_cases written : pos ≤ i ∧ i < pos + xs.length
    · rw [if_pos written, if_pos written, show i % 4096 - off = i - pos by omega]
    · rw [if_neg written, if_neg written]
  · rw [if_neg here, overwrite_outside (by omega)]

end Image

namespace BufM

open Volume (Growth Change Changes)

variable {β : Type} {v : Volume} {b : β} {stale : Set FilePtr} {tidy safe : Prop} {f : FilePtr}
    {count offset : Word}

section Read

variable (put : Nat → List Byte → BufM β Unit) (holds : β → List Byte → Prop) (limit : Nat) (tidy : Prop)

theorem fileRead_serves (puts : ∀ v b bytes more, holds b bytes → bytes.length + more.length ≤ limit →
      ∃ b', Serves (put bytes.length more) v b () v b' ∧ holds b' (bytes ++ more))
    (inv : v.mem.Inv stale) (slot : v.mem.Slot f) (current : f ∉ stale) (named : v.mem.Named f)
    (positive : offset.toNat < 2 ^ 31) (fits : min count.toNat (v.mem.readable f offset) ≤ limit)
    (start : holds b []) : ∃ r v' b' bytes, Serves (fileRead put f count offset) v b r v' b' ∧
    Growth stale tidy v v' ∧ holds b' bytes ∧
      (∀ w, r = .ok w → w.toNat = min count.toNat (v.mem.readable f offset) ∧
      bytes = v.mem.bytes f offset.toNat w.toNat) ∧ ∀ e, r = .error e →
      ∃ k, v.mem.Halts f offset.toNat (min count.toNat (v.mem.readable f offset)) k e v'.mem := by
  have loaded : Does (FsM.load f.block f.fSize) v (v.mem.size f) v :=
    FsM.load_does inv.small (slot.valid inv) _
  by_cases none : (v.mem.size f).sle offset
  · refine ⟨.ok 0, v, b, [], .bind (lift_serves loaded b) ?_, .refl, start,
      fun w same => ?_, by rintro _ ⟨⟩⟩
    · rw [if_pos none]
      exact .pure _ _
    · cases same
      have empty : v.mem.readable f offset = 0 := by
        rw [BitVec.sle, decide_eq_true_eq] at none
        rw [Image.readable]
        omega
      rw [empty]
      exact ⟨by simp, rfl⟩
  -- The size is positive, too, and nothing wraps around.
  have offsetInt : offset.toInt = offset.toNat := BitVec.toInt_eq_toNat_of_lt (by omega)
  have above : (offset.toNat : Int) < (v.mem.size f).toInt := by
    rw [BitVec.sle, decide_eq_true_eq, offsetInt] at none
    omega
  have sizeInt : (v.mem.size f).toInt = (v.mem.size f).toNat := by
    have bound := (v.mem.size f).isLt
    rw [BitVec.toInt_eq_toNat_cond] at above ⊢
    split at above
    next low => rw [if_pos low]
    · omega
  have small : (v.mem.size f).toNat < 2 ^ 31 := by
    have bound := BitVec.toInt_lt (x := v.mem.size f)
    omega
  have left : v.mem.readable f offset = (v.mem.size f).toNat - offset.toNat := by
    rw [Image.readable, sizeInt, offsetInt]
    omega
  have rest : (v.mem.size f - offset).toNat = (v.mem.size f).toNat - offset.toNat :=
    BitVec.toNat_sub_of_le (show offset.toNat ≤ (v.mem.size f).toNat by omega)
  obtain ⟨total, total_eq⟩ : ∃ total, wordMin count (v.mem.size f - offset) = total := ⟨_, rfl⟩
  have length : total.toNat = min count.toNat (v.mem.readable f offset) := by
    rw [← total_eq, toNat_wordMin, rest, left]
  have stop : (offset + total).toNat = offset.toNat + total.toNat := by
    rw [BitVec.toNat_add, Nat.mod_eq_of_lt (by omega)]
  have loop := copyLoop_serves (v := v) (b := b) f (copyOut put) (offset + total)
    (fun pos i v' b' => (pos.toNat = offset.toNat + i ∧ i ≤ total.toNat) ∧ Growth stale tidy v v' ∧
      v'.mem.raw f = v.mem.raw f ∧ v.mem.Paid f offset.toNat i v'.mem ∧
        holds b' (v.mem.bytes f offset.toNat i))
    (fun e v' b' => Growth stale tidy v v' ∧
      (∃ k, v.mem.Halts f offset.toNat total.toNat k e v'.mem) ∧ ∃ bytes, holds b' bytes) (by
      rintro pos i v₀ b₀ before ⟨⟨place, _⟩, growth, same, paid, held⟩
      have before' : pos.toNat < offset.toNat + total.toNat := stop ▸ before
      have positive' : pos.toNat < 2 ^ 31 := by omega
      have ext := Growth.extends growth inv
      have inv₀ := Growth.inv growth inv
      have slot₀ := ext.slot f slot
      have room : v₀.mem.Neat tidy f → (pos.sdiv 4096).toNat < Image.blocksOf (v₀.mem.size f) := by
        intro _
        rw [sdiv_block positive', ext.size slot, Image.blocksOf]
        omega
      obtain ⟨r, v₁, does, gets⟩ :=
        FsM.fileGetBlock_does inv₀ slot₀ current ((ext.named slot).mpr named) room
      have growth₁ := growth.trans gets.growth
      have block : (pos.sdiv 4096).toNat = (offset.toNat + i) /
        4096 := by rw [sdiv_block positive', place]
      rw [block] at gets
      cases r with
      | error e => exact .inl ⟨e, v₁, does, growth₁, ⟨i, paid.halts gets inv₀ slot₀ (by omega)⟩, _, held⟩
      | ok blk =>
        have inv₁ := Growth.inv growth₁ inv
        have slot₁ := (Growth.extends growth₁ inv).slot f slot
        obtain ⟨c, spot, target, linked⟩ := gets.linked inv₀ slot₀
        have linked₁ : v₁.mem.cell f c ≠ 0 := target ▸ linked
        have valid := (inv₁.range f c slot₁ (.of_mem current) linked₁).2
        rw [target] at valid
        have size := chunk_of_nonneg before positive'
        obtain ⟨some_, fit, sum⟩ := chunk_bounds before
        have loaded := FsM.loadBytes_does (pos.toNat % 4096) inv₁.small valid some_ (by omega)
        have same₁ := (gets.raw inv₀ slot₀ current).trans same
        have more : ((List.range (chunk pos (offset + total)).toNat).map fun k =>
          byteAt (v₁.mem blk) (pos.toNat % 4096 + k)) =
            v.mem.bytes f (offset.toNat + i) (chunk pos (offset + total)).toNat := by
          refine List.map_congr_left fun k member => ?_
          have low := List.mem_range.mp member
          have inner : (offset.toNat + i + k) % 4096 = pos.toNat % 4096 + k := by omega
          rw [← same₁, Image.raw_of_cell (i := offset.toNat + i + k) spot linked₁ (by omega),
            target, inner]
        rw [more] at loaded
        obtain ⟨b₁, stored, held₁⟩ :=
          puts v₁ b₀ _ (v.mem.bytes f (offset.toNat + i) (chunk pos (offset + total)).toNat) held
          (by simp only [Image.bytes, List.length_map, List.length_range]; omega)
        rw [Image.bytes, List.length_map, List.length_range] at stored
        rw [← Image.bytes_append] at held₁
        refine .inr ⟨blk, v₁, v₁, b₁, does, ?_, ⟨by omega, by omega⟩, growth₁, same₁,
          paid.get gets inv₀ slot₀ some_ (by omega), held₁⟩
        rw [address_of_nonneg positive']
        exact .bind (lift_serves loaded b₀) stored)
    (total.toNat + 1) offset 0 ⟨by simp, .refl, rfl, .refl _ f _, start⟩
    (show offset.toNat ≤ (offset + total).toNat by omega)
      (by rw [BitVec.toNat_sub_of_le (by show offset.toNat ≤ _; omega)]; omega)
  rcases loop with ⟨i, v', b', done, ⟨place, _⟩, growth, -, -, held⟩ |
    ⟨e, v', b', done, growth, halts, bytes, held⟩
  · have all : i = total.toNat := by omega
    subst all
    refine ⟨.ok total, v', b', _, .bind (lift_serves loaded b) ?_, growth, held,
      fun w same => ?_, by rintro _ ⟨⟩⟩
    · rw [if_neg none, total_eq]
      exact .bind done (.pure _ _)
    · cases same
      exact ⟨length, rfl⟩
  · refine ⟨.error e, v', b', bytes, .bind (lift_serves loaded b) ?_, growth,
      held, by rintro _ ⟨⟩, fun e' same => ?_⟩
    · rw [if_neg none, total_eq]
      exact .bind done (.pure _ _)
    · cases same
      exact length ▸ halts

end Read

section Write

variable (fetch : Nat → Nat → BufM β (List Byte)) (good : β → Prop) (data : List Byte)

theorem gets_wrote {n : Nat} {r : Except Errno Nat} {v' : Volume} (inv : v.mem.Inv ∅)
    (gets : FsM.Gets v ∅ tidy f n r v') (o : Nat) : v.mem.Wrote f o [] v'.mem := by
  cases gets with
  | outside => exact .refl _ f o
  | present => exact .refl _ f o
  | full => exact .refl _ f o
  | attached _ can => exact Image.attach_wrote inv can o
  | half _ can => exact Image.attach_wrote inv can o
  | both _ can can' =>
    exact (Image.attach_wrote inv can o).trans
      (Image.attach_wrote (Image.attach_inv inv can) can' o)

theorem copyIn_serves (fetches : ∀ v b i n, good b → i + n ≤ data.length →
      ∃ b', Serves (fetch i n) v b ((data.drop i).take n) v b' ∧ good b')
    {c : Cell} {n pos i k : Nat} (held : good b) (inv : v.mem.Inv ∅) (file : v.mem.Regular f)
    (place : Cell.ofBlock n = some c) (linked : v.mem.cell f c ≠ 0) (block : pos / 4096 = n)
    (some_ : 0 < k) (inside : pos % 4096 + k ≤ 4096) (left : i + k ≤ data.length) :
    ∃ v' b', Serves (copyIn fetch (4096 * v.mem.cell f c + pos % 4096) i k) v b () v' b' ∧ good b' ∧
      (∀ tidy safe, Change tidy safe v v') ∧ v.mem.Wrote f pos ((data.drop i).take k) v'.mem ∧
      (∀ c, v'.mem.cell f c = v.mem.cell f c) ∧ v'.mem.freeBlocks = v.mem.freeBlocks := by
  obtain ⟨b', fetched, held'⟩ := fetches v b i k held left
  have len : ((data.drop i).take k).length = k := by
    simp only [List.length_take, List.length_drop]
    omega
  generalize (data.drop i).take k = xs at fetched len ⊢
  have current : ∀ g, g ∉ (∅ : Set FilePtr) := Set.notMem_empty
  have data_ := Cell.ofBlock_data place
  obtain ⟨high, valid⟩ := inv.range f c file.slot (.of_mem (current f)) linked
  have stored := FsM.storeBytes_does (pos % 4096) xs inv.small valid (by omega) (by omega)
  let blk := FsM.patch (4096 * v.mem.cell f c + pos % 4096) xs (v.mem.cell f c) (v.mem (v.mem.cell f c))
  have same := Image.data_sameMeta inv file.slot (current f) file.kind data_ linked blk
  have keeps := Image.data_persists inv file.slot (current f) file.kind data_ linked blk
  have raws := fun g (slot : v.mem.Slot g) i =>
    Image.raw_data (i := i) inv file.slot (current f) file.kind place linked blk slot (current g)
  refine ⟨v.edit fun m => update m (m.cell f c) blk, b', .bind fetched (lift_serves stored b'), held',
    fun _ _ => .write file data_ linked blk,
      ⟨keeps, fun g slot => same.size slot, fun g c' slot _ => same.cell slot c', ?_,
      fun g slot other _ => ?_⟩, fun c' => same.cell file.slot c',
      Image.freeBlocks_congr inv.small (.update (by omega) blk)⟩
  · funext j
    refine (raws f file.slot j).trans ?_
    simp only [true_and]
    rw [← Image.overwrite_block (byteAt (v.mem (v.mem.cell f c))) (show pos = 4096 * n + pos %
      4096 by omega) (by omega) (fun i here => Image.raw_of_cell place linked here) j]
    split
    · exact FsM.byteAt_patch _ (Nat.mod_lt _ (by decide))
    · rfl
  · funext j
    exact (raws g slot j).trans (if_neg fun here => other here.1)

theorem writeLoop_serves (fetches : ∀ v b i n, good b → i + n ≤ data.length →
      ∃ b', Serves (fetch i n) v b ((data.drop i).take n) v b' ∧ good b')
    (held : good b) (inv : v.mem.Inv ∅) (file : v.mem.Regular f) (positive : offset.toNat < 2 ^ 31)
    (stop : (offset + count).toNat = offset.toNat + data.length)
    (room : tidy → (offset + count).toNat ≤ (v.mem.size f).toNat) :
    ∃ r v' b',
    Serves (copyLoop f (copyIn fetch) (offset + count) (data.length + 1) offset 0) v b r v' b' ∧
    good b' ∧
      Changes tidy safe v v' ∧ ∃ k, v.mem.Wrote f offset.toNat (data.take k) v'.mem ∧
        (r = .ok () → data.length = k ∧ v.mem.Paid f offset.toNat k v'.mem) ∧
        ∀ e, r = .error e → v.mem.Halts f offset.toNat data.length k e v'.mem := by
  have current : f ∉ (∅ : Set FilePtr) := Set.notMem_empty f
  have loop := copyLoop_serves (v := v) (b := b) f (copyIn fetch) (offset + count)
    (fun pos i v' b' => (pos.toNat = offset.toNat + i ∧ i ≤ data.length ∧ pos.toNat < 2 ^ 31) ∧ good b' ∧
      Changes tidy safe v v' ∧ v.mem.Wrote f offset.toNat (data.take i) v'.mem ∧
        v.mem.Paid f offset.toNat i v'.mem)
    (fun e v' b' => good b' ∧ Changes tidy safe v v' ∧
      ∃ k, v.mem.Wrote f offset.toNat (data.take k) v'.mem ∧
      v.mem.Halts f offset.toNat data.length k e v'.mem) (by
      rintro pos i v₀ b₀ before ⟨⟨place, inside, positive⟩, held, changes, wrote, paid⟩
      have before' : pos.toNat < offset.toNat + data.length := stop ▸ before
      have inv₀ := Changes.inv' changes inv
      have file₀ := file.persist wrote.persists
      have room₀ : v₀.mem.Neat tidy f → (pos.sdiv 4096).toNat < Image.blocksOf (v₀.mem.size f) := by
        intro neat
        have enough := room (neat.resolve_right file₀.kind)
        rw [sdiv_block positive, wrote.size f file.slot, Image.blocksOf]
        omega
      obtain ⟨r, v₁, does, gets⟩ := FsM.fileGetBlock_does inv₀ file₀.slot current file₀.named room₀
      have changes₁ : Changes tidy safe v v₁ := changes.trans (Growth.changes gets.growth)
      have wrote₁ : v.mem.Wrote f offset.toNat (data.take i) v₁.mem := by
        simpa using wrote.trans (gets_wrote inv₀ gets _)
      have block : (pos.sdiv 4096).toNat = (offset.toNat + i) / 4096 := by rw [sdiv_block positive, place]
      rw [block] at gets
      cases r with
      | error e =>
        exact .inl ⟨e, v₁, does, held, changes₁, i, wrote₁,
          paid.halts gets inv₀ file₀.slot (by omega)⟩
      | ok blk =>
        have inv₁ := Changes.inv' changes₁ inv
        obtain ⟨c, spot, target, linked⟩ := gets.linked inv₀ file₀.slot
        have size := chunk_of_nonneg before positive
        obtain ⟨some_, fit, sum⟩ := chunk_bounds before
        rw [← target] at linked
        rw [← place] at spot
        have paid₁ := paid.get gets inv₀ file₀.slot some_ (by omega)
        obtain ⟨v₂, b₂, copied, held₂, change, wrote₂, cells, free⟩ :=
          copyIn_serves fetch good data fetches held inv₁ (file.persist wrote₁.persists) spot linked
          rfl some_ (by omega) (show i + (chunk pos (offset + count)).toNat ≤ _ by omega)
        have len : (data.take i).length = i := by simp [inside]
        rw [show pos.toNat = offset.toNat + (data.take i).length by rw [len, place]] at wrote₂
        have together := wrote₁.trans wrote₂
        rw [← List.take_add] at together
        refine .inr ⟨blk, v₁, v₂, b₂, does, ?_, ⟨by omega, by omega, ?_⟩, held₂,
          changes₁.tail (change tidy safe), together, paid₁.congr cells free⟩
        · rw [address_of_nonneg positive, ← target]
          exact copied
        · rcases Cell.ofBlock_cases spot with ⟨k, -, low⟩ | ⟨k, -, low⟩ <;> omega)
    (data.length + 1) offset 0 ⟨⟨by simp, by simp, positive⟩, held,
      .refl, by simpa using .refl v.mem f offset.toNat, .refl _ f _⟩
    (show offset.toNat ≤ (offset + count).toNat by omega)
    (by rw [BitVec.toNat_sub_of_le (by show offset.toNat ≤ _; omega)]; omega)
  rcases loop with ⟨i, v', b', done, ⟨place, _, _⟩, held, changes, wrote, paid⟩ |
    ⟨e, v', b', done, held, changes, k, wrote, halts⟩
  · exact ⟨_, v', b', done, held, changes, i, wrote, fun _ => ⟨by omega, paid⟩, by rintro _ ⟨⟩⟩
  · refine ⟨_, v', b', done, held, changes, k, wrote, by rintro ⟨⟩, fun e' same => ?_⟩
    cases same
    exact halts

theorem extendTo_does {newsize : Word} (inv : v.mem.Inv ∅) (file : v.mem.Regular f)
    (trim : v.mem.Trim tidy) (bound : tidy → newsize.toNat ≤ 2 * maxfilesize)
    (entries : safe → v.mem.size f < newsize → v.mem.KeepsEntries f newsize) :
    ∃ v', Does (FsM.extendTo f newsize) v () v' ∧ Changes tidy safe v v' ∧
    newsize.toNat ≤ (v'.mem.size f).toNat ∧
      (tidy → ∃ size, v'.mem = v.mem.resize f size ∧
      size.toNat = max (v.mem.size f).toNat newsize.toNat) ∧
      (v'.mem = v.mem ∨ v.mem.CutTo f newsize v'.mem) := by
  have loaded : Does (FsM.load f.block f.fSize) v (v.mem.size f) v :=
    FsM.load_does inv.small (file.slot.valid inv) _
  by_cases short : v.mem.size f < newsize
  · have short' : (v.mem.size f).toNat < newsize.toNat := short
    obtain ⟨v', does, change, size, grown, cut⟩ :=
      FsM.fileSetSize_does inv file trim bound fun holds => entries holds short
    refine ⟨v', .bind loaded ?_,
      .single change, by rw [size], fun holds => ⟨newsize, grown ?_, by omega⟩, .inr cut⟩
    · rw [if_pos short]
      exact does
    · have small := bound holds
      rw [maxfilesize_eq] at small
      rw [BitVec.slt, decide_eq_false_iff_not, BitVec.toInt_eq_toNat_of_lt (by omega),
        BitVec.toInt_eq_toNat_of_lt (by omega)]
      omega
  · have long : ¬(v.mem.size f).toNat < newsize.toNat := short
    refine ⟨v, .bind loaded ?_, .refl, by omega, fun _ => ⟨v.mem.size f, ?_, by omega⟩, .inl rfl⟩
    · rw [if_neg short]
      exact .pure _ _
    · rw [Image.resize, Image.put]
      simp [Image.size]

theorem fileWrite_serves (fetches : ∀ v b i n, good b → i + n ≤ data.length →
      ∃ b', Serves (fetch i n) v b ((data.drop i).take n) v b' ∧ good b')
    (held : good b) (length : data.length = count.toNat) (inv : v.mem.Inv ∅) (file : v.mem.Regular f)
    (positive : offset.toNat < 2 ^ 31) (trim : v.mem.Trim tidy)
    (bound : tidy → offset.toNat + count.toNat ≤ 2 * maxfilesize)
    (entries : safe → v.mem.size f < offset + count → v.mem.KeepsEntries f (offset + count)) :
    ∃ r v' b', Serves (fileWrite fetch f count offset) v b r v' b' ∧ good b' ∧ Changes tidy safe v v' ∧
      (∃ m xs, (m = v.mem ∨ v.mem.CutTo f (offset + count) m) ∧ m.Wrote f offset.toNat xs v'.mem) ∧
      (tidy → ∃ k, v.mem.Stored f offset.toNat data k v'.mem ∧
        (∀ w, r = .ok w → (w = count ∧ data.length = k) ∧
          ∀ i < k, v.mem.need f (Cell.span offset.toNat (i + 1)) ≤ v.mem.freeBlocks) ∧
        ∀ e, r = .error e → v.mem.Halts f offset.toNat data.length k e v'.mem) := by
  have total := BitVec.toNat_add offset count
  have whole : tidy → (offset + count).toNat = offset.toNat + count.toNat := by
    intro holds
    have small := bound holds
    rw [maxfilesize_eq] at small
    omega
  obtain ⟨v₁, sized, changes, enough, grown, cut⟩ :=
    extendTo_does inv file trim (fun holds => whole holds ▸ bound holds) entries
  have file₁ := file.persist (Changes.persists changes inv)
  by_cases wraps : offset.toNat + count.toNat < 2 ^ 32
  · have stop : (offset + count).toNat = offset.toNat + data.length := by omega
    obtain ⟨r, v₂, b₂, looped, held₂, changes₂, k, wrote, all, halts⟩ :=
      writeLoop_serves
      (b := b) fetch good data fetches held (Changes.inv' changes inv) file₁ positive stop fun _ =>
      enough
    rw [length] at looped
    -- What is counted does not depend on the size.
    have same : tidy → v.mem.Stored f offset.toNat data k v₂.mem ∧
      (∀ c, v₁.mem.cell f c = v.mem.cell f c) ∧
        v₁.mem.freeBlocks = v.mem.freeBlocks := by
      intro holds
      obtain ⟨size, resized, sum⟩ := grown holds
      rw [resized] at wrote ⊢
      exact ⟨wrote.stored inv file.slot (by rw [sum, stop]),
        fun c => Image.cell_resize inv file.slot size file.slot c,
        Image.freeBlocks_congr inv.small (Image.sameBitmap_put inv file.slot size 32)⟩
    cases r with
    | error e =>
      refine ⟨_, v₂, b₂, .bind (lift_serves sized b) (.bind looped (.pure _ _)), held₂,
        changes.trans changes₂, ⟨_, _, cut, wrote⟩, fun holds =>
        ⟨k, (same holds).1, nofun, fun e' equal => ?_⟩⟩
      cases equal
      exact (halts e rfl).of_same (same holds).2.1 (same holds).2.2
    | ok done =>
      refine ⟨_, v₂, b₂, .bind (lift_serves sized b) (.bind looped (.pure _ _)), held₂,
        changes.trans changes₂, ⟨_, _, cut, wrote⟩, fun holds =>
        ⟨k, (same holds).1, fun w equal => ?_, nofun⟩⟩
      cases equal
      obtain ⟨-, cells, free⟩ := same holds
      obtain ⟨last, paid⟩ := all rfl
      refine ⟨⟨rfl, last⟩, fun i before => ?_⟩
      rw [← Image.need_congr cells, ← free]
      exact paid.enough before
  · have behind : ¬offset < offset + count := by
      show ¬offset.toNat < (offset + count).toNat
      omega
    refine ⟨_, v₁, b,
      .bind (lift_serves sized b) (.bind (copyLoop_empty behind _ _ _ _) (.pure _ _)), held,
      changes, ⟨_, [], cut, .refl _ f _⟩, fun holds => ?_⟩
    have small := bound holds
    rw [maxfilesize_eq] at small
    omega

end Write

end BufM

end Jos.Fs
