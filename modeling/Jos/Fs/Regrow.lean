import Jos.Fs.ReadAfterWrite

namespace Jos.Fs

open Jos.Shared
open Jos.Kern (Word Byte)
open Volume (Change Changes Acts)

namespace Image

variable {m m' : Image} {f : FilePtr} {new old : Nat} {freed gone : Set Cell}

-- The bytes of `f` from `a` to `b` are zero, as far as they are in the block that the bytes before
-- `a` end in.
def Blank (m : Image) (f : FilePtr) (a b : Nat) : Prop :=
  ∀ i, a ≤ i → i < b → i / 4096 < (a + 4095) / 4096 → m.raw f i = 0

theorem raw_of_hole {i : Nat} (hole : ∀ c, Cell.ofBlock (i / 4096) = some c → m.cell f c = 0) :
    m.raw f i = 0 := by
  unfold raw
  split
  · rfl
  next c place => rw [if_pos (hole c place)]

theorem linked_of_raw {i : Nat} (filled : m.raw f i ≠ 0) : ∃ c, Cell.ofBlock (i / 4096) = some c ∧
    m.cell f c ≠ 0 := by
  by_contra hole
  push Not at hole
  exact filled (raw_of_hole hole)

theorem Truncated.raw (cuts : m.Truncated ∅ f new old freed gone m') (inv : m.Inv ∅) (file : m.Regular f)
    (behind : ∀ n c, Cell.ofBlock n = some c → old ≤ n → m.cell f c = 0) (i : Nat) :
    m'.raw f i = if i / 4096 < new then m.raw f i else 0 := by
  have cut := cuts.cut
  by_cases kept : i / 4096 < new
  · rw [if_pos kept]
    unfold Image.raw
    split
    · rfl
    next c place =>
      have stays : c ∉ gone := by
        intro dropped
        rcases cuts.gone_cases c dropped with here | ⟨few, k, rfl⟩
        · obtain ⟨n, ⟨high, -⟩, place'⟩ := cuts.freed_range c here (Cell.ofBlock_data place)
          have same := Cell.ofBlock_inj place place'
          omega
        · simp only [ndirect] at few
          rcases Cell.ofBlock_cases place with ⟨_, same, -⟩ | ⟨_, -, high⟩
          · cases same
          · omega
      rw [cut.kept f c file.slot fun both => stays both.2]
      split
      · rfl
      next linked =>
        obtain ⟨apart, apart'⟩ :=
          file.slot.data_ne inv (Set.notMem_empty f) file.kind (Cell.ofBlock_data place) linked
          file.slot
        have high := (inv.range f c file.slot (.of_mem (Set.notMem_empty f)) linked).1
        rw [cut.blocks _ (by omega) apart fun _ => apart']
  · rw [if_neg kept]
    refine raw_of_hole fun c place => ?_
    by_cases inside : i / 4096 < old
    · exact cuts.zero _ c place (not_lt.mp kept) inside
    · exact (cut.cell_or file.slot c).elim id fun same => same.trans (behind _ c place (not_lt.mp inside))

end Image

namespace Cache

variable {s t : Cache} {f : FilePtr} {size : Word} {P : Nat → Byte → Prop}

def Shows (s : Cache) (f : FilePtr) (P : Nat → Byte → Prop) : Prop :=
  ∀ count o : Word, o.toNat < 2 ^ 31 → ∃ r out t, Op.readInto f count o s = .ok (r, out) t ∧
    ∀ w, r = .ok w → ∀ i x, out[i]? = some x → P (o.toNat + i) x

section Read

variable (live : s.Live) (well : s.content.WellFormed) (file : s.content.Regular f)
include live well file

theorem shows_of_raw (all : ∀ i < (s.content.size f).toNat, P i (s.content.raw f i)) : s.Shows f P := by
  intro count o positive
  obtain ⟨r, out, t, ran, read⟩ := readInto_ok live well file.slot file.named count positive
  refine ⟨r, out, t, ran, fun w same i x at_ => ?_⟩
  obtain ⟨length, rfl⟩ := read w same
  obtain ⟨inside, rfl⟩ := List.getElem?_eq_some_iff.mp at_
  simp only [Image.bytes, List.length_map, List.length_range] at inside
  simp only [Image.bytes, List.getElem_map, List.getElem_range]
  exact all _ (by omega)

theorem Shows.byte (shows_ : s.Shows f P) {i : Nat} (inside : i < (s.content.size f).toNat)
    (filled : s.content.raw f i ≠ 0) : P i (s.content.raw f i) := by
  have low := (well.trim f file.slot (.inl trivial)).1
  have big := maxfilesize_eq
  have place : (BitVec.ofNat 32 i).toNat = i := by rw [BitVec.toNat_ofNat, Nat.mod_eq_of_lt (by omega)]
  have positive : (BitVec.ofNat 32 i).toNat < 2 ^ 31 := by omega
  obtain ⟨r, out, v', does, growth, content, halts⟩ :=
    readInto_does (v := s.volume) True 1 well.inv file.slot (Set.notMem_empty f) file.named positive
  have length : min (1 : Word).toNat (s.content.readable f (BitVec.ofNat 32 i)) = 1 := by
    have int : (BitVec.ofNat 32 i).toInt = i := by rw [BitVec.toInt_eq_toNat_of_lt (by omega), place]
    have int' : (s.content.size f).toInt = (s.content.size f).toNat :=
      BitVec.toInt_eq_toNat_of_lt (by omega)
    rw [Image.readable, int, int']
    show min 1 _ = 1
    omega
  obtain ⟨t, ran, -⟩ := does s live rfl
  obtain ⟨r', out', t', ran', each⟩ := shows_ 1 (BitVec.ofNat 32 i) (by omega)
  cases ran.symm.trans ran'
  cases r with
  | ok w =>
    obtain ⟨one, rfl⟩ := content w rfl
    rw [show s.volume.mem = s.content from rfl, length] at one
    have shown := each w rfl 0 (s.content.raw f i)
    rw [one, place] at shown
    exact shown rfl
  | error e =>
    obtain ⟨k, halted⟩ := halts e rfl
    have before := halted.before
    rw [show s.volume.mem = s.content from rfl, length] at before
    obtain ⟨c, spot, linked⟩ := Image.linked_of_raw filled
    have spot' : Cell.ofBlock (((BitVec.ofNat 32 i).toNat + k) / 4096) = some c := by
      rw [place, show i + k = i by omega]
      exact spot
    have kept := (Volume.Growth.extends growth well.inv).cell f c file.slot linked
    exact absurd (halted.hole c spot') (kept.trans_ne linked)

end Read

theorem setSize_ok (live : s.Live) (well : s.content.WellFormed) (file : s.content.Regular f)
    (bound : size.toNat ≤ maxfilesize) : ∃ t, FsM.fileSetSize f size s = .ok () t ∧ t.Live ∧
    t.content.WellFormed ∧ t.content.Regular f ∧ t.content.size f = size ∧
      ∀ i, t.content.raw f i = if size.toNat < (s.content.size f).toNat ∧
      (size.toNat + 4095) / 4096 ≤ i / 4096 then 0
        else s.content.raw f i := by
  have big := maxfilesize_eq
  have low := (well.trim f file.slot (.inl trivial)).1
  have order : size.slt (s.content.size f) = true ↔ size.toNat < (s.content.size f).toNat := by
    rw [BitVec.slt, decide_eq_true_eq, BitVec.toInt_eq_toNat_of_lt (by omega),
      BitVec.toInt_eq_toNat_of_lt (by omega)]
    omega
  have unsafe_ : False → s.volume.mem.KeepsEntries f size := False.elim
  obtain ⟨v', does, change, length, grown, -⟩ :=
    FsM.fileSetSize_does
    (v := s.volume) well.inv file well.trim (show True →
    size.toNat ≤ 2 * maxfilesize from fun _ => by omega) unsafe_
  obtain ⟨t, ran, live', rfl⟩ := does s live rfl
  have acts : Acts True False s.volume t.volume := Changes.acts (.single change)
  have well' : t.content.WellFormed :=
    ⟨Acts.inv' acts well.inv, Acts.exact acts well.inv (fun _ => well.exact_) trivial,
      Acts.trim acts well.inv well.trim⟩
  refine ⟨t, ran, live', well', file.persist (change.persists well.inv), length, fun i => ?_⟩
  cases shorter : size.slt (s.content.size f) with
  | false =>
    have content : t.content = s.content.resize f size := grown shorter
    have longer : ¬size.toNat < (s.content.size f).toNat := fun less => by
      simp [order.mpr less] at shorter
    rw [if_neg fun both => longer both.1, content]
    exact congrFun
      (Image.raw_resize well.inv file.slot size file.slot
      (file.slot.outside_self well.inv (Set.notMem_empty f))) i
  | true =>
    obtain ⟨freed, gone, m, cuts, does'⟩ := FsM.fileSetSize_shrink (v := s.volume) well.inv file shorter
    obtain ⟨t', ran', -, looks⟩ := does' s live rfl
    cases ran.symm.trans ran'
    have content : t.content = m.resize f size := congrArg Volume.mem looks
    have slot := (cuts.cut.slot f).mpr file.slot
    have outside := slot.outside_self cuts.cut.inv (Set.notMem_empty f)
    rw [content, congrFun (Image.raw_resize cuts.cut.inv slot size slot outside) i,
      cuts.raw well.inv file (fun n c place behind => ?_) i, FsM.sizeBlocks_eq (by omega),
      Image.blocksOf]
    · by_cases kept : i / 4096 < (size.toNat + 4095) / 4096
      · rw [if_pos kept, if_neg fun both => by omega]
        rfl
      · rw [if_neg kept, if_pos ⟨order.mp shorter, not_lt.mp kept⟩]
    · rw [show s.volume.mem = s.content from rfl, FsM.sizeBlocks_eq low] at behind
      exact (well.trim f file.slot (.inl trivial)).2 n c place behind

theorem truncated_zero_iff (live : s.Live) (well : s.content.WellFormed)
    (file : s.content.Regular f) {s1 : Word} (shorter : s1.toNat < (s.content.size f).toNat)
    (fits : s1.toNat ≤ maxfilesize) : ∃ t, FsM.fileSetSize f s1 s = .ok () t ∧
      (∀ s2 : Word, s1.toNat < s2.toNat → s2.toNat ≤ maxfilesize →
      ∃ u, FsM.fileSetSize f s2 t = .ok () u ∧
        (u.Shows f (fun i x => s1.toNat ≤ i → i < s2.toNat → x = 0) ↔
        s.content.Blank f s1.toNat s2.toNat)) ∧
      ∀ (offset : Word) (buf : List Byte), s1.toNat ≤ offset.toNat →
      offset.toNat + buf.length ≤ maxfilesize →
        ∃ r u, Op.writeFrom f buf offset t = .ok (r, ()) u ∧
        (u.Shows f (fun i x => s1.toNat ≤ i → i < offset.toNat + buf.length →
          if i < offset.toNat then x = 0 else x = buf.getD (i - offset.toNat) 0 ∨
          (∃ e, r = .error e) ∧ x = 0) ↔ s.content.Blank f s1.toNat offset.toNat) := by
  obtain ⟨t, cut, live₁, well₁, file₁, size₁, raw₁⟩ := setSize_ok live well file fits
  have short : (t.content.size f).toNat = s1.toNat := by rw [size₁]
  have rest : ∀ i, t.content.raw f i = if (s1.toNat + 4095) / 4096 ≤ i / 4096 then 0
    else s.content.raw f i := by
    intro i
    rw [raw₁ i]
    simp only [shorter, true_and]
  refine ⟨t, cut, fun s2 longer bound => ?_, fun offset buf behind bound => ?_⟩
  · obtain ⟨u, grown, live₂, well₂, file₂, size₂, raw₂⟩ := setSize_ok live₁ well₁ file₁ bound
    have same : ∀ i, u.content.raw f i = t.content.raw f i :=
      fun i => (raw₂ i).trans (if_neg fun both => by omega)
    refine ⟨u, grown, fun shows_ i low high block => ?_,
      fun blank => shows_of_raw live₂ well₂ file₂ fun i _ low high => ?_⟩
    · by_contra filled
      have here : u.content.raw f i = s.content.raw f i := by rw [same, rest, if_neg (by omega)]
      exact filled (here ▸ shows_.byte live₂ well₂ file₂ (by rw [size₂]; exact high) (here ▸ filled)
        low high)
    · rw [same, rest]
      split
      · rfl
      next block => exact blank i low high (by omega)
  · obtain ⟨r, u, k, wrote, live₂, well₂, stored, done, halts⟩ := writeFrom_stores live₁ well₁ file₁ bound
    have file₂ := file₁.persist stored.persists
    have size₂ : (u.content.size f).toNat = max s1.toNat (offset.toNat + buf.length) :=
      short ▸ stored.size
    have before : ∀ i < offset.toNat, u.content.raw f i = t.content.raw f i := fun i low => by
      rw [stored.raw, overwrite_outside (.inl low)]
    refine ⟨r, u, wrote, fun shows_ i low high block => ?_,
      fun blank => shows_of_raw live₂ well₂ file₂ fun i _ low high => ?_⟩
    · by_contra filled
      have here : u.content.raw f i = s.content.raw f i := by rw [before i high, rest, if_neg (by omega)]
      have zero := shows_.byte live₂ well₂ file₂ (by omega) (here ▸ filled) low (by omega)
      rw [if_pos high] at zero
      exact filled (here ▸ zero)
    · split
      next low' =>
        rw [before i low', rest]
        split
        · rfl
        next block => exact blank i low low' (by omega)
      next high' =>
        have length : (buf.take k).length = min k buf.length := List.length_take
        by_cases written : i < offset.toNat + k
        · refine .inl ?_
          rw [stored.raw, overwrite, if_pos (by omega), List.getD_eq_getElem _ _ (by omega),
            List.getD_eq_getElem _ _ (by omega), List.getElem_take]
        · -- The write has failed at a block that is not there.
          refine .inr ?_
          cases r with
          | ok w =>
            obtain ⟨⟨-, all⟩, -⟩ := done w rfl
            omega
          | error e =>
            refine ⟨⟨e, rfl⟩, ?_⟩
            by_cases block : (s1.toNat + 4095) / 4096 ≤ i / 4096
            · rw [stored.raw, overwrite_outside (by omega), rest, if_pos block]
            · have same : (offset.toNat + k) / 4096 = i / 4096 := by omega
              exact Image.raw_of_hole fun c place => (halts e rfl).hole c (same ▸ place)

def twoBytes : Cache := (twoFiles 32).perform (.fileWrite (.entry 3 0) [7, 8] 0)

theorem twoBytes_good : twoBytes.Live ∧ twoBytes.content.WellFormed ∧
    twoBytes.content.Regular (.entry 3 0) := by
  have file : (twoFiles 32).content.Regular (.entry 3 0) := Shallow.regular (by decide +kernel)
  obtain ⟨live, well⟩ := perform_wellFormed (twoFiles_wellFormed (by decide) (by decide))
    (show (twoFiles 32).InRange (.fileWrite (.entry 3 0) [7, 8] 0) from ⟨file, by decide⟩)
  exact ⟨live, well, Shallow.regular (by decide +kernel)⟩

theorem emptied_zero : ∃ t u, FsM.fileSetSize (.entry 3 0) 0 twoBytes = .ok () t ∧
    FsM.fileSetSize (.entry 3 0) 2 t = .ok () u ∧ u.Shows (.entry 3 0) fun i x => 0 ≤ i → i < 2 →
    x = 0 := by
  obtain ⟨live, well, file⟩ := twoBytes_good
  have size : (twoBytes.content.size (.entry 3 0)).toNat = 2 := by decide +kernel
  obtain ⟨t, cut, grows, -⟩ :=
    truncated_zero_iff live well file (show (0 : Word).toNat < _ by rw [size]; decide) (by decide)
  obtain ⟨u, grown, zero⟩ := grows 2 (by decide) (by decide)
  exact ⟨t, u, cut, grown, zero.mpr fun i low high block => absurd block (Nat.not_lt_zero _)⟩

-- A byte that was cut off is back when the file gets longer.
theorem truncated_byte_back : ∃ s f s1 s2 t u t', s.Live ∧ s.content.WellFormed ∧ s.content.Regular f ∧
    BitVec.toNat s1 < (s.content.size f).toNat ∧ BitVec.toNat s1 < BitVec.toNat s2 ∧
    BitVec.toNat s2 ≤ maxfilesize ∧ FsM.fileSetSize f s1 s = .ok () t ∧
    FsM.fileSetSize f s2 t = .ok () u ∧ Op.readInto f 1 s1 u = .ok (.ok 1, [8]) t' := by
  obtain ⟨live, well, file⟩ := twoBytes_good
  have back :
    check (FsM.fileSetSize (.entry 3 0) 1) twoBytes
    (fun _ t => check (FsM.fileSetSize (.entry 3 0) 2) t fun _ u =>
      check (Op.readInto (.entry 3 0) 1 1) u fun a _ => a = (.ok 1, [8])) = true := by decide +kernel
  obtain ⟨_, t, cut, next⟩ := exists_of_check back
  obtain ⟨_, u, grown, last⟩ := exists_of_check next
  obtain ⟨_, t', read, result⟩ := exists_of_check last
  obtain rfl := of_decide_eq_true result
  exact ⟨twoBytes, .entry 3 0, 1, 2, t, u, t', live, well,
    file, by decide +kernel, by decide, by decide, cut, grown, read⟩

end Cache

end Jos.Fs
