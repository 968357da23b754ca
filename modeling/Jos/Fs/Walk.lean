import Jos.Fs.Grow

namespace Jos.Fs

open Jos.Shared
open Jos.Kern (Word Byte)
open Function

namespace Image

variable {m : Image} {stale : Set FilePtr} {tidy : Prop} {f : FilePtr} {c : Cell} {p : Nat}

def Full (m : Image) : Prop := ∀ b, 3 ≤ b → b < m.nblocks → m.free b = false

theorem Small.take (small : m.Small) (inside : p < m.nblocks) : (m.take p).Small := by
  have high := small.high
  refine ⟨by rw [nblocks_take]; exact small.low, by rw [nblocks_take]; exact high, fun q low => ?_⟩
  rw [free_take (by omega) (by omega), small.reserved q low, Bool.false_and]

theorem Valid.take {b : Nat} (small : m.Small) (inside : p < m.nblocks) (valid : m.Valid b) :
    (m.take p).Valid b := by
  have high := small.high
  have inside' := valid.exists_
  refine ⟨by rwa [nblocks_take], ?_⟩
  rw [free_take (by omega) (by omega), valid.used, Bool.false_and]

theorem loc_valid (inv : m.Inv stale) (slot : m.Slot f) (present : ∀ k, c = .entry k → m.indirect f ≠ 0) :
    m.Valid (m.loc f c).1 ∧ (m.loc f c).1 ≠ 2 ∧ ((m.loc f c).1 = 1 → (m.loc f c).2 ≠ 1) := by
  have super : f.block = 1 → f.base = 2 := by
    intro one
    rcases slot.block_cases inv with rfl | high
    · rfl
    · omega
  have structure_ : ∀ y, 34 ≤ y → m.Valid f.block ∧ f.block ≠ 2 ∧
    (f.block = 1 → f.base + y ≠ 1) := fun y low =>
    ⟨slot.valid inv, (inv.away_bitmap f slot).1, fun one => by rw [super one]; omega⟩
  cases c with
  | direct i =>
    rw [loc, FilePtr.fDirect, Nat.add_assoc]
    exact structure_ (34 + i) (by omega)
  | indirect => exact structure_ 44 (by decide)
  | entry k =>
    obtain ⟨high, valid⟩ := inv.range f .indirect slot .indirect (present k rfl)
    simp only [Image.cell] at high valid
    refine ⟨valid, ?_, ?_⟩ <;> simp only [loc] <;> omega

end Image

namespace Volume

def attach (v : Volume) (f : FilePtr) (c : Cell) (p : Nat) : Volume :=
  (((v.edit fun m => m.take p).flush 2).edit fun _ => v.mem.attach f c p).flush p

end Volume

namespace FsM

variable {v : Volume} {stale : Set FilePtr} {tidy : Prop} {f : FilePtr} {c : Cell} {n : Nat}

theorem allocBlock_does (small : v.mem.Small) :
    v.mem.Full ∧ Does allocBlock v none v ∨
    ∃ p, (3 ≤ p ∧ p < v.mem.nblocks ∧ v.mem.free p = true) ∧
      Does allocBlock v (some p) ((v.edit fun m => m.take p).flush 2) := by
  have count : 2 + (v.mem.nblocks - 2) = v.mem.nblocks := by
    have low := small.low
    omega
  have loop := search_does allocAt (fun k v' => v = v' ∧ ∀ b, 2 ≤ b → b < k → v.mem.free b = false)
    (fun k p v' => p = k ∧ v.mem.free k = true ∧ v' = (v.edit fun m => m.take k).flush 2)
    (v.mem.nblocks - 2) 2 ⟨rfl, fun b low high => by omega⟩ (by
      rintro k _ low high ⟨rfl, before⟩
      rcases allocAt_does small (show k < v.mem.nblocks by omega) with ⟨used, does⟩ | ⟨free, does⟩
      · refine .inl ⟨v, does, rfl, fun b low' high' => ?_⟩
        rcases Nat.lt_succ_iff_lt_or_eq.mp high' with earlier | rfl
        · exact before b low' earlier
        · exact used
      · exact .inr ⟨k, _, does, rfl, free, rfl⟩)
  rcases loop with ⟨_, does, rfl, used⟩ | ⟨k, r, _, ⟨low, high⟩, does, rfl, free, rfl⟩
  · exact .inl ⟨fun b high inside => used b (by omega) (by omega), .bind (sNblocks_does small) does⟩
  · refine .inr ⟨r, ⟨?_, by omega, free⟩, .bind (sNblocks_does small) does⟩
    -- The bitmap is in use itself.
    by_contra low'
    rw [small.reserved r (by omega)] at free
    cases free

def granted (v : Volume) (b k p : Nat) : Volume :=
  (((v.edit fun m => m.take p).flush 2).edit fun m => update (m.put b k (BitVec.ofNat 32 p)) p
    fun _ => 0).flush p

theorem sameBitmap_granted {b k p : Nat} (bitmap : b ≠ 2) (super : b = 1 → k ≠ 1) (high : 3 ≤ p) :
    (v.mem.take p).SameBitmap (granted v b k p).mem := by
  have put : (v.mem.take p).SameBitmap ((v.mem.take p).put b k (BitVec.ofNat 32 p)) := .put _ bitmap super
  refine ⟨?_, fun q small' => ?_⟩
  · rw [← put.nblocks]
    simp only [granted, Volume.edit, Volume.flush, Image.nblocks, update_of_ne (show 1 ≠ p by omega)]
  · rw [← put.free q small', Image.free_of_small small', Image.free_of_small small']
    simp only [granted, Volume.edit, Volume.flush, update_of_ne (show 2 ≠ p by omega)]

theorem allocFor_runs {b k : Nat} (small : v.mem.Small) (valid : v.mem.Valid b) (bitmap : b ≠ 2)
    (super : b = 1 → k ≠ 1) : v.mem.Full ∧ Does (allocFor b k) v (.error .noDisk) v ∨
    ∃ p, (3 ≤ p ∧ p < v.mem.nblocks ∧ v.mem.free p = true) ∧
    Does (allocFor b k) v (.ok ()) (granted v b k p) := by
  rcases allocBlock_does small with ⟨full, does⟩ | ⟨p, ⟨high, inside, free⟩, does⟩
  · exact .inl ⟨full, .bind does (.pure _ _)⟩
  refine .inr ⟨p, ⟨high, inside, free⟩, .bind does ?_⟩
  have top := small.high
  have small' := small.take inside
  have same : (v.mem.take p).SameBitmap ((v.mem.take p).put b k (BitVec.ofNat 32 p)) :=
    .put _ bitmap super
  have target : ((v.mem.take p).put b k (BitVec.ofNat 32 p)).Valid p := by
    refine same.valid small' ⟨by rwa [Image.nblocks_take], ?_⟩
    rw [Image.free_take (by omega) (by omega)]
    simp
  refine .bind
    (store_does (v := (v.edit fun m => m.take p).flush 2) small' (valid.take small inside) k _) ?_
  have around :
    Does (diskaddr p) (((v.edit fun m => m.take p).flush 2).edit fun m =>
    m.put b k (BitVec.ofNat 32 p)) () _ :=
    diskaddr_does (same.small small') (by omega) target.exists_
  refine .bind around (.bind (change_does (same.small small') target _) ?_)
  have done := sameBitmap_granted (v := v) bitmap super high
  have final : (granted v b k p).mem.Small := done.small small'
  have inside' : p < (granted v b k p).mem.nblocks := by rwa [done.nblocks, Image.nblocks_take]
  exact .bind (diskaddr_does final (by omega) inside') (.bind (flushBlock_does final inside') (.pure _ _))

section Pointer

variable (inv : v.mem.Inv stale) (slot : v.mem.Slot f)
include inv slot

theorem allocFor_does (named : v.mem.Named f) (present : ∀ k, c = .entry k → v.mem.indirect f ≠ 0)
    (vacant : v.mem.cell f c = 0) (room : v.mem.Neat tidy f → ∀ n, Cell.ofBlock n = some c →
    n < Image.blocksOf (v.mem.size f)) : v.mem.Full ∧
    Does (allocFor (v.mem.loc f c).1 (v.mem.loc f c).2) v (.error .noDisk) v ∨
    ∃ p, v.mem.Attaches stale tidy f c p ∧
      Does (allocFor (v.mem.loc f c).1 (v.mem.loc f c).2) v (.ok ()) (v.attach f c p) := by
  obtain ⟨valid, bitmap, super⟩ := Image.loc_valid inv slot present
  rcases allocFor_runs inv.small valid bitmap super with ⟨full, does⟩ | ⟨p, ⟨high, inside, free⟩, does⟩
  · exact .inl ⟨full, does⟩
  have can : v.mem.Attaches stale tidy f c p := ⟨slot, named, present, vacant, high, inside, free, room⟩
  refine .inr ⟨p, can, ?_⟩
  obtain ⟨b, k, place⟩ : ∃ b k, v.mem.loc f c = (b, k) := ⟨_, _, rfl⟩
  simp only [place] at valid does ⊢
  have other : b ≠ p := by
    rintro rfl
    have used := valid.used
    rw [free] at used
    cases used
  have final : update ((v.mem.take p).put b k (BitVec.ofNat 32 p)) p (fun _ => 0) =
    v.mem.attach f c p := by
    have place' : (v.mem.reserve p).loc f c = (b, k) := by
      rw [← place]
      cases c with
      | direct i => rfl
      | indirect => rfl
      | entry k => simp only [Image.loc, (can.sameMeta inv).indirect slot]
    rw [Image.attach, Image.setCell, place', Image.reserve, Image.clear, Image.put, Image.put,
      update_comm other, update_of_ne other]
  simp only [granted, Volume.edit, Volume.flush, final] at does
  exact does

theorem indirectSlot_does (linked : v.mem.indirect f ≠ 0) (low : ¬n < ndirect)
    (place : Cell.ofBlock n = some c) : Does (indirectSlot f n) v (.ok (v.mem.loc f c)) v := by
  obtain ⟨-, valid⟩ := inv.range f .indirect slot .indirect linked
  have spot : v.mem.loc f c = (v.mem.indirect f, n - ndirect) := by
    simp only [ndirect] at low ⊢
    rw [Cell.ofBlock, dif_neg low] at place
    split at place <;> cases place
    rfl
  rw [spot]
  exact .bind (load_does inv.small (slot.valid inv) _)
    (.bind (diskaddr_does inv.small linked valid.exists_) (.pure _ _))

end Pointer

inductive Walks (v : Volume) (stale : Set FilePtr) (tidy : Prop) (f : FilePtr) (n : Nat) (alloc : Bool) :
    Except Errno (Nat × Nat) → Volume → Prop
  | outside (none : Cell.ofBlock n = none) : Walks v stale tidy f n alloc (.error .inval) v
  | found {c : Cell} (place : Cell.ofBlock n = some c)
    (present : ∀ k, c = .entry k → v.mem.indirect f ≠ 0) :
      Walks v stale tidy f n alloc (.ok (v.mem.loc f c)) v
  | missing {k : Fin 1024} (place : Cell.ofBlock n = some (.entry k)) (hole : v.mem.indirect f = 0)
      (only : alloc = false) : Walks v stale tidy f n alloc (.error .notFound) v
  | full {k : Fin 1024} (place : Cell.ofBlock n = some (.entry k)) (hole : v.mem.indirect f = 0)
    (full : v.mem.Full)
      (asked : alloc = true) : Walks v stale tidy f n alloc (.error .noDisk) v
  | attached {k : Fin 1024} {q : Nat} (place : Cell.ofBlock n = some (.entry k))
      (can : v.mem.Attaches stale tidy f .indirect q) (asked : alloc = true) :
      Walks v stale tidy f n alloc (.ok ((v.attach f .indirect q).mem.loc f (.entry k)))
      (v.attach f .indirect q)

inductive Gets (v : Volume) (stale : Set FilePtr) (tidy : Prop) (f : FilePtr) (n : Nat) :
    Except Errno Nat → Volume → Prop
  | outside (none : Cell.ofBlock n = none) : Gets v stale tidy f n (.error .inval) v
  | present {c : Cell} (place : Cell.ofBlock n = some c) (linked : v.mem.cell f c ≠ 0) :
      Gets v stale tidy f n (.ok (v.mem.cell f c)) v
  | full {c : Cell} (place : Cell.ofBlock n = some c) (hole : v.mem.cell f c = 0) (full : v.mem.Full) :
      Gets v stale tidy f n (.error .noDisk) v
  | attached {c : Cell} {p : Nat} (place : Cell.ofBlock n = some c)
    (can : v.mem.Attaches stale tidy f c p) :
      Gets v stale tidy f n (.ok p) (v.attach f c p)
  | half {k : Fin 1024} {q : Nat} (place : Cell.ofBlock n = some (.entry k))
      (can : v.mem.Attaches stale tidy f .indirect q) (full : (v.attach f .indirect q).mem.Full) :
      Gets v stale tidy f n (.error .noDisk) (v.attach f .indirect q)
  | both {k : Fin 1024} {q p : Nat} (place : Cell.ofBlock n = some (.entry k))
      (can : v.mem.Attaches stale tidy f .indirect q)
      (can' : (v.attach f .indirect q).mem.Attaches stale tidy f (.entry k) p) :
      Gets v stale tidy f n (.ok p) ((v.attach f .indirect q).attach f (.entry k) p)

section Blocks

variable (inv : v.mem.Inv stale) (slot : v.mem.Slot f)
include inv slot

theorem fileBlockWalk_does (tidy : Prop) (n : Nat) (alloc : Bool) (named : alloc = true → v.mem.Named f) :
    ∃ r v', Does (fileBlockWalk f n alloc) v r v' ∧ Walks v stale tidy f n alloc r v' := by
  rw [fileBlockWalk]
  by_cases outside : ndirect + nindirect ≤ n
  · rw [if_pos outside]
    refine ⟨_, _, .pure _ _, .outside ?_⟩
    simp only [ndirect, nindirect] at outside
    rw [Cell.ofBlock, dif_neg (by omega), dif_neg (by omega)]
  rw [if_neg outside]
  by_cases low : n < ndirect
  · rw [if_pos low]
    exact ⟨_, _, .pure _ _, .found (c := .direct ⟨n, low⟩) (dif_pos low) (by simp)⟩
  simp only [ndirect, nindirect] at outside
  have place : Cell.ofBlock n = some (.entry ⟨n - 10, by omega⟩) := by
    simp only [ndirect] at low
    rw [Cell.ofBlock, dif_neg low, dif_pos]
  have loaded := load_does inv.small (slot.valid inv) f.fIndirect
  have zero : v.mem f.block f.fIndirect = 0 ↔ v.mem.indirect f = 0 := by
    rw [Image.indirect, BitVec.toNat_eq]
    rfl
  rw [if_neg low]
  by_cases hole : v.mem.indirect f = 0
  · cases alloc with
    | false =>
      refine ⟨_, _, .bind loaded ?_, .missing place hole rfl⟩
      rw [if_pos (zero.mpr hole)]
      exact .pure _ _
    | true =>
      have vacant : v.mem.cell f .indirect = 0 := hole
      rcases allocFor_does inv slot (named rfl) (c := .indirect) (by simp) vacant
        (fun _ n place => absurd rfl (Cell.ofBlock_data place)) with ⟨full, does⟩ | ⟨q, can, does⟩
      · refine ⟨_, _, .bind loaded ?_, .full place hole full rfl⟩
        rw [if_pos (zero.mpr hole), if_pos rfl]
        exact .bind does (.pure _ _)
      · refine ⟨_, _, .bind loaded ?_, .attached place can rfl⟩
        rw [if_pos (zero.mpr hole), if_pos rfl]
        have slot' := (Image.slot_attach inv can f).mpr (.inl slot)
        have linked : (v.mem.attach f .indirect q).indirect f ≠ 0 := by
          have target := (Image.cell_attach inv can slot .indirect).trans (if_pos ⟨rfl, rfl⟩)
          have high := can.high
          rw [Image.cell] at target
          omega
        exact .bind does (indirectSlot_does (v := v.attach f .indirect q) (Image.attach_inv inv can)
          slot' linked low place)
  · refine ⟨_, _, .bind loaded ?_, .found place fun _ _ => hole⟩
    rw [if_neg (fun none => hole (zero.mp none))]
    exact indirectSlot_does inv slot hole low place

theorem load_cell (present : ∀ k, c = .entry k → v.mem.indirect f ≠ 0) :
    ∃ w, Does (load (v.mem.loc f c).1 (v.mem.loc f c).2) v w v ∧ w.toNat = v.mem.cell f c := by
  refine ⟨_, load_does inv.small (Image.loc_valid inv slot present).1 _, ?_⟩
  cases c with
  | direct i => rfl
  | indirect => rfl
  | entry k => exact (if_neg (present k rfl)).symm

theorem follow_does (current : f ∉ stale) (present : ∀ k, c = .entry k → v.mem.indirect f ≠ 0)
    (linked : v.mem.cell f c ≠ 0) :
    Does (follow (v.mem.loc f c).1 (v.mem.loc f c).2) v (.ok (v.mem.cell f c)) v := by
  obtain ⟨w, loaded, target⟩ := load_cell inv slot present
  obtain ⟨-, valid⟩ := inv.range f c slot (.of_mem current) linked
  rw [← target] at linked valid ⊢
  exact .bind loaded (.bind (diskaddr_does inv.small linked valid.exists_) (.pure _ _))

theorem getAt_does (current : f ∉ stale) (named : v.mem.Named f) (place : Cell.ofBlock n = some c)
    (present : ∀ k, c = .entry k → v.mem.indirect f ≠ 0)
    (room : v.mem.Neat tidy f → n < Image.blocksOf (v.mem.size f)) :
    (v.mem.cell f c ≠ 0 ∧
    Does (getAt (v.mem.loc f c).1 (v.mem.loc f c).2) v (.ok (v.mem.cell f c)) v) ∨
    (v.mem.cell f c = 0 ∧ v.mem.Full ∧
    Does (getAt (v.mem.loc f c).1 (v.mem.loc f c).2) v (.error .noDisk) v) ∨
    ∃ p, v.mem.Attaches stale tidy f c p ∧
      Does (getAt (v.mem.loc f c).1 (v.mem.loc f c).2) v (.ok p) (v.attach f c p) := by
  obtain ⟨w, loaded, target⟩ := load_cell inv slot present
  have zero : w = 0 ↔ v.mem.cell f c = 0 := by
    rw [← target, BitVec.toNat_eq]
    rfl
  by_cases linked : v.mem.cell f c = 0
  · have size : v.mem.Neat tidy f → ∀ n', Cell.ofBlock n' = some c →
      n' < Image.blocksOf (v.mem.size f) := fun neat n' place' =>
      Cell.ofBlock_inj place' place ▸ room neat
    refine .inr ?_
    rcases allocFor_does inv slot named present linked size with ⟨full, does⟩ | ⟨p, can, does⟩
    · refine .inl ⟨linked, full, .bind loaded ?_⟩
      rw [if_pos (zero.mpr linked)]
      exact .bind does (.pure _ _)
    · refine .inr ⟨p, can, .bind loaded ?_⟩
      rw [if_pos (zero.mpr linked)]
      refine .bind does ?_
      have ext := Image.attach_extends inv can
      have inv' : (v.attach f c p).mem.Inv stale := Image.attach_inv inv can
      have target' : (v.attach f c p).mem.cell f c = p :=
        (Image.cell_attach inv can slot c).trans (if_pos ⟨rfl, rfl⟩)
      have kept : ∀ k, c = .entry k → (v.mem.attach f c p).indirect f = v.mem.indirect f := by
        rintro k rfl
        exact (Image.cell_attach inv can slot .indirect).trans (if_neg (by simp))
      have same : (v.attach f c p).mem.loc f c = v.mem.loc f c := by
        cases c with
        | direct i => rfl
        | indirect => rfl
        | entry k => exact congrArg (·, k.val) (kept k rfl)
      have high := can.high
      have done :=
        follow_does
        (c := c) inv' (ext.slot f slot) current
        (fun k entry => (kept k entry).trans_ne (present k entry)) (by rw [target']; omega)
      rw [target', same] at done
      exact done
  · refine .inl ⟨linked, .bind loaded ?_⟩
    rw [if_neg (fun none => linked (zero.mp none))]
    exact follow_does inv slot current present linked

theorem fileGetBlock_does (current : f ∉ stale) (named : v.mem.Named f)
    (room : v.mem.Neat tidy f → n < Image.blocksOf (v.mem.size f)) :
    ∃ r v', Does (fileGetBlock f n) v r v' ∧ Gets v stale tidy f n r v' := by
  obtain ⟨r, v', walked, outcome⟩ := fileBlockWalk_does inv slot tidy n true fun _ => named
  cases outcome with
  | outside none => exact ⟨_, _, .bind walked (.pure _ _), .outside none⟩
  | found place present =>
    rcases getAt_does inv slot current named place present room with
      ⟨linked, does⟩ | ⟨hole, full, does⟩ | ⟨p, can, does⟩
    · exact ⟨_, _, .bind walked does, .present place linked⟩
    · exact ⟨_, _, .bind walked does, .full place hole full⟩
    · exact ⟨_, _, .bind walked does, .attached place can⟩
  | missing _ _ only => cases only
  | full place hole full => exact ⟨_, _, .bind walked (.pure _ _), .full place (if_pos hole) full⟩
  | @attached k q place can =>
    have ext := Image.attach_extends inv can
    have linked : (v.mem.attach f .indirect q).indirect f ≠ 0 := by
      have target := (Image.cell_attach inv can slot .indirect).trans (if_pos ⟨rfl, rfl⟩)
      have high := can.high
      rw [Image.cell] at target
      omega
    -- The new indirect block is empty.
    have hole : (v.mem.attach f .indirect q).cell f (.entry k) = 0 := by
      rw [Image.cell_attach inv can slot, if_neg (by simp)]
      exact if_pos can.vacant
    rcases getAt_does (v := v.attach f .indirect q) (Image.attach_inv inv can) (ext.slot f slot) current
      ((ext.named slot).mpr named) place (fun _ _ => linked)
        (fun neat => (ext.size slot).symm ▸ room ((ext.neat slot).mp neat))
      with ⟨filled, -⟩ | ⟨-, full, does⟩ | ⟨p, can', does⟩
    · exact absurd hole filled
    · exact ⟨_, _, .bind walked does, .half place can full⟩
    · exact ⟨_, _, .bind walked does, .both place can can'⟩

end Blocks

end FsM

end Jos.Fs
