import Jos.Fs.ReadAfterWrite

namespace Jos.Fs

open Jos.Shared
open Jos.Kern (Word Byte)
open Function

namespace Image

def at_ (d : Image) (place : Nat × Nat) : Nat := (d place.1 place.2).toNat

theorem at_loc {m : Image} {f : FilePtr} {c : Cell} (present : ∀ k, c = .entry k → m.indirect f ≠ 0) :
    m.at_ (m.loc f c) = m.cell f c := by
  cases c with
  | direct i => rfl
  | indirect => rfl
  | entry k => exact (if_neg (present k rfl)).symm

def Kept (m : Image) (safe : Prop) (f : FilePtr) (c : Cell) : Prop :=
  ∀ k, c = .entry k → (safe ∨ m.type f = ftypeDir) ∧ m.indirect f ≠ 0

/-- The disk `d` lags behind `m`: pointers may be missing, but none is wrong. -/
structure Synced (m : Image) (safe : Prop) (d : Image) : Prop where
  type : ∀ f, m.Slot f → d.type f = m.type f
  pointer : ∀ f c, m.Slot f → m.Kept safe f c → d.at_ (m.loc f c) = 0 ∨ d.at_ (m.loc f c) = m.cell f c
  used : ∀ f c, m.Slot f → m.cell f c ≠ 0 → d.free (m.cell f c) = false

structure Consistent (d : Image) : Prop where
  unique : ∀ f c g c', d.Slot f → d.Slot g → d.cell f c ≠ 0 → d.cell f c = d.cell g c' → f = g ∧ c = c'
  used : ∀ f c, d.Slot f → d.cell f c ≠ 0 → d.free (d.cell f c) = false

section Synced

variable {m m' d d' : Image} {safe tidy : Prop} {f g : FilePtr} {c : Cell} {b p : Nat}

theorem Synced.refl (inv : m.Inv ∅) (safe : Prop) : m.Synced safe m where
  type _ _ := rfl
  pointer _ _ _ kept := .inr (at_loc fun k entry => (kept k entry).2)
  used f c slot linked := (inv.range f c slot (.of_mem (Set.notMem_empty f)) linked).2.used

theorem Synced.cell (synced : m.Synced safe d) (slot : m.Slot f)
    (covered : safe ∨ m.type f = ftypeDir ∨ c.word ≠ none) : d.cell f c = 0 ∨
    d.cell f c = m.cell f c := by
  cases c with
  | direct i => exact synced.pointer f (.direct i) slot nofun
  | indirect => exact synced.pointer f .indirect slot nofun
  | entry k =>
    have covered : safe ∨ m.type f = ftypeDir := by simpa [Cell.word] using covered
    rcases synced.pointer f .indirect slot nofun with none_ | same
    · exact .inl (if_pos none_)
    replace same : d.indirect f = m.indirect f := same
    by_cases present : m.indirect f = 0
    · exact .inl (if_pos (same.trans present))
    have here : d.cell f (.entry k) = d.at_ (m.loc f (.entry k)) := by
      simp only [Image.cell, same, if_neg present, at_, loc]
    rw [here]
    exact synced.pointer f (.entry k) slot fun _ _ => ⟨covered, present⟩

theorem Synced.slot (synced : m.Synced safe d) (slot : d.Slot f) : m.Slot f := by
  induction slot with
  | root => exact .root
  | entry _ kind data present place ih =>
    have kind := (synced.type _ ih).symm.trans kind
    have same := (synced.cell ih (.inr (.inl kind))).resolve_left present
    rw [same] at present ⊢
    exact .entry ih kind data present place

theorem Synced.consistent (inv : m.Inv ∅) (synced : m.Synced safe d) (holds : safe) : d.Consistent := by
  have cell : ∀ {f c}, d.Slot f → d.cell f c ≠ 0 → d.cell f c = m.cell f c := fun slot linked =>
    (synced.cell (synced.slot slot) (.inl holds)).resolve_left linked
  refine ⟨fun f c g c' slot slot' linked same => ?_, fun f c slot linked => ?_⟩
  · have linked' : d.cell g c' ≠ 0 := same ▸ linked
    rw [cell slot linked, cell slot' linked'] at same
    rw [cell slot linked] at linked
    exact inv.unique f c g c' (synced.slot slot) (synced.slot slot') (.of_mem (Set.notMem_empty f))
      (.of_mem (Set.notMem_empty g)) linked same
  · have same := cell slot linked
    rw [same] at linked ⊢
    exact synced.used f c (synced.slot slot) linked

theorem Synced.congr (synced : m.Synced safe d) (slots : ∀ f, m'.Slot f ↔ m.Slot f)
    (types : ∀ f, m.Slot f → m'.type f = m.type f) (cells : ∀ f c, m.Slot f → m'.cell f c = m.cell f c) :
    m'.Synced safe d := by
  have place : ∀ f c, m.Slot f → m'.loc f c = m.loc f c := by
    intro f c slot
    cases c with
    | direct i => rfl
    | indirect => rfl
    | entry k => exact congrArg (·, k.val) (cells f .indirect slot)
  refine ⟨fun f slot => ?_, fun f c slot kept => ?_, fun f c slot linked => ?_⟩ <;> rw [slots] at slot
  · rw [types f slot]
    exact synced.type f slot
  · rw [place f c slot, cells f c slot]
    refine synced.pointer f c slot fun k entry => ?_
    obtain ⟨covered, present⟩ := kept k entry
    rw [types f slot] at covered
    exact ⟨covered, fun none_ => present ((cells f .indirect slot).trans none_)⟩
  · rw [cells f c slot] at linked ⊢
    exact synced.used f c slot linked

theorem SameMeta.synced (same : m.SameMeta m') (synced : m.Synced safe d) : m'.Synced safe d :=
  synced.congr same.slot (fun _ slot => same.type slot) fun _ c slot => same.cell slot c

section Inv

variable (inv : m.Inv ∅)
include inv

theorem linked_lt (slot : m.Slot f) (linked : m.cell f c ≠ 0) : m.cell f c < 32768 :=
  (inv.range f c slot (.of_mem (Set.notMem_empty f)) linked).2.exists_.trans_le inv.small.high

theorem Synced.of_flush (type : ∀ f, m.Slot f → f.block ≠ b → d.type f = m.type f)
    (pointer : ∀ f c, m.Slot f → m.Kept safe f c → (m.loc f c).1 ≠ b → d.at_ (m.loc f c) = 0 ∨
    d.at_ (m.loc f c) = m.cell f c)
    (used : b ≠ 2 → ∀ f c, m.Slot f → m.cell f c ≠ 0 → d.free (m.cell f c) = false) :
    m.Synced safe (update d b (m b)) := by
  refine ⟨fun f slot => ?_, fun f c slot kept => ?_, fun f c slot linked => ?_⟩
  · by_cases here : f.block = b
    · rw [Image.type, here, update_self, ← here, Image.type]
    · rw [Image.type, update_of_ne here]
      exact type f slot here
  · by_cases here : (m.loc f c).1 = b
    · right
      rw [at_, here, update_self, ← here]
      exact at_loc fun k entry => (kept k entry).2
    · rw [at_, update_of_ne here]
      exact pointer f c slot kept here
  · have low := linked_lt inv slot linked
    by_cases bitmap : b = 2
    · subst bitmap
      rw [free_of_small low, update_self, ← free_of_small low]
      exact (inv.range f c slot (.of_mem (Set.notMem_empty f)) linked).2.used
    · rw [free_of_small low, update_of_ne (Ne.symm bitmap), ← free_of_small low]
      exact used bitmap f c slot linked

theorem Synced.flush (synced : m.Synced safe d) (b : Nat) : m.Synced safe (update d b (m b)) :=
  .of_flush inv (fun f slot _ => synced.type f slot) (fun f c slot kept _ => synced.pointer f c slot kept)
    fun _ => synced.used

theorem Synced.take (synced : m.Synced safe d) (inside : p < m.nblocks) :
    m.Synced safe (update d 2 (m.take p 2)) := by
  have away := inv.away_bitmap
  refine ⟨fun f slot => ?_, fun f c slot kept => ?_, fun f c slot linked => ?_⟩
  · rw [Image.type, update_of_ne (away f slot).1]
    exact synced.type f slot
  · rw [at_, update_of_ne]
    · exact synced.pointer f c slot kept
    · cases c with
      | direct i => exact (away f slot).1
      | indirect => exact (away f slot).1
      | entry k => exact (away f slot).2 (kept k rfl).2
  · have low := linked_lt inv slot linked
    have top := inv.small.high
    rw [free_of_small low, update_self, ← free_of_small low, free_take (by omega) low,
      (inv.range f c slot (.of_mem (Set.notMem_empty f)) linked).2.used, Bool.false_and]

theorem Synced.attach (synced : m.Synced safe d) (can : m.Attaches ∅ tidy f c p) :
    (m.attach f c p).Synced safe (update (update d 2 (m.take p 2)) p (m.attach f c p p)) := by
  have early := synced.take inv can.inside
  have away := inv.away_free can.free
  have extends_ := attach_extends inv can
  have taken : Image.free (update d 2 (m.take p 2)) p = false := by
    have top := inv.small.high
    have inside := can.inside
    rw [free_of_small (by omega), update_self, ← free_of_small (by omega),
      free_take (by omega) (by omega)]
    simp
  generalize update d 2 (m.take p 2) = e at early taken ⊢
  refine .of_flush (attach_inv inv can) (fun g slot other => ?_) (fun g c' slot kept other => ?_)
    fun _ g c' slot linked => ?_
  · rcases (slot_attach inv can g).mp slot with old | ⟨-, j, -, rfl⟩
    · exact (early.type g old).trans (extends_.type old).symm
    · exact absurd rfl other
  · rcases (slot_attach inv can g).mp slot with old | ⟨-, j, -, rfl⟩
    · have ind : (∃ k, c' = .entry k) → (m.attach f c p).indirect g = m.indirect g := by
        rintro ⟨k, rfl⟩
        have here := cell_attach inv can old .indirect
        split at here
        · exact absurd here other
        · exact here
      have place : (m.attach f c p).loc g c' = m.loc g c' := by
        cases c' with
        | direct i => rfl
        | indirect => rfl
        | entry k => simp only [loc, ind ⟨k, rfl⟩]
      have before : at_ e (m.loc g c') = 0 ∨ at_ e (m.loc g c') = m.cell g c' := by
        refine early.pointer g c' old fun k entry => ?_
        obtain ⟨covered, present⟩ := kept k entry
        rw [extends_.type old] at covered
        exact ⟨covered, ind ⟨k, entry⟩ ▸ present⟩
      rw [place, cell_attach inv can old]
      split
      next here =>
        obtain ⟨rfl, rfl⟩ := here
        rw [can.vacant, or_self] at before
        exact .inl before
      · exact before
    · have none_ : ∀ c', (m.attach f c p).cell (.entry p j) c' = 0 := cell_attach_new inv can j
      cases c' with
      | direct i => exact absurd rfl other
      | indirect => exact absurd rfl other
      | entry k => exact absurd (none_ .indirect) (kept k rfl).2
  · rcases (slot_attach inv can g).mp slot with old | ⟨-, j, -, rfl⟩
    · have here := cell_attach inv can old c'
      split at here
      · rw [here, taken]
      · rw [here] at linked ⊢
        exact early.used g c' old linked
    · exact absurd (cell_attach_new inv can j c') linked

omit inv in
theorem Synced.setSize {freed gone : Set Cell} {size : Word} (synced : m.Synced safe d)
    (file : m.Regular f) (cut : m.Cut ∅ f freed gone m')
    (entries : safe → m'.indirect f ≠ 0 → ∀ k, m'.cell f (.entry k) = m.cell f (.entry k)) :
    (m'.resize f size).Synced safe (update d f.block (m'.resize f size f.block)) := by
  have slot := (cut.slot f).mpr file.slot
  have named := (cut.named file.slot).mpr file.named
  have inv' :=
    resize_inv cut.inv slot size named fun kind =>
    absurd ((cut.type file.slot).symm.trans kind) file.kind
  have cells : ∀ {g}, m.Slot g → ∀ c, (m'.resize f size).cell g c = m'.cell g c := fun slot' c =>
    cell_resize cut.inv slot size ((cut.slot _).mpr slot') c
  have types : ∀ {g}, m.Slot g → (m'.resize f size).type g = m.type g := fun slot' =>
    (type_resize cut.inv slot size ((cut.slot _).mpr slot')).trans (cut.type slot')
  have slots : ∀ {g}, (m'.resize f size).Slot g → m.Slot g := fun slot' =>
    (cut.slot _).mp ((slot_resize cut.inv slot size _).mp slot')
  refine .of_flush inv' (fun g slot' _ => ?_) (fun g c slot' kept other => ?_) fun _ g c slot'
    linked => ?_ <;> replace slot' := slots slot'
  · exact (synced.type g slot').trans (types slot').symm
  · have ind : (∃ k, c = .entry k) → (m'.resize f size).indirect g = m.indirect g ∧
      m'.indirect g ≠ 0 := by
      rintro ⟨k, rfl⟩
      have present := (kept k rfl).2
      have same : (m'.resize f size).indirect g = m'.indirect g := cells slot' .indirect
      rw [same] at present ⊢
      exact ⟨(cut.cell_or slot' .indirect).resolve_left present, present⟩
    have place : (m'.resize f size).loc g c = m.loc g c := by
      cases c with
      | direct i => rfl
      | indirect => rfl
      | entry k => simp only [loc, (ind ⟨k, rfl⟩).1]
    have covered : ∀ k, c = .entry k → safe ∨ m.type g = ftypeDir :=
      fun k entry => types slot' ▸ (kept k entry).1
    have before := synced.pointer g c slot' fun k entry =>
      ⟨covered k entry, (ind ⟨k, entry⟩).1 ▸ (kept k entry).2⟩
    -- Pointers that are gone were in the block that has been written, or else in an indirect block
    -- that is gone too.
    have same : m'.cell g c = m.cell g c := by
      by_cases here : g = f
      · subst here
        cases c with
        | direct i => exact absurd rfl other
        | indirect => exact absurd rfl other
        | entry k => exact entries ((covered k rfl).resolve_right file.kind) (ind ⟨k, rfl⟩).2 k
      · exact cut.kept g c slot' fun gone => here gone.1
    rw [place, cells slot', same]
    exact before
  · rw [cells slot'] at linked ⊢
    have same := (cut.cell_or slot' c).resolve_left linked
    rw [same] at linked ⊢
    exact synced.used g c slot' linked

end Inv

end Synced

end Image

namespace Volume

variable {v v' : Volume} {tidy safe : Prop}

structure Recoverable (safe : Prop) (v : Volume) : Prop where
  synced : v.mem.Synced safe v.disk
  images : safe → ∀ d ∈ v.images, d.Consistent

theorem recoverable_flush {m : Image} {b : Nat} (images : safe → ∀ d ∈ v.images, d.Consistent)
    (inv : m.Inv ∅) (synced : m.Synced safe (update v.disk b (m b))) :
    ((v.edit fun _ => m).flush b).Recoverable safe where
  synced := synced
  images holds d member := by
    rcases member with rfl | old
    · exact synced.consistent inv holds
    · exact images holds d old

variable (inv : v.mem.Inv ∅) (before : v.Recoverable safe)
include inv before

theorem Grow.recoverable (step : Grow ∅ tidy v v') : v'.Recoverable safe := by
  cases step with
  | flush inside => exact recoverable_flush before.images inv (before.synced.flush inv _)
  | @attach f c p can =>
    -- There are two writes, and the machine may stop between them.
    have early := before.synced.take inv can.inside
    refine recoverable_flush
      (v := (v.edit fun m => m.take p).flush 2) (fun holds d member => ?_)
      (Image.attach_inv inv can) (before.synced.attach inv can)
    rcases member with rfl | old
    · exact early.consistent inv holds
    · exact before.images holds d old

theorem Change.recoverable (step : Change tidy safe v v') : v'.Recoverable safe := by
  have synced := before.synced
  cases step with
  | grow step => exact step.recoverable inv before
  | write file data linked blk =>
    have same := Image.data_sameMeta inv file.slot (Set.notMem_empty _) file.kind data linked blk
    exact ⟨same.synced synced, before.images⟩
  | extend slot =>
    exact ⟨synced.congr (Image.slot_resize inv slot _) (fun _ slot' => Image.type_resize inv slot _ slot')
      fun _ c slot' => Image.cell_resize inv slot _ slot' c, before.images⟩
  | @setSize f freed gone m size file cut bound empty trim entries =>
    have step : Change tidy safe v _ := .setSize file cut bound empty trim entries
    have inv' := step.inv' inv
    exact recoverable_flush before.images inv' (synced.setSize file cut entries)

theorem Act.recoverable (step : Act tidy safe v v') : v'.Recoverable safe := by
  cases step with
  | change step => exact step.recoverable inv before
  | rename slot short =>
    exact ⟨(Image.rename_sameMeta inv slot short).synced before.synced, before.images⟩

theorem Acts.recoverable (path : Acts tidy safe v v') : v'.Recoverable safe := by
  induction path with
  | refl => exact before
  | tail path step ih => exact step.recoverable (Acts.inv' path inv) ih

end Volume

namespace Cache

variable {s : Cache} {image : Image} {ops : List Op}

-- Operations on regular files, at positions that are not negative. A file that keeps its indirect
-- block keeps the entries in it.
def Ordered (s : Cache) (op : Op) : Prop := op.Allowed False True s.content

theorem crash_consistent (well : image.WellFormed) (run : Run operate Ordered (mount image) ops s) :
    ∀ d, d = s.disk ∨ d ∈ s.past → d.Consistent := by
  have start : (mount image).Live ∧ (mount image).content.Inv ∅ ∧ (mount image).content.Trim False ∧
      (mount image).volume.Recoverable True := by
    have content := mount_content image
    refine ⟨mount_live image, content.symm ▸ well.inv, content.symm ▸ well.trim.weaken, ?_,
      fun _ d member => ?_⟩
    · rw [show (mount image).volume.mem = image from content]
      exact .refl well.inv True
    · obtain rfl : d = image := member.resolve_right List.not_mem_nil
      exact (Image.Synced.refl well.inv True).consistent well.inv trivial
  obtain ⟨-, -, -, recoverable⟩ := run.invariant
    (motive := fun s => s.Live ∧ s.content.Inv ∅ ∧ s.content.Trim False ∧ s.volume.Recoverable True) start
    fun s op t holds ordered next => by
      obtain ⟨live, inv, trim, recoverable⟩ := holds
      obtain ⟨a, v', does, acts⟩ := op.program_does (v := s.volume) inv trim ordered
      obtain ⟨s', ran, live', rfl⟩ := does s live rfl
      obtain rfl := Option.some.inj (next.symm.trans (operate_eq ran))
      exact ⟨live', Volume.Acts.inv' acts inv, Volume.Acts.trim acts inv trim,
        Volume.Acts.recoverable inv recoverable acts⟩
  exact recoverable.images trivial

section Examples

def Ordered? (s : Cache) (op : Op) : Bool := s.InRange? op && match op with
  | .fileWrite _ buf offset => (FsM.sizeBlocks (offset + BitVec.ofNat 32 buf.length)).toNat ≤ ndirect
  | .fileSetSize _ newsize => (FsM.sizeBlocks newsize).toNat ≤ ndirect
  | _ => true

theorem ordered_of_check {op : Op} (passed : s.Ordered? op = true) : s.Ordered op := by
  cases op <;> simp only [Ordered?, Bool.and_eq_true, decide_eq_true_eq, and_true] at passed
  case fileWrite =>
      obtain ⟨file, positive, short, -⟩ := (inRange_of_check passed.1).allowed
      exact ⟨file, positive, short, False.elim, fun _ _ _ many => absurd passed.2 (by omega)⟩
  case fileSetSize =>
      exact ⟨(inRange_of_check passed.1).allowed.1, False.elim,
        fun _ _ many => absurd passed.2 (by omega)⟩
  case fileRead => exact (inRange_of_check passed).allowed
  case fileFlush => exact (inRange_of_check passed).allowed
  all_goals trivial

def reused : List Op :=
  [.fileCreate ⟨[0x2F, 0x61], Cache.slashA_path⟩, .fileWrite (.entry 3 0) [1] 0,
    .fileSetSize (.entry 3 0) 0, .fileCreate ⟨[0x2F, 0x62], Cache.slashB_path⟩,
    .fileWrite (.entry 3 1) [2] 0, .fileFlush (.entry 3 1)]

theorem crash_consistent_reuse : ∃ s, Run operate Ordered (mount (.empty 5)) reused s ∧
    s.content.cell (.entry 3 1) (.direct 0) = 4 ∧ s.disk.Consistent := by
  have ran : ∃ s, Run operate (Ordered? · · = true) (mount (.empty 5)) reused s ∧
      s.content.cell (.entry 3 1) (.direct 0) = 4 := Run.of_exec_any (by decide +kernel)
  obtain ⟨s, run, moved⟩ := ran
  have run := run.mono fun _ _ => ordered_of_check
  exact ⟨s, run, moved,
    crash_consistent (Image.empty_wellFormed (by decide) (by decide)) run _ (.inl rfl)⟩

def shortened : List Op :=
  [.fileCreate ⟨[0x2F, 0x61], Cache.slashA_path⟩, .fileCreate ⟨[0x2F, 0x62], Cache.slashB_path⟩,
    .fileWrite (.entry 3 0) [1] 45056, .fileFlush (.entry 3 0), .fileSetSize (.entry 3 0) 45056,
    .fileWrite (.entry 3 1) [1] 0, .fileFlush (.entry 3 1)]

-- The entry in the indirect block of the first file is still on the disk.
theorem crash_inconsistent : ∃ s, Run operate InRange (mount (.empty 32)) shortened s ∧
    ∃ f g c c', f ≠ g ∧ s.disk.Slot f ∧ s.disk.Slot g ∧ s.disk.cell f c ≠ 0 ∧
    s.disk.cell f c = s.disk.cell g c' := by
  have ran : ∃ s, Run operate (InRange? · · = true) (mount (.empty 32)) shortened s ∧
      Shallow s.disk (.entry 3 0) ∧ Shallow s.disk (.entry 3 1) ∧
        s.disk.cell (.entry 3 0) (.entry 1) ≠ 0 ∧
      s.disk.cell (.entry 3 0) (.entry 1) = s.disk.cell (.entry 3 1) (.direct 0) :=
        Run.of_exec_any (by decide +kernel)
  obtain ⟨s, run, first, second, linked, same⟩ := ran
  exact ⟨s, run.mono fun _ _ => inRange_of_check, _, _, _,
    _, by decide, first.regular.slot, second.regular.slot, linked, same⟩

end Examples

end Cache

end Jos.Fs
