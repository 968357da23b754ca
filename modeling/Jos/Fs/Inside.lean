import Jos.Fs.ConfinedWrite

namespace Jos.Fs

open Jos.Shared
open Jos.Kern (Word Byte)

namespace BufM

variable {β : Type}

def InBlock (pos stop : Word) : Prop :=
  ((pos.sdiv 4096).toNat : Int) = pos.toInt / 4096 ∧ 0 ≤ (pos.srem 4096).toInt ∧
    (pos.srem 4096).toInt + (chunk pos stop).toNat ≤ 4096

-- Every `memmove` that the loop comes to is inside of the block that `file_get_block` has returned,
-- and the loop does not run out of rounds.
def LoopInside (f : FilePtr) (copy : Nat → Nat → Nat → BufM β Unit) (stop : Word) : Nat → Word →
    Nat → Cache × β → Prop
  | 0, _, _, _ => False
  | fuel + 1, pos, i, s =>
    pos < stop → match lift (FsM.fileGetBlock f (pos.sdiv 4096).toNat) s with
      | .ok (.ok blk) s₁ => InBlock pos stop ∧
          match copy (address blk (pos.srem 4096)) i (chunk pos stop).toNat s₁ with
          | .ok () s₂ =>
            LoopInside f copy stop fuel (pos + chunk pos stop) (i + (chunk pos stop).toNat) s₂
          | .error _ _ => True
      | _ => True

def ReadInside (put : Nat → List Byte → BufM β Unit) (f : FilePtr) (count offset : Word)
    (s : Cache × β) : Prop :=
  match lift (FsM.load f.block f.fSize) s with
  | .ok size s₁ => size.sle offset = true ∨
      LoopInside f (copyOut put) (offset + wordMin count (size - offset))
        ((wordMin count (size - offset)).toNat + 1) offset 0 s₁
  | .error _ _ => True

def WriteInside (fetch : Nat → Nat → BufM β (List Byte)) (f : FilePtr) (count offset : Word)
    (s : Cache × β) : Prop :=
  match lift (FsM.extendTo f (offset + count)) s with
  | .ok () s₁ => LoopInside f (copyIn fetch) (offset + count) (count.toNat + 1) offset 0 s₁
  | .error _ _ => True

section Loop

variable {f : FilePtr} {copy : Nat → Nat → Nat → BufM β Unit} {stop pos : Word} {fuel i : Nat}
    {s : Cache × β}

theorem loopInside_behind (behind : ¬pos < stop) : LoopInside f copy stop (fuel + 1) pos i s :=
  fun before => absurd before behind

theorem loopInside_outside (outside : 1034 ≤ (pos.sdiv 4096).toNat) :
    LoopInside f copy stop (fuel + 1) pos i s := by
  intro _
  rw [FsM.fileGetBlock_outside outside]
  trivial

theorem inBlock_of_nonneg (before : pos < stop) (positive : pos.toNat < 2 ^ 31) : InBlock pos stop := by
  have length := chunk_of_nonneg before positive
  have small : (pos.srem 4096).toNat = pos.toNat % 4096 := srem_of_nonneg positive
  have offset : (pos.srem 4096).toInt = (pos.toNat % 4096 : Nat) := by
    rw [BitVec.toInt_eq_toNat_of_lt (by omega), small]
  refine ⟨?_, by omega, by omega⟩
  rw [sdiv_block positive, BitVec.toInt_eq_toNat_of_lt (by omega)]
  rfl

theorem loopInside_nonneg (positive : pos.toNat < 2 ^ 31) (enough : stop.toNat - pos.toNat < fuel) :
    LoopInside f copy stop fuel pos i s := by
  induction fuel generalizing pos i s with
  | zero => omega
  | succ fuel ih =>
    by_cases outside : 1034 ≤ (pos.sdiv 4096).toNat
    · exact loopInside_outside outside
    · intro before
      have order : pos.toNat < stop.toNat := before
      obtain ⟨progress, -, sum⟩ := chunk_bounds before
      have length := chunk_of_nonneg before positive
      rw [sdiv_block positive] at outside
      split
      next blk s₁ _ =>
        refine ⟨inBlock_of_nonneg before positive, ?_⟩
        split
        next s₂ _ => exact ih (by omega) (by omega)
        · trivial
      · trivial

-- A position less than a block in front of the file: the block asked for is the first one, and the
-- bytes are in front of it.
theorem loopInside_front {offset n : Word} {k : Nat} (position : offset.toNat + k = 2 ^ 32)
    (low : k < 4096) (some_ : 0 < n.toNat) (few : n.toNat < k) (s : Cache × β) :
    LoopInside f copy (offset + n) (n.toNat + 1) offset 0 s ↔
    ¬∃ blk s₁, FsM.fileGetBlock f 0 s.1 = .ok (.ok blk) s₁ := by
  obtain ⟨block, rem⟩ := ServM.negative_pos position (by omega)
  rw [if_pos low] at block
  have before : offset < offset + n := by
    show offset.toNat < (offset + n).toNat
    rw [BitVec.toNat_add]
    omega
  have negative : (offset.srem 4096).toInt < 0 := by
    rw [rem low, BitVec.toInt_eq_toNat_cond, BitVec.toNat_neg, BitVec.toNat_ofNat]
    split <;> omega
  rw [LoopInside, block, lift]
  constructor
  · rintro inside ⟨blk, s₁, got⟩
    have here := inside before
    rw [got] at here
    exact absurd here.1.2.1 (by omega)
  · intro refused _
    cases got : FsM.fileGetBlock f 0 s.1 with
    | error why s₁ => trivial
    | ok r s₁ =>
      cases r with
      | error e => trivial
      | ok blk => exact absurd ⟨blk, s₁, got⟩ refused

end Loop

end BufM

namespace Image

variable {m m' : Image} {f : FilePtr} {stale W : Set FilePtr} {freed gone : Set Cell}

def Bare (m : Image) (f : FilePtr) : Prop :=
  m.indirect f = 0 ∧ ∀ n c, Cell.ofBlock n = some c → n < (FsM.sizeBlocks (m.size f)).toNat →
    m.cell f c = 0

theorem denied_zero : m.Denied f 0 ↔ m.cell f (.direct 0) = 0 ∧ m.Full := by
  constructor
  · intro denied
    exact denied (.direct 0) rfl
  · rintro both c ⟨⟩
    exact both

theorem denied_resize (inv : m.Inv stale) (slot : m.Slot f) (size : Word) :
    (m.resize f size).Denied f 0 ↔ m.Denied f 0 := by
  have same := sameBitmap_put inv slot size 32
  have high := inv.small.high
  rw [denied_zero, denied_zero, cell_resize inv slot size slot]
  refine and_congr_right fun _ => forall_congr' fun b => forall_congr' fun low => ?_
  rw [show (m.resize f size).nblocks = m.nblocks from same.nblocks]
  refine forall_congr' fun inside => ?_
  rw [show (m.resize f size).free b = m.free b from same.free b (by omega)]

theorem CutOn.freed_empty (cut : m.CutOn W ∅ f freed gone m') (inv : m.Inv ∅) (slot : m.Slot f)
    (full : m'.Full) : ∀ c ∈ freed, m.cell f c = 0 := by
  intro c here
  by_contra linked
  obtain ⟨low, valid⟩ := inv.range f c slot (.of_mem (Set.notMem_empty f)) linked
  have inside := valid.exists_
  have high := inv.small.high
  have free := (cut.free (m.cell f c) (by omega)).mpr (.inr ⟨low, c, here, rfl⟩)
  rw [full _ low (by rwa [cut.nblocks])] at free
  cases free

theorem CutOn.full_iff (cut : m.CutOn W ∅ f freed gone m') (small : m.Small)
    (empty : ∀ c ∈ freed, m.cell f c = 0) : m'.Full ↔ m.Full := by
  have high := small.high
  refine forall_congr' fun b => forall_congr' fun low => ?_
  rw [cut.nblocks]
  refine forall_congr' fun inside => ?_
  rw [← Bool.not_eq_true, ← Bool.not_eq_true, cut.free b (by omega), or_iff_left]
  rintro ⟨-, c, here, target⟩
  have zero := empty c here
  omega

theorem TruncatedOn.denied {old : Nat} (cuts : m.TruncatedOn W ∅ f 0 old freed gone m')
    (self : f ∈ W) (inv : m.Inv ∅) (slot : m.Slot f)
    (blocks : old = (FsM.sizeBlocks (m.size f)).toNat) :
    m'.Denied f 0 ↔ m.Denied f 0 ∧ m.Bare f := by
  have cut := cuts.cut
  rw [denied_zero, denied_zero]
  constructor
  · rintro ⟨hole, full⟩
    have none := cut.freed_empty inv slot full
    have data : ∀ c, (∀ k, c ≠ .entry k) → m'.cell f c = 0 → m.cell f c = 0 := by
      intro c direct zero
      by_cases dropped : c ∈ gone
      · rcases cuts.gone_cases c dropped with here | ⟨-, k, rfl⟩
        · exact none c here
        · exact absurd rfl (direct k)
      · rw [← cut.kept f c self fun here => dropped here.2, zero]
    refine ⟨⟨data _ nofun hole, (cut.full_iff inv.small none).mp full⟩,
      data .indirect nofun (cuts.indirect (by decide)), fun n c place inside => ?_⟩
    by_cases here : c ∈ freed
    · exact none c here
    · exact cuts.hole n c place (by omega) (blocks ▸ inside) here
  · rintro ⟨⟨hole, full⟩, empty, rest⟩
    have none : ∀ c ∈ freed, m.cell f c = 0 := by
      intro c here
      by_cases pointer : c = .indirect
      · rw [pointer]; exact empty
      · obtain ⟨n, within, place⟩ := cuts.freed_range c here pointer
        exact rest n c place (blocks ▸ within.2)
    exact ⟨(cut.cell_or self _).elim id fun same => same.trans hole,
      (cut.full_iff inv.small none).mpr full⟩

end Image

namespace FsM

variable {v : Volume} {f : FilePtr}

theorem get_direct_held (usable : Usable v.mem f) (i : Fin 10) (linked : v.mem.cell f (.direct i) ≠ 0) :
    Does (fileGetBlock f i) v (.ok (v.mem.cell f (.direct i))) v := by
  obtain ⟨low, target⟩ := usable.range i linked
  have loaded : Does (load f.block (f.fDirect i)) v (v.mem f.block (f.fDirect i)) v :=
    load_does usable.small usable.valid _
  have present : ¬v.mem f.block (f.fDirect i) = 0 := fun zero => linked (congrArg BitVec.toNat zero)
  refine .bind (direct_walks i) (.bind loaded ?_)
  rw [if_neg present]
  exact .bind loaded
    (.bind (diskaddr_does usable.small (by change v.mem.cell f (.direct i) ≠ 0; omega)
    target.exists_) (.pure _ _))

theorem get_front (usable : Usable v.mem f) :
    v.mem.Denied f 0 ∧ (∃ e, Does (fileGetBlock f 0) v (.error e) v) ∨
      ¬v.mem.Denied f 0 ∧ ∃ blk v', Does (fileGetBlock f 0) v (.ok blk) v' := by
  rw [Image.denied_zero]
  by_cases hole : v.mem.cell f (.direct 0) = 0
  · rcases get_direct usable 0 hole with ⟨full, does⟩ | ⟨space, p, v', does, -⟩
    · exact .inl ⟨⟨hole, full⟩, _, does⟩
    · exact .inr ⟨fun both => space both.2, p, v', does⟩
  · exact .inr ⟨fun both => hole both.1, _, v, get_direct_held usable 0 hole⟩

theorem extendTo_truncates {newsize : Word} {k : Nat} (inv : v.mem.Inv ∅) (slot : v.mem.Slot f)
    (position : newsize.toNat + k = 2 ^ 32) (low : k < 4096) (short : v.mem.size f < newsize)
    (shorter : newsize.slt (v.mem.size f) = true) :
    ∃ v', Does (extendTo f newsize) v () v' ∧ Usable v'.mem f ∧
      (v'.mem.Denied f 0 ↔ v.mem.Denied f 0 ∧ v.mem.Bare f) := by
  have loaded : Does (load f.block f.fSize) v (v.mem.size f) v := load_does inv.small (slot.valid inv) _
  obtain ⟨freed, gone, m, truncated, cuts⟩ :=
    fileTruncateBlocks_on inv (.single slot) (Set.notMem_empty f) newsize
  have blocks : (sizeBlocks newsize).toNat = 0 := by
    have sum : (newsize + 4095).toNat = 4095 - k := by
      rw [BitVec.toNat_add, show (4095 : Word).toNat = 4095 from rfl]
      omega
    rw [sizeBlocks, sdiv_block (by omega)]
    omega
  rw [blocks] at cuts
  have cut := cuts.cut
  have slot' := cut.stay f rfl
  refine ⟨(v.edit fun _ => m.resize f newsize).flush f.block, .bind loaded ?_,
    .resize cut.inv slot' newsize, ?_⟩
  · rw [if_pos short]
    refine .bind loaded ?_
    rw [if_pos shorter]
    exact .bind truncated (resize_does cut.inv slot')
  · rw [show ((v.edit fun _ => m.resize f newsize).flush f.block).mem = m.resize f newsize from rfl,
      Image.denied_resize cut.inv slot' newsize, cuts.denied rfl inv slot rfl]

theorem extendTo_front {newsize : Word} {k : Nat} (inv : v.mem.Inv ∅) (slot : v.mem.Slot f)
    (position : newsize.toNat + k = 2 ^ 32) (low : k < 4096) :
    ∃ v', Does (extendTo f newsize) v () v' ∧ Usable v'.mem f ∧
      (v'.mem.Denied f 0 ↔ v.mem.Denied f 0 ∧ (0 ≤ (v.mem.size f).toInt → v.mem.Bare f)) := by
  have loaded : Does (load f.block f.fSize) v (v.mem.size f) v := load_does inv.small (slot.valid inv) _
  have negative : newsize.toInt = -k := by
    rw [BitVec.toInt_eq_toNat_cond]
    split <;> omega
  have sign := BitVec.toInt_eq_toNat_cond (v.mem.size f)
  by_cases short : v.mem.size f < newsize
  · have short' : (v.mem.size f).toNat < newsize.toNat := short
    cases shorter : newsize.slt (v.mem.size f) with
    | false =>
      rw [BitVec.slt, decide_eq_false_iff_not] at shorter
      have below : ¬0 ≤ (v.mem.size f).toInt := by omega
      refine ⟨(v.edit fun m => m.resize f newsize).flush f.block, .bind loaded ?_,
        .resize inv slot newsize, ?_⟩
      · rw [if_pos short]
        exact fileSetSize_grow inv slot (by rw [BitVec.slt, decide_eq_false_iff_not]; exact shorter)
      · rw [show ((v.edit fun m => m.resize f newsize).flush f.block).mem = v.mem.resize f newsize
          from rfl, Image.denied_resize inv slot newsize]
        exact ⟨fun denied => ⟨denied, fun above => absurd above below⟩, And.left⟩
    | true =>
      obtain ⟨v', does, usable, denied⟩ := extendTo_truncates inv slot position low short shorter
      rw [BitVec.slt, decide_eq_true_eq] at shorter
      have above : 0 ≤ (v.mem.size f).toInt := by
        split at sign <;> omega
      refine ⟨v', does, usable, denied.trans (and_congr_right fun _ => ?_)⟩
      exact ⟨fun bare _ => bare, fun bare => bare above⟩
  · have long : ¬(v.mem.size f).toNat < newsize.toNat := short
    have below : ¬0 ≤ (v.mem.size f).toInt := by
      split at sign <;> omega
    refine ⟨v, .bind loaded ?_, .of_inv inv slot, ?_⟩
    · rw [if_neg short]
      exact .pure _ _
    · exact ⟨fun denied => ⟨denied, fun above => absurd above below⟩, And.left⟩

end FsM

namespace BufM

variable {β : Type} {f : FilePtr} {s : Cache} {count offset n : Word}

def Clear (n offset : Word) : Prop :=
  0 ≤ offset.toInt ∨ offset.toInt ≤ -4096 ∨ n = 0 ∨ -offset.toInt ≤ n.toNat

theorem loopInside_clear {copy : Nat → Nat → Nat → BufM β Unit} {s : Cache × β} (clear : Clear n offset) :
    LoopInside f copy (offset + n) (n.toNat + 1) offset 0 s := by
  have sign := BitVec.toInt_eq_toNat_cond offset
  have sum := BitVec.toNat_add offset n
  have bound := offset.isLt
  have bound' := n.isLt
  by_cases positive : offset.toNat < 2 ^ 31
  · exact loopInside_nonneg positive (by omega)
  · have position : offset.toNat + (2 ^ 32 - offset.toNat) = 2 ^ 32 := by omega
    have value : offset.toInt = -((2 ^ 32 - offset.toNat : Nat) : Int) := by
      split at sign <;> omega
    rcases clear with above | far | none | many
    · omega
    · obtain ⟨block, -⟩ := ServM.negative_pos position (by omega)
      apply loopInside_outside
      rw [block, if_neg (by omega)]
      omega
    · subst none
      exact loopInside_behind (by rw [add_zero]; exact BitVec.lt_irrefl _)
    · apply loopInside_behind
      intro before
      have before' : offset.toNat < (offset + n).toNat := before
      omega

theorem front_of_not_clear (clear : ¬Clear n offset) :
    ∃ k, offset.toNat + k = 2 ^ 32 ∧ k < 4096 ∧ 0 < n.toNat ∧ n.toNat < k := by
  have sign := BitVec.toInt_eq_toNat_cond offset
  have bound := offset.isLt
  simp only [Clear, not_or, not_le] at clear
  obtain ⟨below, near, some_, few⟩ := clear
  have some' : 0 < n.toNat := Nat.pos_of_ne_zero fun zero => some_ (BitVec.eq_of_toNat_eq zero)
  refine ⟨2 ^ 32 - offset.toNat, ?_⟩
  split at sign <;> omega

theorem loopInside_denied {v : Volume} {copy : Nat → Nat → Nat → BufM β Unit}
    (clear : ¬Clear n offset) (live : s.Live) (looks : s.volume = v) (usable : FsM.Usable v.mem f)
    (b : β) : LoopInside f copy (offset + n) (n.toNat + 1) offset 0 (s, b) ↔ v.mem.Denied f 0 := by
  obtain ⟨k, position, low, some_, few⟩ := front_of_not_clear clear
  rw [loopInside_front position low some_ few]
  rcases FsM.get_front usable with ⟨denied, e, does⟩ | ⟨allowed, blk, v', does⟩
  · obtain ⟨s₁, got, -⟩ := does s live looks
    refine iff_of_true ?_ denied
    rintro ⟨blk, s₂, got'⟩
    cases got.symm.trans got'
  · obtain ⟨s₁, got, -⟩ := does s live looks
    exact iff_of_false (fun refused => refused ⟨blk, s₁, got⟩) allowed

section Transfers

variable (live : s.Live) (inv : s.content.Inv ∅)
include live inv

theorem readInside_iff (slot : s.content.Slot f) (put : Nat → List Byte → BufM β Unit) (b : β)
    (count offset : Word) : ReadInside put f count offset (s, b) ↔
    (s.content.size f).sle offset = true ∨
      Clear (ServM.asked s.content f count offset) offset ∨ s.content.Denied f 0 := by
  have loaded : Does (FsM.load f.block f.fSize) s.volume (s.content.size f) s.volume :=
    FsM.load_does (v := s.volume) inv.small (slot.valid inv) _
  obtain ⟨s₁, done, live₁, looks⟩ := loaded s live rfl
  rw [ReadInside, lift, done]
  refine or_congr_right ?_
  change LoopInside f (copyOut put) (offset + ServM.asked s.content f count offset)
    ((ServM.asked s.content f count offset).toNat + 1) offset 0 (s₁, b) ↔ _
  by_cases clear : Clear (ServM.asked s.content f count offset) offset
  · exact iff_of_true (loopInside_clear clear) (.inl clear)
  · rw [or_iff_right clear]
    exact loopInside_denied (v := s.volume) clear live₁ looks (.of_inv inv slot) b

theorem writeInside_iff (slot : s.content.Slot f) (fetch : Nat → Nat → BufM β (List Byte)) (b : β)
    (count offset : Word) : WriteInside fetch f count offset (s, b) ↔ Clear count offset ∨
      s.content.Denied f 0 ∧ (0 ≤ (s.content.size f).toInt → s.content.Bare f) := by
  by_cases clear : Clear count offset
  · refine iff_of_true ?_ (.inl clear)
    rw [WriteInside]
    split
    · exact loopInside_clear clear
    · trivial
  · obtain ⟨k, position, low, some_, few⟩ := front_of_not_clear clear
    have sum : (offset + count).toNat + (k - count.toNat) = 2 ^ 32 := by
      rw [BitVec.toNat_add]
      omega
    obtain ⟨v', does, usable, denied⟩ := FsM.extendTo_front (v := s.volume) inv slot sum (by omega)
    obtain ⟨s₁, done, live₁, looks⟩ := does s live rfl
    rw [WriteInside, lift, done]
    change LoopInside f (copyIn fetch) (offset + count) (count.toNat + 1) offset 0 (s₁, b) ↔ _
    rw [or_iff_right clear]
    exact (loopInside_denied clear live₁ looks usable b).trans denied

theorem transfers_inside_iff (slot : s.content.Slot f) (put : Nat → List Byte → BufM β Unit)
    (fetch : Nat → Nat → BufM β (List Byte)) (b : β) (count offset : Word) :
    (ReadInside put f count offset (s, b) ↔ (s.content.size f).sle offset = true ∨
      Clear (wordMin count (s.content.size f - offset)) offset ∨ s.content.Denied f 0) ∧
    (WriteInside fetch f count offset (s, b) ↔ Clear count offset ∨
      s.content.Denied f 0 ∧ (0 ≤ (s.content.size f).toInt → s.content.Bare f)) :=
  ⟨readInside_iff live inv slot put b count offset, writeInside_iff live inv slot fetch b count offset⟩

end Transfers

section Demo

open ServM

theorem filled_file : filled.Live ∧ filled.content.Inv ∅ ∧ filled.content.Regular (.entry 3 0) := by
  have ready := filled_ready 0 0
  exact ⟨ready.live, ready.order.inv, Cache.Shallow.regular (by decide +kernel)⟩

theorem transfers_inside_hundred :
    ReadInside putReply (.entry 3 0) 100 50 (filled, request (.entry 3 0) 100 50) ∧
      WriteInside fetchData (.entry 3 0) 100 50 (filled, request (.entry 3 0) 100 50) := by
  obtain ⟨live, inv, file⟩ := filled_file
  obtain ⟨read, write⟩ :=
    transfers_inside_iff live inv file.slot putReply fetchData (request (.entry 3 0) 100 50) 100 50
  exact ⟨read.mpr (.inr (.inl (.inl (by decide)))), write.mpr (.inl (.inl (by decide)))⟩

-- One byte at offset -2 is read from and written to the block in front of the file's first one.
theorem transfers_in_front :
    ¬ReadInside putReply (.entry 3 0) 1 (-2) (filled, request (.entry 3 0) 1 (-2)) ∧
      ¬WriteInside fetchData (.entry 3 0) 1 (-2) (filled, request (.entry 3 0) 1 (-2)) := by
  obtain ⟨live, inv, file⟩ := filled_file
  have held : filled.content.cell (.entry 3 0) (.direct 0) ≠ 0 ∧
    (filled.content.size (.entry 3 0)) = 4097 := by decide +kernel
  have near : ¬Clear 1 (-2) := by
    unfold Clear
    decide
  have allowed : ¬filled.content.Denied (.entry 3 0) 0 := fun denied => held.1 (denied (.direct 0) rfl).1
  rw [readInside_iff live inv file.slot, writeInside_iff live inv file.slot, asked, held.2]
  exact ⟨fun reads => reads.elim (by decide) fun rest => rest.elim near allowed,
    fun writes => writes.elim near fun rest => allowed rest.1⟩

end Demo

end BufM

end Jos.Fs
