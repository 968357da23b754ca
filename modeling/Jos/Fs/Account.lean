import Jos.Fs.Directory

namespace Jos.Fs

open Jos.Shared
open Jos.Kern (Word Byte)
open Function

def Cell.needed (n : Nat) : Finset Cell :=
  match ofBlock n with
  | none => ∅
  | some (.entry k) => {.indirect, .entry k}
  | some c => {c}

theorem Cell.mem_needed {n : Nat} {c : Cell} (place : ofBlock n = some c) : c ∈ needed n := by
  unfold needed
  rw [place]
  cases c <;> simp

def Cell.span (o n : Nat) : Finset Cell := (Finset.range n).biUnion fun i => needed ((o + i) / 4096)

theorem Cell.span_mono {o i j : Nat} (le : i ≤ j) : span o i ⊆ span o j :=
  Finset.biUnion_subset_biUnion_of_subset_left _ (Finset.range_subset_range.mpr le)

theorem Cell.needed_subset {o i j : Nat} (lt : i < j) : needed ((o + i) / 4096) ⊆ span o j :=
  Finset.subset_biUnion_of_mem (fun i => needed ((o + i) / 4096)) (Finset.mem_range.mpr lt)

theorem Cell.mem_span_add {o i k : Nat} (block : (o + i) % 4096 + k ≤ 4096) {c : Cell}
    (member : c ∈ span o (i + k)) : c ∈ span o i ∨ c ∈ needed ((o + i) / 4096) := by
  obtain ⟨j, low, here⟩ := Finset.mem_biUnion.mp member
  rw [Finset.mem_range] at low
  by_cases before : j < i
  · exact .inl (needed_subset before here)
  · have same : (o + j) / 4096 = (o + i) / 4096 := by omega
    exact .inr (same ▸ here)

namespace Image

variable {m m' : Image} {stale : Set FilePtr} {tidy : Prop} {f : FilePtr} {c : Cell} {p : Nat}
    {C D : Finset Cell}

def freeBlocks (m : Image) : Nat := (List.range m.nblocks).countP m.free

def need (m : Image) (f : FilePtr) (C : Finset Cell) : Nat := (C.filter fun c => m.cell f c = 0).card

theorem full_iff (small : m.Small) : m.Full ↔ m.freeBlocks = 0 := by
  rw [freeBlocks, List.countP_eq_zero]
  simp only [List.mem_range]
  constructor
  · intro full b inside
    by_cases high : 3 ≤ b
    · simp [full b high inside]
    · simp [small.reserved b (by omega)]
  · intro none_ b _ inside
    simpa using none_ b inside

theorem freeBlocks_attach (inv : m.Inv stale) (can : m.Attaches stale tidy f c p) :
    (m.attach f c p).freeBlocks + 1 = m.freeBlocks := by
  have top := inv.small.high
  have inside := can.inside
  -- Bit `p` is the only one that changes.
  have count : ∀ n ≤ m.nblocks, (List.range n).countP (m.attach f c p).free + (if p < n then 1 else 0) =
      (List.range n).countP m.free := by
    intro n low
    induction n with
    | zero => rfl
    | succ n ih =>
      have before := ih (by omega)
      rw [List.range_succ, List.countP_append, List.countP_append, List.countP_singleton,
        List.countP_singleton, free_attach inv can (show n < 32768 by omega)]
      by_cases here : n = p
      · subst here
        rw [if_neg (Nat.lt_irrefl n)] at before
        simp only [ne_eq, not_true_eq_false, decide_false, Bool.and_false, can.free, if_true,
          Nat.lt_succ_self, Bool.false_eq_true, if_false]
        omega
      · have order : p < n + 1 ↔ p < n := by omega
        simp only [ne_eq, here, not_false_eq_true, decide_true, Bool.and_true, order]
        omega
  have all := count m.nblocks le_rfl
  rw [if_pos inside] at all
  rw [freeBlocks, nblocks_attach inv can, freeBlocks]
  exact all

theorem need_attach (inv : m.Inv stale) (can : m.Attaches stale tidy f c p) (member : c ∈ C) :
    (m.attach f c p).need f C + 1 = m.need f C := by
  have high := can.high
  have rest : (C.filter fun c' => (m.attach f c p).cell f c' = 0) =
    (C.filter fun c' => m.cell f c' = 0).erase c := by
    ext c'
    rw [Finset.mem_erase, Finset.mem_filter, Finset.mem_filter, cell_attach inv can can.slot]
    by_cases here : c' = c
    · simp only [here, and_self, if_true, ne_eq, not_true_eq_false, false_and, iff_false]
      omega
    · simp [here]
  rw [need, rest]
  exact Finset.card_erase_add_one (Finset.mem_filter.mpr ⟨member, can.vacant⟩)

theorem need_mono (m : Image) (f : FilePtr) (sub : C ⊆ D) : m.need f C ≤ m.need f D :=
  Finset.card_le_card (Finset.filter_subset_filter _ sub)

theorem need_eq_zero : m.need f C = 0 ↔ ∀ c ∈ C, m.cell f c ≠ 0 := by
  rw [need, Finset.card_eq_zero, Finset.filter_eq_empty_iff]

theorem SameBitmap.update {b : Nat} (high : 3 ≤ b) (blk : Block) : m.SameBitmap (update m b blk) := by
  constructor
  · rw [Image.nblocks, update_of_ne (show 1 ≠ b by omega), Image.nblocks]
  · intro q inside
    rw [free_of_small inside, free_of_small inside, update_of_ne (show 2 ≠ b by omega)]

theorem freeBlocks_congr (small : m.Small) (same : m.SameBitmap m') : m'.freeBlocks = m.freeBlocks := by
  have top := small.high
  rw [freeBlocks, freeBlocks, same.nblocks]
  refine List.countP_congr fun b member => ?_
  rw [same.free b (by have inside := List.mem_range.mp member; omega)]

theorem need_congr (cells : ∀ c, m'.cell f c = m.cell f c) : m'.need f C = m.need f C := by
  simp only [need, cells]

end Image

namespace FsM

variable {v v' : Volume} {stale : Set FilePtr} {tidy : Prop} {f : FilePtr} {n : Nat}
    {r : Except Errno Nat} {C : Finset Cell}

theorem Gets.account (gets : Gets v stale tidy f n r v') (inv : v.mem.Inv stale)
    (sub : Cell.needed n ⊆ C) :
    v'.mem.freeBlocks + v.mem.need f C = v.mem.freeBlocks + v'.mem.need f C := by
  have one : ∀ {m : Image} {c p}, m.Inv stale → m.Attaches stale tidy f c p → c ∈ C →
      (m.attach f c p).freeBlocks + m.need f C = m.freeBlocks + (m.attach f c p).need f C := by
    intro m c p inv can member
    have blocks := Image.freeBlocks_attach inv can
    have cells := Image.need_attach inv can member
    omega
  have entry : ∀ {k}, Cell.ofBlock n = some (.entry k) → .indirect ∈ C := by
    intro k place
    apply sub
    rw [Cell.needed, place]
    simp
  cases gets with
  | outside => rfl
  | present => rfl
  | full => rfl
  | attached place can => exact one inv can (sub (Cell.mem_needed place))
  | half place can => exact one inv can (entry place)
  | both place can can' =>
    have first := one inv can (entry place)
    have second := one (Image.attach_inv inv can) can' (sub (Cell.mem_needed place))
    simp only [Volume.attach, Volume.edit, Volume.flush] at first second ⊢
    omega

theorem Gets.reached {b : Nat} (gets : Gets v stale tidy f n (.ok b) v') (inv : v.mem.Inv stale)
    (slot : v.mem.Slot f) : v'.mem.need f (Cell.needed n) = 0 := by
  obtain ⟨c, place, target, present⟩ := gets.linked inv slot
  have linked : v'.mem.cell f c ≠ 0 := target.trans_ne present
  rw [Image.need_eq_zero, Cell.needed, place]
  cases c with
  | entry k =>
    have indirect : v'.mem.cell f .indirect ≠ 0 := fun none => linked (if_pos none)
    simp [linked, indirect]
  | direct i => simp [linked]
  | indirect => simp [linked]

theorem Gets.hole {e : Errno} (gets : Gets v stale tidy f n (.error e) v') (inv : v.mem.Inv stale)
    (slot : v.mem.Slot f) {c : Cell} (place : Cell.ofBlock n = some c) : e = .noDisk ∧
    v'.mem.freeBlocks = 0 ∧ v.mem.cell f c = 0 ∧ v'.mem.cell f c = 0 := by
  cases gets with
  | outside none => cases place.symm.trans none
  | full place' hole full =>
    cases place.symm.trans place'
    exact ⟨rfl, (Image.full_iff inv.small).mp full, hole, hole⟩
  | half place' can full =>
    have hole : v.mem.cell f c = 0 := by
      cases place.symm.trans place'
      exact if_pos can.vacant
    have other : ¬(f = f ∧ c = .indirect) := fun here => Cell.ofBlock_data place here.2
    refine ⟨rfl, (Image.full_iff (Image.attach_inv inv can).small).mp full, hole, ?_⟩
    exact ((Image.cell_attach inv can slot c).trans (if_neg other)).trans hole

theorem Gets.short {e : Errno} (gets : Gets v stale tidy f n (.error e) v') (inv : v.mem.Inv stale)
    (slot : v.mem.Slot f) {c : Cell} (place : Cell.ofBlock n = some c) (sub : Cell.needed n ⊆ C) :
    v.mem.freeBlocks < v.mem.need f C := by
  obtain ⟨-, full, -, hole⟩ := gets.hole inv slot place
  have some_ : v'.mem.need f C ≠ 0 :=
    fun none => Image.need_eq_zero.mp none c (sub (Cell.mem_needed place)) hole
  have balance := gets.account inv sub
  omega

end FsM

/-- The first `i` bytes of `f` from `o` on can be reached in `m'`, at the expense of the free blocks
of `m`. -/
structure Image.Paid (m : Image) (f : FilePtr) (o i : Nat) (m' : Image) : Prop where
  reached : m'.need f (Cell.span o i) = 0
  balance : ∀ C, Cell.span o i ⊆ C → m'.freeBlocks + m.need f C = m.freeBlocks + m'.need f C

namespace Image.Paid

variable {m m' : Image} {v v' : Volume} {stale : Set FilePtr} {tidy : Prop} {f : FilePtr} {o i : Nat}

theorem refl (m : Image) (f : FilePtr) (o : Nat) : m.Paid f o 0 m :=
  ⟨need_eq_zero.mpr (by simp [Cell.span]), fun _ _ => rfl⟩

theorem congr (paid : m.Paid f o i v.mem) (cells : ∀ c, m'.cell f c = v.mem.cell f c)
    (free : m'.freeBlocks = v.mem.freeBlocks) : m.Paid f o i m' :=
  ⟨(need_congr cells).trans paid.reached, fun C sub => by rw [free, need_congr cells, paid.balance C sub]⟩

theorem get {b k : Nat} (paid : m.Paid f o i v.mem)
    (gets : FsM.Gets v stale tidy f ((o + i) / 4096) (.ok b) v') (inv : v.mem.Inv stale)
    (slot : v.mem.Slot f) (some_ : 0 < k) (block : (o + i) % 4096 + k ≤ 4096) :
    m.Paid f o (i + k) v'.mem := by
  have ext := Volume.Growth.extends gets.growth inv
  refine ⟨need_eq_zero.mpr fun c member => ?_, fun C sub => ?_⟩
  · rcases Cell.mem_span_add block member with before | here
    · have linked := need_eq_zero.mp paid.reached c before
      exact (ext.cell f c slot linked).trans_ne linked
    · exact need_eq_zero.mp (gets.reached inv slot) c here
  · have before := paid.balance C ((Cell.span_mono (Nat.le_add_right i k)).trans sub)
    have step := gets.account inv ((Cell.needed_subset (show i < i + k by omega)).trans sub)
    omega

theorem enough (paid : m.Paid f o i m') {j : Nat} (before : j < i) :
    m.need f (Cell.span o (j + 1)) ≤ m.freeBlocks := by
  have balance := paid.balance _ subset_rfl
  have reached := paid.reached
  have less := m.need_mono f (Cell.span_mono (o := o) (show j + 1 ≤ i from before))
  omega

theorem short {e : Errno} (paid : m.Paid f o i v.mem)
    (gets : FsM.Gets v stale tidy f ((o + i) / 4096) (.error e) v') (inv : v.mem.Inv stale)
    (slot : v.mem.Slot f) {c : Cell} (place : Cell.ofBlock ((o + i) / 4096) = some c) {j : Nat}
    (after : i ≤ j) : m.freeBlocks < m.need f (Cell.span o (j + 1)) := by
  have balance := paid.balance (Cell.span o (i + 1)) (Cell.span_mono (Nat.le_add_right i 1))
  have less := gets.short inv slot place (Cell.needed_subset (Nat.lt_add_one i))
  have more := m.need_mono f (Cell.span_mono (o := o) (show i + 1 ≤ j + 1 by omega))
  omega

end Image.Paid

/-- A transfer of `n` bytes from `o` on ends after `k` of them, at a block that is not there. If it
is one that a file can have, no block is left for it. -/
structure Image.Halts (m : Image) (f : FilePtr) (o n k : Nat) (e : Errno) (m' : Image) : Prop where
  before : k < n
  hole : ∀ c, Cell.ofBlock ((o + k) / 4096) = some c → m'.cell f c = 0
  short : ∀ c, Cell.ofBlock ((o + k) / 4096) = some c →
    e = .noDisk ∧ ∀ j < n, j < k ↔ m.need f (Cell.span o (j + 1)) ≤ m.freeBlocks

theorem Image.Paid.halts {m : Image} {v v' : Volume} {stale : Set FilePtr} {tidy : Prop}
    {f : FilePtr} {o i n : Nat} {e : Errno} (paid : m.Paid f o i v.mem)
    (gets : FsM.Gets v stale tidy f ((o + i) / 4096) (.error e) v') (inv : v.mem.Inv stale)
    (slot : v.mem.Slot f) (before : i < n) : m.Halts f o n i e v'.mem := by
  refine ⟨before, fun c place => (gets.hole inv slot place).2.2.2,
    fun c place => ⟨(gets.hole inv slot place).1, fun j _ => ?_⟩⟩
  constructor
  · exact paid.enough
  · intro enough
    by_contra after
    have less := paid.short gets inv slot place (not_lt.mp after)
    omega

theorem Image.Halts.of_same {m m₁ m' : Image} {f : FilePtr} {o n k : Nat} {e : Errno}
    (halts : m₁.Halts f o n k e m') (cells : ∀ c, m₁.cell f c = m.cell f c)
    (free : m₁.freeBlocks = m.freeBlocks) : m.Halts f o n k e m' := by
  refine ⟨halts.before, halts.hole, fun c place => ?_⟩
  have short := halts.short c place
  simp only [Image.need_congr cells, free] at short
  exact short

end Jos.Fs
