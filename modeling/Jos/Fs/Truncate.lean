import Jos.Fs.Walk

namespace Jos.Fs

open Jos.Shared
open Jos.Kern (Word Byte)

namespace Image

variable {m m' m'' : Image} {stale : Set FilePtr} {f g : FilePtr} {c c' : Cell}
    {freed freed' gone gone' : Set Cell}

-- What can be followed while pointers of `f` are cut: everything if `f` is a regular file, but of a
-- directory only itself, since the structures in its blocks go with them.
structure Watches (m : Image) (W : Set FilePtr) (f : FilePtr) : Prop where
  slots : ∀ g ∈ W, m.Slot g
  self : f ∈ W
  only : m.type f = ftypeDir → ∀ g ∈ W, g = f

theorem Watches.regular (slot : m.Slot f) (kind : m.type f ≠ ftypeDir) : m.Watches {g | m.Slot g} f :=
  ⟨fun _ => id, slot, fun dir => absurd dir kind⟩

theorem Watches.single (slot : m.Slot f) : m.Watches {f} f :=
  ⟨fun _ here => here ▸ slot, rfl, fun _ _ here => here⟩

-- `m'` is `m` without the pointers `gone` of `f`. The blocks that those in `freed` lead to have
-- become free.
structure CutOn (m : Image) (W : Set FilePtr) (stale : Set FilePtr) (f : FilePtr) (freed gone : Set Cell)
    (m' : Image) : Prop where
  inv : m'.Inv stale
  sub : ∀ g, m'.Slot g → m.Slot g
  stay : ∀ g ∈ W, m'.Slot g
  field : ∀ g ∈ W, ∀ x < 34, m' g.block (g.base + x) = m g.block (g.base + x)
  kept : ∀ g c, g ∈ W → ¬(g = f ∧ c ∈ gone) → m'.cell g c = m.cell g c
  zero : ∀ c ∈ gone, m'.cell f c = 0
  nblocks : m'.nblocks = m.nblocks
  free : ∀ q < 32768, m'.free q = true ↔ m.free q = true ∨ 3 ≤ q ∧ ∃ c ∈ freed, m.cell f c = q
  blocks : ∀ b, b ≠ 2 → b ≠ f.block → (m.indirect f ≠ 0 → b ≠ m.indirect f) → m' b = m b

abbrev Cut (m : Image) : Set FilePtr → FilePtr → Set Cell → Set Cell → Image → Prop :=
  m.CutOn {g | m.Slot g}

theorem CutOn.slot (cut : m.Cut stale f freed gone m') (g : FilePtr) : m'.Slot g ↔ m.Slot g :=
  ⟨cut.sub g, cut.stay g⟩

namespace CutOn

variable {W : Set FilePtr}

theorem refl (inv : m.Inv stale) (watch : ∀ g ∈ W, m.Slot g) (f : FilePtr) : m.CutOn W stale f ∅ ∅ m :=
  ⟨inv, fun _ => id, watch, fun _ _ _ _ => rfl, fun _ _ _ _ => rfl, fun _ none => none.elim, rfl,
    fun _ _ => by simp, fun _ _ _ _ => rfl⟩

variable (cut : m.CutOn W stale f freed gone m')
include cut

theorem size (here : g ∈ W) : m'.size g = m.size g := cut.field g here 32 (by decide)

theorem type (here : g ∈ W) : m'.type g = m.type g := cut.field g here 33 (by decide)

theorem named (here : g ∈ W) : m'.Named g ↔ m.Named g := by
  have index : g.fName / 4 = g.base + 0 := by simp [FilePtr.fName]
  rw [Named, Named, byteAt, byteAt, index, cut.field g here 0 (by decide)]

theorem cell_or (here : g ∈ W) (c : Cell) : m'.cell g c = 0 ∨ m'.cell g c = m.cell g c := by
  by_cases own : g = f ∧ c ∈ gone
  · obtain ⟨rfl, dropped⟩ := own
    exact .inl (cut.zero c dropped)
  · exact .inr (cut.kept g c here own)

theorem watches (watch : m.Watches W f) : m'.Watches W f :=
  ⟨cut.stay, watch.self, fun dir => watch.only (cut.type watch.self ▸ dir)⟩

theorem trans (self : f ∈ W) (cut' : m'.CutOn W stale f freed' gone' m'')
    (apart : ∀ c ∈ freed', c ∉ gone) : m.CutOn W stale f (freed ∪ freed') (gone ∪ gone') m'' where
  inv := cut'.inv
  sub g slot := cut.sub g (cut'.sub g slot)
  stay := cut'.stay
  field g here x small := (cut'.field g here x small).trans (cut.field g here x small)
  kept g c here out := by
    have first := cut.kept g c here fun own => out ⟨own.1, .inl own.2⟩
    exact (cut'.kept g c here fun own => out ⟨own.1, .inr own.2⟩).trans first
  zero c dropped := by
    rcases dropped with before | after
    · rcases cut'.cell_or self c with zero | same
      · exact zero
      · exact same.trans (cut.zero c before)
    · exact cut'.zero c after
  nblocks := cut'.nblocks.trans cut.nblocks
  free q inside := by
    have same : ∀ c ∈ freed', m'.cell f c = m.cell f c :=
      fun c here => cut.kept f c self fun old => apart c here old.2
    rw [cut'.free q inside, cut.free q inside]
    simp only [Set.mem_union, or_and_right, exists_or]
    have targets : (∃ c ∈ freed', m'.cell f c = q) ↔ ∃ c ∈ freed', m.cell f c = q :=
      exists_congr fun c => and_congr_right fun here => by rw [same c here]
    rw [targets, and_or_left, or_assoc]
  blocks b bitmap block indirect := by
    refine (cut'.blocks b bitmap block fun present => ?_).trans (cut.blocks b bitmap block indirect)
    have kept : m'.indirect f = m.indirect f := (cut.cell_or self .indirect).resolve_left present
    rw [kept] at present ⊢
    exact indirect present

end CutOn

theorem Cut.refl (inv : m.Inv stale) (f : FilePtr) : m.Cut stale f ∅ ∅ m := CutOn.refl inv (fun _ => id) f

def detach (m : Image) (f : FilePtr) (c : Cell) : Image := (m.setCell f c 0).give (m.cell f c)

section Detach

variable {W : Set FilePtr} (inv : m.Inv stale) (watch : m.Watches W f) (current : f ∉ stale)
  (present : ∀ k, c = .entry k → m.indirect f ≠ 0) (linked : m.cell f c ≠ 0)
include inv watch current present linked

theorem detach_cut : m.CutOn W stale f {c} {c' | c'.Under c} (m.detach f c) := by
  have slot := watch.slots f watch.self
  obtain ⟨high, valid⟩ := inv.range f c slot (.of_mem current) linked
  have inside := valid.exists_
  have top := inv.small.high
  have inv' := unlink_inv inv slot present
  have bitmap := sameBitmap_setCell inv slot present 0
  have stay : ∀ g ∈ W, (m.setCell f c 0).Slot g := by
    intro g here
    by_cases kind : m.type f = ftypeDir
    · rw [watch.only kind g here]
      exact (slot_unlink_or inv slot present slot).elim id id
    · exact (slot_unlink inv slot present kind g).mpr (watch.slots g here)
  have same := give_sameMeta inv' (p := m.cell f c)
  have nblocks := nblocks_give (m.setCell f c 0) (m.cell f c)
  have inside' : m.cell f c < (m.setCell f c 0).nblocks := bitmap.nblocks ▸ inside
  have block : ∀ b, b ≠ 2 → m.detach f c b = m.setCell f c 0 b := fun b other => put_of_block_ne other
  refine ⟨give_inv inv' inside' high ?_,
    fun g slot' => slot_of_unlink inv slot present ((same.slot g).mp slot'), fun g here =>
    (same.slot g).mpr (stay g here), fun g here x small => ?_, fun g c' here out => ?_,
    fun c' under => ?_, nblocks.trans bitmap.nblocks, fun q inside'' => ?_,
    fun b other block' ind => ?_⟩
  · intro g c' slot' trusted target
    replace slot' := slot_of_unlink inv slot present slot'
    by_cases here : g = f ∧ c'.Under c
    · obtain ⟨rfl, under⟩ := here
      exact linked ((cell_unlink_under inv slot present under).symm.trans target).symm
    · rw [cell_unlink inv slot present slot' here] at target
      obtain ⟨rfl, rfl⟩ := inv.unique f c g c' slot slot' (.of_mem current) trusted linked target.symm
      exact here ⟨rfl, .inl rfl⟩
  · have slot' := watch.slots g here
    rw [block _ (inv.away_bitmap g slot').1, field_setCell inv slot present slot' (by omega), if_neg]
    rintro ⟨-, word⟩
    cases c <;> simp [Cell.word] at word <;> omega
  · exact (same.cell (stay g here) c').trans (cell_unlink inv slot present (watch.slots g here) out)
  · exact (same.cell (stay f watch.self) c').trans (cell_unlink_under inv slot present under)
  · rw [detach, free_give (by omega) inside'', Bool.or_eq_true, bitmap.free q inside'']
    simp only [decide_eq_true_eq, Set.mem_singleton_iff, exists_eq_left]
    constructor
    · rintro (free | rfl)
      · exact .inl free
      · exact .inr ⟨high, rfl⟩
    · rintro (free | ⟨-, rfl⟩)
      · exact .inl free
      · exact .inr rfl
  · rw [block b other]
    refine put_of_block_ne ?_
    cases c with
    | direct i => exact block'
    | indirect => exact block'
    | entry k => exact ind (present k rfl)

end Detach

end Image

-- The blocks of `f` from `new` to `old` are freed, and the indirect block if it is not needed any
-- more.
structure Image.TruncatedOn (m : Image) (W : Set FilePtr) (stale : Set FilePtr) (f : FilePtr)
    (new old : Nat) (freed gone : Set Cell) (m' : Image) : Prop where
  cut : m.CutOn W stale f freed gone m'
  zero : ∀ n c, Cell.ofBlock n = some c → new ≤ n → n < old → m'.cell f c = 0
  indirect : new ≤ ndirect → m'.indirect f = 0
  hole : ∀ n c, Cell.ofBlock n = some c → new ≤ n → n < old → c ∉ freed → m.cell f c = 0
  freed_range : ∀ c ∈ freed, c ≠ .indirect → ∃ n, (new ≤ n ∧ n < old) ∧ Cell.ofBlock n = some c
  freed_indirect : .indirect ∈ freed → new ≤ ndirect
  gone_cases : ∀ c ∈ gone, c ∈ freed ∨ new ≤ ndirect ∧ ∃ k, c = .entry k

abbrev Image.Truncated (m : Image) : Set FilePtr → FilePtr → Nat → Nat → Set Cell → Set Cell →
    Image → Prop :=
  m.TruncatedOn {g | m.Slot g}

namespace FsM

variable {v : Volume} {stale : Set FilePtr} {f : FilePtr} {c : Cell} {n : Nat}

theorem detach_does (inv : v.mem.Inv stale) (slot : v.mem.Slot f) (current : f ∉ stale)
    (present : ∀ k, c = .entry k → v.mem.indirect f ≠ 0) (linked : v.mem.cell f c ≠ 0) :
    Does (do freeBlock (v.mem.cell f c); store (v.mem.loc f c).1 (v.mem.loc f c).2 0) v ()
      (v.edit fun m => m.detach f c) := by
  obtain ⟨high, target⟩ := inv.range f c slot (.of_mem current) linked
  obtain ⟨valid, bitmap, -⟩ := Image.loc_valid inv slot present
  have top := inv.small.high
  have inside := target.exists_
  have apart : (v.mem.loc f c).1 ≠ v.mem.cell f c := by
    cases c with
    | direct i => exact (slot.own_ne inv current linked).symm
    | indirect => exact (slot.own_ne inv current linked).symm
    | entry k =>
      intro same
      cases (inv.unique f _ f .indirect slot slot (.of_mem current) .indirect linked same.symm).2
  have small' : (v.mem.give (v.mem.cell f c)).Small := by
    have nblocks := Image.nblocks_give v.mem (v.mem.cell f c)
    refine ⟨nblocks ▸ inv.small.low, nblocks ▸ top, fun q low => ?_⟩
    rw [Image.free_give (by omega) (by omega), inv.small.reserved q low]
    simp
    omega
  have valid' : (v.mem.give (v.mem.cell f c)).Valid (v.mem.loc f c).1 := by
    have inside' := valid.exists_
    refine ⟨by rwa [Image.nblocks_give], ?_⟩
    rw [Image.free_give (by omega) (by omega), valid.used]
    simpa using apart
  have final : (v.mem.give (v.mem.cell f c)).put (v.mem.loc f c).1 (v.mem.loc f c).2 0 =
    v.mem.detach f c := by
    rw [Image.detach, Image.setCell, Image.give, Image.give, Image.put_of_block_ne bitmap.symm]
    exact Image.put_comm bitmap.symm
  refine .bind (freeBlock_does inv.small linked (by omega)) ?_
  have stored :=
    store_does (v := v.edit fun m => m.give (v.mem.cell f c)) small' valid' (v.mem.loc f c).2 0
  simp only [Volume.edit, final] at stored
  exact stored

section Free

variable {W : Set FilePtr} (inv : v.mem.Inv stale) (watch : v.mem.Watches W f) (current : f ∉ stale)
include inv watch current

theorem fileFreeBlock_does (n : Nat) : ∃ gone m', Does (fileFreeBlock f n) v () (v.edit fun _ => m') ∧
    v.mem.CutOn W stale f gone gone m' ∧ (∀ c ∈ gone, Cell.ofBlock n = some c) ∧
    ∀ c, Cell.ofBlock n = some c → m'.cell f c = 0 := by
  have slot := watch.slots f watch.self
  have nothing := Image.CutOn.refl inv watch.slots f
  obtain ⟨r, v', walked, outcome⟩ := fileBlockWalk_does inv slot True n false nofun
  cases outcome with
  | outside none => exact ⟨∅, v.mem, .bind walked (.pure _ _), nothing, by simp, by simp [none]⟩
  | missing place hole =>
    refine ⟨∅, v.mem, .bind walked (.pure _ _), nothing, by simp, fun c place' => ?_⟩
    cases place.symm.trans place'
    exact if_pos hole
  | full _ _ _ asked => cases asked
  | attached _ _ asked => cases asked
  | @found c place present =>
    obtain ⟨w, loaded, target⟩ := load_cell inv slot present
    by_cases zero : w = 0
    · refine ⟨∅, v.mem, .bind walked (.bind loaded ?_), nothing, by simp, fun c' place' => ?_⟩
      · rw [if_pos zero]
        exact .pure _ _
      · cases place.symm.trans place'
        rw [← target, zero]
        rfl
    · have linked : v.mem.cell f c ≠ 0 := by
        rw [← target]
        exact fun none => zero (BitVec.toNat_eq.mpr none)
      have single : ({c' | c'.Under c} : Set Cell) = {c} := by
        ext c'
        simp [Cell.Under, Cell.ofBlock_data place]
      have cut := Image.detach_cut inv watch current present linked
      rw [single] at cut
      refine ⟨{c}, v.mem.detach f c, .bind walked (.bind loaded ?_), cut, ?_, fun c' place' => ?_⟩
      · rw [if_neg zero, target]
        exact detach_does inv slot current present linked
      · rintro _ rfl
        exact place
      · cases place.symm.trans place'
        exact cut.zero c rfl

theorem fileTruncateBlocks_on (newsize : Word) : ∃ freed gone m',
    Does (fileTruncateBlocks f newsize) v () (v.edit fun _ => m') ∧
    v.mem.TruncatedOn W stale f (sizeBlocks newsize).toNat (sizeBlocks (v.mem.size f)).toNat freed
    gone m' := by
  have slot := watch.slots f watch.self
  let new := (sizeBlocks newsize).toNat
  let old := (sizeBlocks (v.mem.size f)).toNat
  have loaded : Does (load f.block f.fSize) v (v.mem.size f) v := load_does inv.small (slot.valid inv) _
  obtain ⟨v', swept, gone, m', rfl, cut, range, zero⟩ := sweep_does (fileFreeBlock f)
    (fun k v' => ∃ gone m', v' = v.edit (fun _ => m') ∧ v.mem.CutOn W stale f gone gone m' ∧
      (∀ c ∈ gone, ∃ n, (new ≤ n ∧ n < k) ∧ Cell.ofBlock n = some c) ∧
      ∀ n c, Cell.ofBlock n = some c → new ≤ n → n < k → m'.cell f c = 0)
    (old - new) new ⟨∅, v.mem, rfl, .refl inv watch.slots f, by simp, fun n c _ low high => by omega⟩ (by
      rintro k _ low high ⟨gone, m', rfl, cut, range, zero⟩
      obtain ⟨gone', m'', does, cut', range', zero'⟩ :=
        fileFreeBlock_does (v := v.edit fun _ => m') cut.inv (cut.watches watch) current k
      refine ⟨_, does, gone ∪ gone', m'', rfl, cut.trans watch.self cut' ?_, ?_,
        fun n c place low' high' => ?_⟩
      · intro c here before
        obtain ⟨n, inside, place⟩ := range c before
        have same := Cell.ofBlock_inj place (range' c here)
        omega
      · rintro c (before | after)
        · obtain ⟨n, inside, place⟩ := range c before
          exact ⟨n, by omega, place⟩
        · exact ⟨k, by omega, range' c after⟩
      · rcases Nat.lt_succ_iff_lt_or_eq.mp high' with earlier | rfl
        · exact (cut'.cell_or watch.self c).elim id fun same => same.trans (zero n c place low' earlier)
        · exact zero' c place)
  have zero' : ∀ n c, Cell.ofBlock n = some c → new ≤ n → n < old →
    m'.cell f c = 0 := fun n c place low high =>
    zero n c place low (by omega)
  have range' : ∀ c ∈ gone, c ≠ .indirect → ∃ n, (new ≤ n ∧ n < old) ∧ Cell.ofBlock n = some c := by
    intro c here _
    obtain ⟨n, inside, place⟩ := range c here
    exact ⟨n, by omega, place⟩
  have hole : ∀ n c, Cell.ofBlock n = some c → new ≤ n → n < old → c ∉ gone → v.mem.cell f c = 0 :=
    fun n c place low high out =>
      (cut.kept f c watch.self fun here => out here.2).symm.trans (zero' n c place low high)
  have direct : .indirect ∉ gone := by
    intro here
    obtain ⟨n, -, place⟩ := range _ here
    exact Cell.ofBlock_data place rfl
  have slot' := cut.stay f watch.self
  by_cases few : new ≤ ndirect
  · have loaded' : Does (load f.block f.fIndirect) (v.edit fun _ => m') (m' f.block f.fIndirect)
      (v.edit fun _ => m') :=
      load_does (v := v.edit fun _ => m') cut.inv.small (slot'.valid cut.inv) _
    by_cases none : m' f.block f.fIndirect = 0
    · refine ⟨gone, gone, m', .bind loaded (.bind swept ?_), cut, zero', fun _ => ?_, hole, range',
        fun here => absurd here direct, fun c here => .inl here⟩
      · rw [if_pos few]
        refine .bind loaded' ?_
        rw [if_pos none]
        exact .pure _ _
      · exact congrArg BitVec.toNat none
    · have linked : m'.cell f .indirect ≠ 0 := fun zero => none (BitVec.toNat_eq.mpr zero)
      have present : ∀ k, Cell.indirect = .entry k → m'.indirect f ≠ 0 := by simp
      have cut' := Image.detach_cut cut.inv (cut.watches watch) current present linked
      have whole := cut.trans watch.self cut' (by rintro _ rfl; exact direct)
      refine ⟨gone ∪ {.indirect}, _, m'.detach f .indirect, .bind loaded (.bind swept ?_), whole,
        fun n c place low high => ?_, fun _ => cut'.zero .indirect (.inl rfl),
        fun n c place low high out => hole n c place low high fun here => out (.inl here), ?_,
          fun _ => few, ?_⟩
      · rw [if_pos few]
        refine .bind loaded' ?_
        rw [if_neg none]
        exact detach_does (v := v.edit fun _ => m') (c := .indirect) cut.inv slot' current present linked
      · exact (cut'.cell_or watch.self c).elim id fun same => same.trans (zero' n c place low high)
      · rintro c (here | rfl) other
        · exact range' c here other
        · exact absurd rfl other
      · rintro c (here | rfl | ⟨-, k, rfl⟩)
        · exact .inl (.inl here)
        · exact .inl (.inr rfl)
        · exact .inr ⟨few, k, rfl⟩
  · refine ⟨gone, gone, m', .bind loaded (.bind swept ?_), cut, zero', fun low => absurd low few,
      hole, range', fun here => absurd here direct, fun c here => .inl here⟩
    rw [if_neg few]
    exact .pure _ _

end Free

theorem fileTruncateBlocks_does (inv : v.mem.Inv stale) (slot : v.mem.Slot f) (current : f ∉ stale)
    (kind : v.mem.type f ≠ ftypeDir) (newsize : Word) : ∃ freed gone m',
    Does (fileTruncateBlocks f newsize) v () (v.edit fun _ => m') ∧
    v.mem.Truncated stale f (sizeBlocks newsize).toNat (sizeBlocks (v.mem.size f)).toNat freed gone m' :=
  fileTruncateBlocks_on inv (.regular slot kind) current newsize

end FsM

end Jos.Fs
