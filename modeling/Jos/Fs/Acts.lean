import Jos.Fs.Truncate

namespace Jos.Fs

open Jos.Shared
open Jos.Kern (Word Byte)
open Function

namespace Image

variable {m m' : Image} {stale : Set FilePtr} {tidy : Prop} {f g : FilePtr} {freed gone : Set Cell}

structure Regular (m : Image) (f : FilePtr) : Prop where
  slot : m.Slot f
  named : m.Named f
  kind : m.type f ≠ ftypeDir

theorem Exact.congr (exact_ : m.Exact) (bitmap : m.SameBitmap m') (small : m.Small)
    (slots : ∀ f, m.Slot f → m'.Slot f) (cells : ∀ f c, m.Slot f → m'.cell f c = m.cell f c) :
    m'.Exact := by
  intro b high inside used
  have top := small.high
  rw [bitmap.nblocks] at inside
  rw [bitmap.free b (by omega)] at used
  obtain ⟨f, c, slot, target⟩ := exact_ b high inside used
  exact ⟨f, c, slots f slot, (cells f c slot).trans target⟩

theorem Trim.congr (trim : m.Trim tidy) (slots : ∀ f, m'.Slot f → m.Slot f)
    (types : ∀ f, m.Slot f → m'.type f = m.type f) (sizes : ∀ f, m.Slot f → m'.size f = m.size f)
    (cells : ∀ f c, m.Slot f → m'.cell f c = m.cell f c) : m'.Trim tidy := by
  intro f slot neat
  replace slot := slots f slot
  rw [Neat, types f slot] at neat
  rw [sizes f slot]
  exact ⟨(trim f slot neat).1,
    fun n c place after => (cells f c slot).trans ((trim f slot neat).2 n c place after)⟩

section Cut

variable (cut : m.Cut stale f freed gone m')
include cut

theorem Cut.exact (inv : m.Inv stale) (empty : ∀ c ∈ gone, c ∉ freed → m.cell f c = 0)
    (exact_ : m.Exact) : m'.Exact := by
  intro b high inside used
  have top := inv.small.high
  rw [cut.nblocks] at inside
  have kept : ¬(m.free b = true ∨ 3 ≤ b ∧ ∃ c ∈ freed, m.cell f c = b) := by
    rw [← cut.free b (by omega), used]
    decide
  obtain ⟨g, c, slot', target⟩ := exact_ b high inside (by simpa using fun free => kept (.inl free))
  refine ⟨g, c, (cut.slot g).mpr slot', (cut.kept g c slot' ?_).trans target⟩
  rintro ⟨rfl, dropped⟩
  by_cases here : c ∈ freed
  · exact kept (.inr ⟨high, c, here, target⟩)
  · have zero := empty c dropped here
    omega

theorem Cut.trim (trim : m.Trim tidy) : m'.Trim tidy := by
  intro g slot' neat
  rw [cut.slot] at slot'
  rw [Neat, cut.type slot'] at neat
  rw [cut.size slot']
  refine ⟨(trim g slot' neat).1, fun n c place after => ?_⟩
  exact (cut.cell_or slot' c).elim id fun same => same.trans ((trim g slot' neat).2 n c place after)

end Cut

theorem resize_trim {size : Word} (inv : m.Inv stale) (slot : m.Slot f) (trim : m.Trim tidy)
    (bound : m.Neat tidy f → size.toNat ≤ 2 * maxfilesize)
    (after : m.Neat tidy f → ∀ n c, Cell.ofBlock n = some c → blocksOf size ≤ n → m.cell f c = 0) :
    (m.resize f size).Trim tidy := by
  intro g slot' neat
  rw [slot_resize inv slot] at slot'
  rw [Neat, type_resize inv slot _ slot'] at neat
  rw [size_resize inv slot _ slot']
  split
  next here =>
    subst here
    exact ⟨bound neat,
      fun n c place behind => (cell_resize inv slot _ slot' c).trans (after neat n c place behind)⟩
  · exact ⟨(trim g slot' neat).1, fun n c place behind =>
      (cell_resize inv slot _ slot' c).trans ((trim g slot' neat).2 n c place behind)⟩

theorem resize_persists (inv : m.Inv stale) (slot : m.Slot f) (size : Word) :
    m.Persists (m.resize f size) where
  slot g := (slot_resize inv slot size g).mpr
  name g slot' x small := field_resize inv slot size slot' (by omega) (by omega)
  type slot' := type_resize inv slot size slot'
  dirCell d c slot' _ _ := cell_resize inv slot size slot' c
  fresh d c j slot' _ _ _ zero linked := absurd ((cell_resize inv slot size slot' c).trans zero) linked

theorem data_persists {c : Cell} (inv : m.Inv stale) (slot : m.Slot f) (current : f ∉ stale)
    (kind : m.type f ≠ ftypeDir) (data : c ≠ .indirect) (linked : m.cell f c ≠ 0) (blk : Block) :
    m.Persists (update m (m.cell f c) blk) := by
  have same := data_sameMeta inv slot current kind data linked blk
  refine ⟨fun g => (same.slot g).mpr, fun g slot' x _ => ?_, same.type,
    fun d c' slot' _ _ => same.cell slot' c', fun d c' j slot' _ _ _ zero linked' =>
    absurd ((same.cell slot' c').trans zero) linked'⟩
  rw [update_of_ne (slot.data_ne inv current kind data linked slot').1.symm]

theorem Cut.persists (cut : m.Cut stale f freed gone m') (kind : m.type f ≠ ftypeDir) :
    m.Persists m' := by
  have kept : ∀ d c, m.Slot d → m.type d = ftypeDir → m'.cell d c = m.cell d c := fun d c slot dir =>
    cut.kept d c slot fun here => kind (here.1 ▸ dir)
  exact ⟨fun g => (cut.slot g).mpr, fun g slot x small => cut.field g slot x (by omega), cut.type,
    fun d c slot dir _ => kept d c slot dir, fun d c j slot dir _ _ zero linked =>
      absurd ((kept d c slot dir).trans zero) linked⟩

theorem toNat_extend {size : Word} (bound : size.toNat ≤ maxfilesize) :
    (size + 4096).toNat = size.toNat + 4096 := by
  rw [maxfilesize_eq] at bound
  rw [BitVec.toNat_add, show (4096 : Word).toNat = 4096 from rfl]
  omega

end Image

namespace Volume

open Image (blocksOf toNat_extend)

inductive Grow (stale : Set FilePtr) (tidy : Prop) (v : Volume) : Volume → Prop
  | attach {f : FilePtr} {c : Cell} {p : Nat} (can : v.mem.Attaches stale tidy f c p) :
    Grow stale tidy v (v.attach f c p)
  | flush {b : Nat} (inside : b < v.mem.nblocks) : Grow stale tidy v (v.flush b)

abbrev Growth (stale : Set FilePtr) (tidy : Prop) : Volume → Volume → Prop :=
  Relation.ReflTransGen (Grow stale tidy)

/-- What the operations on files do, step by step, apart from giving a name to a new one. With
`tidy` no block is lost and none lies behind the end of a file; with `safe` an indirect block that
stays keeps its entries. -/
inductive Change (tidy safe : Prop) (v : Volume) : Volume → Prop
  | grow {v' : Volume} (step : Grow ∅ tidy v v') : Change tidy safe v v'
  | write {f : FilePtr} {c : Cell} (file : v.mem.Regular f) (data : c ≠ .indirect)
    (linked : v.mem.cell f c ≠ 0)
      (blk : Block) : Change tidy safe v (v.edit fun m => update m (m.cell f c) blk)
  | extend {f : FilePtr} (slot : v.mem.Slot f) (kind : v.mem.type f = ftypeDir)
      (bound : (v.mem.size f).toNat ≤ maxfilesize) :
      Change tidy safe v (v.edit fun m => m.resize f (v.mem.size f + 4096))
  | setSize {f : FilePtr} {freed gone : Set Cell} {m : Image} {size : Word} (file : v.mem.Regular f)
      (cut : v.mem.Cut ∅ f freed gone m) (bound : tidy → size.toNat ≤ 2 * maxfilesize)
      (empty : tidy → ∀ c ∈ gone, c ∉ freed → v.mem.cell f c = 0)
      (trim : tidy → ∀ n c, Cell.ofBlock n = some c → blocksOf size ≤ n → m.cell f c = 0)
      (entries : safe → m.indirect f ≠ 0 → ∀ k, m.cell f (.entry k) = v.mem.cell f (.entry k)) :
      Change tidy safe v ((v.edit fun _ => m.resize f size).flush f.block)

abbrev Changes (tidy safe : Prop) : Volume → Volume → Prop := Relation.ReflTransGen (Change tidy safe)

inductive Act (tidy safe : Prop) (v : Volume) : Volume → Prop
  | change {v' : Volume} (step : Change tidy safe v v') : Act tidy safe v v'
  | rename {f : FilePtr} {name : List Byte} (slot : v.mem.Slot f) (short : name.length < maxnamelen)
      (nonempty : name ≠ []) (nonzero : ∀ b ∈ name, b ≠ 0) :
      Act tidy safe v (v.edit fun m => m.rename f name)

abbrev Acts (tidy safe : Prop) : Volume → Volume → Prop := Relation.ReflTransGen (Act tidy safe)

variable {v v' : Volume} {stale : Set FilePtr} {tidy safe : Prop} {f g : FilePtr}

theorem Grow.inv (step : Grow stale tidy v v') (inv : v.mem.Inv stale) : v'.mem.Inv stale := by
  cases step with
  | attach can => exact Image.attach_inv inv can
  | flush inside => exact inv

theorem Grow.extends (step : Grow stale tidy v v') (inv : v.mem.Inv stale) :
    v.mem.Extends v'.mem stale := by
  cases step with
  | attach can => exact Image.attach_extends inv can
  | flush inside => exact .refl _ _

theorem Growth.inv (path : Growth stale tidy v v') (inv : v.mem.Inv stale) : v'.mem.Inv stale := by
  induction path with
  | refl => exact inv
  | tail _ step ih => exact step.inv ih

theorem Growth.extends (path : Growth stale tidy v v') (inv : v.mem.Inv stale) :
    v.mem.Extends v'.mem stale := by
  induction path with
  | refl => exact .refl _ _
  | tail path step ih => exact ih.trans (step.extends (Growth.inv path inv))

theorem Grow.trim (step : Grow stale tidy v v') (inv : v.mem.Inv stale) (trim : v.mem.Trim tidy) :
    v'.mem.Trim tidy := by
  cases step with
  | attach can => exact Image.attach_trim inv can trim
  | flush => exact trim

theorem Growth.trim (path : Growth stale tidy v v') (inv : v.mem.Inv stale)
    (trim : v.mem.Trim tidy) : v'.mem.Trim tidy := by
  induction path with
  | refl => exact trim
  | tail path step ih => exact step.trim (Growth.inv path inv) ih

namespace Change

variable (step : Change tidy safe v v') (inv : v.mem.Inv ∅)
include step inv

theorem inv' : v'.mem.Inv ∅ := by
  cases step with
  | grow step => exact step.inv inv
  | write file data linked blk =>
    exact Image.data_inv inv file.slot (Set.notMem_empty _) file.kind data linked blk
  | extend slot kind =>
    refine Image.resize_inv inv slot _ (inv.named_dir slot kind) fun _ => ?_
    have whole := inv.dirSize _ slot kind
    rw [BitVec.toNat_add, show (4096 : Word).toNat = 4096 from rfl]
    omega
  | setSize file cut =>
    have slot := (cut.slot _).mpr file.slot
    refine Image.resize_inv cut.inv slot _ ((cut.named file.slot).mpr file.named) fun kind => ?_
    exact absurd ((cut.type file.slot).symm.trans kind) file.kind

theorem persists : v.mem.Persists v'.mem := by
  cases step with
  | grow step => exact (step.extends inv).toPersists
  | write file data linked blk =>
    exact Image.data_persists inv file.slot (Set.notMem_empty _) file.kind data linked blk
  | extend here => exact Image.resize_persists inv here _
  | setSize file cut =>
    have here := (cut.slot _).mpr file.slot
    exact (cut.persists file.kind).trans (Image.resize_persists cut.inv here _)

theorem exact (tidy : tidy) (exact_ : v.mem.Exact) : v'.mem.Exact := by
  cases step with
  | grow step =>
    cases step with
    | attach can => exact Image.attach_exact inv can exact_
    | flush => exact exact_
  | write file data linked blk =>
    have same := Image.data_sameMeta inv file.slot (Set.notMem_empty _) file.kind data linked blk
    exact exact_.congr (Image.sameBitmap_data inv file.slot (Set.notMem_empty _) linked blk) inv.small
      (fun f => (same.slot f).mpr) fun f c slot => same.cell slot c
  | extend slot =>
    exact exact_.congr (Image.sameBitmap_put inv slot _ 32) inv.small
      (fun f => (Image.slot_resize inv slot _ f).mpr) fun f c slot' =>
      Image.cell_resize inv slot _ slot' c
  | setSize file cut _ empty =>
    have slot := (cut.slot _).mpr file.slot
    exact (cut.exact inv (empty tidy) exact_).congr (Image.sameBitmap_put cut.inv slot _ 32) cut.inv.small
      (fun f => (Image.slot_resize cut.inv slot _ f).mpr) fun f c slot' =>
        Image.cell_resize cut.inv slot _ slot' c

theorem trim (trim : v.mem.Trim tidy) : v'.mem.Trim tidy := by
  cases step with
  | grow step => exact step.trim inv trim
  | write file data linked blk =>
    have same := Image.data_sameMeta inv file.slot (Set.notMem_empty _) file.kind data linked blk
    exact trim.congr (fun f => (same.slot f).mp) (fun f slot => same.type slot)
      (fun f slot => same.size slot) fun f c slot => same.cell slot c
  | @extend f slot kind bound =>
    have grown := toNat_extend bound
    rw [maxfilesize_eq] at bound
    refine Image.resize_trim inv slot trim (fun _ => ?_) fun neat n c place behind =>
      (trim f slot neat).2 n c place ?_
    · rw [grown, maxfilesize_eq]
      omega
    · rw [blocksOf, grown] at behind
      rw [blocksOf]
      omega
  | setSize file cut bound _ after =>
    have slot := (cut.slot _).mpr file.slot
    exact Image.resize_trim cut.inv slot (cut.trim trim)
      (fun neat => bound (neat.resolve_right ((cut.type file.slot).trans_ne file.kind)))
      fun neat => after (neat.resolve_right ((cut.type file.slot).trans_ne file.kind))

end Change

namespace Changes

variable (path : Changes tidy safe v v') (inv : v.mem.Inv ∅)
include path inv

theorem inv' : v'.mem.Inv ∅ := by
  induction path with
  | refl => exact inv
  | tail _ step ih => exact step.inv' ih

theorem persists : v.mem.Persists v'.mem := by
  induction path with
  | refl => exact .refl _
  | tail path step ih => exact ih.trans (step.persists (Changes.inv' path inv))

theorem trim (trim : v.mem.Trim tidy) : v'.mem.Trim tidy := by
  induction path with
  | refl => exact trim
  | tail path step ih => exact step.trim (Changes.inv' path inv) ih

end Changes

namespace Act

variable (step : Act tidy safe v v') (inv : v.mem.Inv ∅)
include step inv

theorem inv' : v'.mem.Inv ∅ := by
  cases step with
  | change step => exact step.inv' inv
  | rename slot short nonempty nonzero => exact Image.rename_inv inv slot short nonempty nonzero

theorem exact (tidy : tidy) (exact_ : v.mem.Exact) : v'.mem.Exact := by
  cases step with
  | change step => exact step.exact inv tidy exact_
  | rename slot short =>
    have same := Image.rename_sameMeta inv slot short
    exact exact_.congr (Image.sameBitmap_rename inv slot) inv.small (fun f => (same.slot f).mpr)
      fun f c slot' => same.cell slot' c

theorem trim (trim : v.mem.Trim tidy) : v'.mem.Trim tidy := by
  cases step with
  | change step => exact step.trim inv trim
  | rename slot short =>
    have same := Image.rename_sameMeta inv slot short
    exact trim.congr (fun f => (same.slot f).mp) (fun f slot => same.type slot)
      (fun f slot => same.size slot) fun f c slot => same.cell slot c

end Act

namespace Acts

variable (path : Acts tidy safe v v') (inv : v.mem.Inv ∅)
include path inv

theorem inv' : v'.mem.Inv ∅ := by
  induction path with
  | refl => exact inv
  | tail _ step ih => exact step.inv' ih

theorem exact (exact_ : tidy → v.mem.Exact) (tidy : tidy) : v'.mem.Exact := by
  induction path with
  | refl => exact exact_ tidy
  | tail path step ih => exact step.exact (Acts.inv' path inv) tidy ih

theorem trim (trim : v.mem.Trim tidy) : v'.mem.Trim tidy := by
  induction path with
  | refl => exact trim
  | tail path step ih => exact step.trim (Acts.inv' path inv) ih

end Acts

theorem Growth.changes (path : Growth ∅ tidy v v') : Changes tidy safe v v' := by
  induction path with
  | refl => exact .refl
  | tail _ step ih => exact ih.tail (.grow step)

theorem Changes.acts (path : Changes tidy safe v v') : Acts tidy safe v v' := by
  induction path with
  | refl => exact .refl
  | tail _ step ih => exact ih.tail (.change step)

end Volume

end Jos.Fs
