import Jos.Fs.Find
import Jos.Fs.Ownership

namespace Jos.Fs

open Jos.Shared
open Jos.Kern (Word Byte)
open Volume (Growth)

namespace Image

variable {m m' m'' : Image} {d f g : FilePtr} {may : FilePtr → Word → Prop} {tidy : Prop}

theorem not_named_entry {b j : Nat} (unnamed : byteAt (m b) (256 * j) = 0) : ¬m.Named (.entry b j) := by
  rintro (root | name)
  · have base := congrArg FilePtr.base root
    simp only [FilePtr.entry, FilePtr.root] at base
    omega
  · rw [FilePtr.fName_entry] at name
    exact name unnamed

theorem Persists.slot_cases (keeps : m.Persists m') (inv : m'.Inv ∅) (slot : m'.Slot g) : m.Slot g ∨
    ¬m'.Named g := by
  induction slot with
  | root => exact .inl .root
  | @entry d c j dir kind data present place ih =>
    have old : m.Slot d := ih.resolve_right (not_not_intro (inv.named_dir dir kind))
    have kind' := (keeps.type old).symm.trans kind
    by_cases new : m.cell d c = 0
    · exact .inr (not_named_entry (keeps.fresh d c j old kind' data place new present))
    · rw [keeps.dirCell d c old kind' new]
      exact .inl (.entry old kind' data new place)

/-- What has become of the files: `may g w` says that `g` may have been changed, and have got size
`w`. -/
structure Alters (m : Image) (may : FilePtr → Word → Prop) (m' : Image) : Prop where
  slot : ∀ g, m.Slot g → m'.Slot g
  type : ∀ g, m.Slot g → m'.type g = m.type g
  named : ∀ g, m.Slot g → m.Named g → m'.Named g
  size : ∀ g, m.Slot g → m'.size g = m.size g ∨ may g (m'.size g)
  fresh : ∀ g, m'.Slot g → ¬m.Slot g → m'.size g = 0 ∨ may g (m'.size g)
  raw : ∀ g, m.Regular g → (∀ w, ¬may g w) → m'.raw g = m.raw g

namespace Alters

theorem refl (m : Image) : m.Alters may m :=
  ⟨fun _ slot => slot, fun _ _ => rfl, fun _ _ named => named, fun _ _ => .inl rfl,
    fun _ slot new => absurd slot new, fun _ _ _ => rfl⟩

theorem regular (alters : m.Alters may m') (file : m.Regular g) : m'.Regular g :=
  ⟨alters.slot g file.slot, alters.named g file.slot file.named,
    (alters.type g file.slot).trans_ne file.kind⟩

theorem trans (alters : m.Alters may m') (alters' : m'.Alters may m'') : m.Alters may m'' where
  slot g slot := alters'.slot g (alters.slot g slot)
  type g slot := (alters'.type g (alters.slot g slot)).trans (alters.type g slot)
  named g slot named := alters'.named g (alters.slot g slot) (alters.named g slot named)
  size g slot := by
    rcases alters'.size g (alters.slot g slot) with same | changed
    · rw [same]
      exact alters.size g slot
    · exact .inr changed
  fresh g slot new := by
    by_cases old : m'.Slot g
    · rcases alters'.size g old with same | changed
      · rw [same]
        exact alters.fresh g old new
      · exact .inr changed
    · exact alters'.fresh g slot old
  raw g file not := (alters'.raw g (alters.regular file) not).trans (alters.raw g file not)

theorem mono {may' : FilePtr → Word → Prop} (alters : m.Alters may m')
    (more : ∀ g w, may g w → may' g w) : m.Alters may' m' :=
  ⟨alters.slot, alters.type, alters.named, fun g slot => (alters.size g slot).imp_right (more g _),
    fun g slot new => (alters.fresh g slot new).imp_right (more g _), fun g file not =>
      alters.raw g file fun w here => not w (more g w here)⟩

theorem of_persists (keeps : m.Persists m') (inv : m'.Inv ∅)
    (size : ∀ g, m.Slot g → m'.size g = m.size g ∨ may g (m'.size g))
    (raw : ∀ g, m.Regular g → (∀ w, ¬may g w) → m'.raw g = m.raw g) : m.Alters may m' where
  slot := keeps.slot
  type _ slot := keeps.type slot
  named _ slot := (keeps.named slot).mpr
  size := size
  fresh g slot new := by
    have unnamed := (keeps.slot_cases inv slot).resolve_left new
    simp only [Named, not_or, ne_eq, not_not] at unnamed
    exact .inl (inv.vacant g slot unnamed.1 unnamed.2).1
  raw := raw

end Alters

theorem CutTo.inv {size : Word} (file : m.Regular f) (cutTo : m.CutTo f size m') : m'.Inv ∅ := by
  obtain ⟨freed, gone, m₁, cut, rfl⟩ := cutTo
  refine resize_inv cut.inv ((cut.slot f).mpr file.slot) size ((cut.named file.slot).mpr file.named)
    fun kind => ?_
  exact absurd ((cut.type file.slot).symm.trans kind) file.kind

section Steps

variable (inv : m.Inv ∅)
include inv

theorem Wrote.alters {o : Nat} {xs : List Byte} (slot : m.Slot f) (wrote : m.Wrote f o xs m')
    (inv' : m'.Inv ∅) (permitted : ∃ w, may f w) : m.Alters may m' := by
  refine .of_persists wrote.persists inv' (fun g slot => .inl (wrote.size g slot)) fun g file not => ?_
  have other : g ≠ f := fun same => permitted.elim fun w here => not w (same ▸ here)
  exact wrote.others g file.slot other (file.slot.outside inv (Set.notMem_empty g) file.kind slot)

theorem resize_alters {size : Word} (slot : m.Slot f) (inv' : (m.resize f size).Inv ∅)
    (permitted : may f size) : m.Alters may (m.resize f size) := by
  refine .of_persists (resize_persists inv slot size) inv' (fun g slot' => ?_) fun g file not => ?_
  · rw [size_resize inv slot size slot']
    split
    next here => exact .inr (here ▸ permitted)
    · exact .inl rfl
  · exact raw_resize inv slot size file.slot (file.slot.outside inv (Set.notMem_empty g) file.kind slot)

theorem Cut.raw {freed gone : Set Cell} (slot : m.Slot f) (cut : m.Cut ∅ f freed gone m')
    (file : m.Regular g) (other : g ≠ f) : m'.raw g = m.raw g := by
  funext i
  unfold Image.raw
  split
  · rfl
  next c place =>
    have data := Cell.ofBlock_data place
    rw [cut.kept g c file.slot fun here => other here.1]
    split
    · rfl
    next linked =>
      have apart := file.slot.data_ne inv (Set.notMem_empty g) file.kind data linked slot
      have high := (inv.range g c file.slot (.of_mem (Set.notMem_empty g)) linked).1
      rw [cut.blocks _ (by omega) apart.1 fun _ => apart.2]

theorem CutTo.alters {size : Word} (file : m.Regular f) (cutTo : m.CutTo f size m')
    (permitted : may f size) : m.Alters may m' := by
  have inv' := cutTo.inv file
  obtain ⟨freed, gone, m₁, cut, rfl⟩ := cutTo
  have slot := (cut.slot f).mpr file.slot
  have first : m.Alters may m₁ :=
    .of_persists (cut.persists file.kind) cut.inv (fun g slot => .inl (cut.size slot)) fun g here not =>
      cut.raw inv file.slot here fun same => not size (same ▸ permitted)
  exact first.trans (resize_alters cut.inv slot inv' permitted)

theorem rename_alters {name : List Byte} (slot : m.Slot f) (short : name.length < maxnamelen)
    (nonempty : name ≠ []) (nonzero : ∀ b ∈ name, b ≠ 0) : m.Alters may (m.rename f name) := by
  have same := rename_sameMeta inv slot short
  refine ⟨fun g => (same.slot g).mpr, fun g slot' => same.type slot', fun g slot' named => ?_,
    fun g slot' => .inl (same.size slot'), fun g slot' new => absurd ((same.slot g).mp slot') new,
    fun g file _ => ?_⟩
  · by_cases here : g = f
    · subst here
      exact .inr (name_rename nonempty nonzero)
    · have word := field_rename inv slot short slot' (show 0 < 64 by decide) (.inl here)
      have index : g.fName / 4 = g.base + 0 := by simp [FilePtr.fName]
      rw [Named, byteAt, index, word, ← index]
      exact named
  · funext i
    unfold Image.raw
    split
    · rfl
    next c place =>
      rw [same.cell file.slot c]
      split
      · rfl
      next linked =>
        have outside := file.slot.outside inv (Set.notMem_empty g) file.kind slot
        rw [rename, Function.update_of_ne (outside c (Cell.ofBlock_data place) linked)]

end Steps

end Image

section Volume

variable {v v' : Volume} {tidy : Prop} {may : FilePtr → Word → Prop} {d f : FilePtr} {path : List Byte}

theorem Volume.Growth.alters (growth : Growth ∅ tidy v v') (inv : v.mem.Inv ∅) :
    v.mem.Alters may v'.mem := by
  have ext := Growth.extends growth inv
  exact .of_persists ext.toPersists (Growth.inv growth inv) (fun g slot => .inl (ext.size slot))
    fun g file _ =>
    ext.raw g file.slot file.kind (Set.notMem_empty g)

theorem Volume.Widens.alters (widens : v.Widens tidy d v') (inv : v.mem.Inv ∅) (slot : v.mem.Slot d)
    (kind : v.mem.type d = ftypeDir)
    (permitted : (v.mem.size d).toNat ≤ maxfilesize → may d (v.mem.size d + 4096)) :
    v.mem.Alters may v'.mem ∧ v'.mem.Inv ∅ := by
  cases widens with
  | same growth => exact ⟨Growth.alters growth inv, Growth.inv growth inv⟩
  | @more v₁ _ growth bound rest =>
    have ext := Growth.extends growth inv
    have inv₁ := Growth.inv growth inv
    have slot₁ := ext.slot d slot
    rw [ext.size slot] at bound
    have extend : Volume.Change tidy False v₁ (v₁.edit fun m => m.resize d (v₁.mem.size d + 4096)) :=
      .extend slot₁ ((ext.type slot).trans kind) (by rw [ext.size slot]; exact bound)
    have inv₂ := extend.inv' inv₁
    have longer : may d (v₁.mem.size d + 4096) := by
      rw [ext.size slot]
      exact permitted bound
    exact ⟨((Growth.alters growth inv).trans (Image.resize_alters inv₁ slot₁ inv₂ longer)).trans
      (Growth.alters rest inv₂), Growth.inv rest inv₂⟩

namespace FsM.Builds

variable {r : Except Errno FilePtr}

theorem alters (builds : Builds v tidy path r v') (inv : v.mem.Inv ∅) (nonzero : ∀ b ∈ path, b ≠ 0)
    (permitted : ∀ init name d, components path = init ++ [name] → v.mem.Leads .root init d →
    v.mem.type d = ftypeDir →
      (v.mem.size d).toNat ≤ maxfilesize → may d (v.mem.size d + 4096)) : v.mem.Alters may v'.mem := by
  have widened : ∀ {init name d v₁ v'}, components path = init ++ [name] → Growth ∅ tidy v v₁ →
    v₁.mem.Path .root init d →
      v₁.mem.type d = ftypeDir → v₁.Widens tidy d v' → v.mem.Alters may v'.mem ∧ v'.mem.Inv ∅ := by
    intro init name d v₁ v' last growth reached kind widens
    have ext := Growth.extends growth inv
    have proper : Proper (init ++ [name]) := last ▸ proper_components nonzero
    obtain ⟨leads, slot⟩ := reached.leads.before ext.toPersists .root proper.before
    have kind' := (ext.type slot).symm.trans kind
    obtain ⟨alters, inv'⟩ : v₁.mem.Alters may v'.mem ∧ v'.mem.Inv ∅ :=
      widens.alters (Growth.inv growth inv) (reached.slot .root) kind (by
        rw [ext.size slot]
        exact permitted init name d last leads kind')
    exact ⟨(Growth.alters growth inv).trans alters, inv'⟩
  cases builds with
  | failed growth => exact Growth.alters growth inv
  | full last growth reached kind widens => exact (widened last growth reached kind widens).1
  | made last growth reached kind widens vacancy mem =>
    obtain ⟨alters, inv₂⟩ := widened last growth reached kind widens
    obtain ⟨n, j, child, -⟩ := vacancy.child
    rw [mem]
    exact alters.trans (Image.rename_alters inv₂ (child.slot vacancy.slot vacancy.kind)
      vacancy.short vacancy.nonempty vacancy.nonzero)

theorem regular (builds : Builds v tidy path (.ok f) v') (inv : v.mem.Inv ∅) : v'.mem.Regular f ∧
    ¬v.mem.Regular f := by
  cases builds with
  | @made _ name d _ v₁ v₂ _ last growth reached kind widens vacancy mem =>
    obtain ⟨alters, inv₂⟩ : v₁.mem.Alters (fun _ _ => True) v₂.mem ∧ v₂.mem.Inv ∅ :=
      widens.alters (Growth.inv growth inv) (reached.slot .root) kind fun _ => trivial
    obtain ⟨n, j, child, -⟩ := vacancy.child
    have slot := child.slot vacancy.slot vacancy.kind
    have unnamed : ¬v₂.mem.Named f := by
      have name := vacancy.unnamed
      obtain ⟨c, -, -, -, rfl⟩ := child
      rw [FilePtr.fName_entry] at name
      exact Image.not_named_entry name
    have same := Image.rename_sameMeta inv₂ slot vacancy.short
    refine ⟨?_, fun file => unnamed ?_⟩
    · have other : f ≠ .root := fun root => unnamed (.inl root)
      have kind₀ := (inv₂.vacant f slot other vacancy.unnamed).2.1
      rw [mem]
      exact ⟨(same.slot f).mpr slot, .inr (Image.name_rename vacancy.nonempty vacancy.nonzero),
        (same.type slot).trans_ne (kind₀.trans_ne (by decide))⟩
    · have ext := Growth.extends growth inv
      exact alters.named f (ext.slot f file.slot) ((ext.named file.slot).mpr file.named)

end FsM.Builds

end Volume

end Jos.Fs
