import Jos.Fs.Alters
import Jos.Fs.ReadAfterWrite
import Jos.Fs.Resolve

namespace Jos.Fs

open Jos.Shared
open Jos.Kern (Word Byte)
open Volume (Growth Changes)

structure IsName (name : List Byte) : Prop where
  nonempty : name ≠ []
  short : name.length < maxnamelen
  nonzero : ∀ b ∈ name, b ≠ 0

def unnamed (blk : Block) (o : Nat) : Bool := byteAt blk o = 0

namespace Image

variable {m m' : Image} {tidy : Prop} {d f g : FilePtr} {name : List Byte} {names : List (List Byte)}

theorem Whole.of_persists (whole : m.Whole) (keeps : m.Persists m') (inv' : m'.Inv ∅)
    (same : ∀ g, m.Slot g → m.type g = ftypeDir → g ≠ d → m'.dirBlocks g = m.dirBlocks g)
    (there : m.Slot d → m.type d = ftypeDir → ∀ n < m'.dirBlocks d, ∃ c, Cell.ofBlock n = some c ∧
    m'.cell d c ≠ 0) : m'.Whole := by
  intro g slot kind n inside
  have old : m.Slot g :=
    (keeps.slot_cases inv' slot).resolve_right (not_not_intro (inv'.named_dir slot kind))
  have kind' : m.type g = ftypeDir := (keeps.type old).symm.trans kind
  by_cases here : g = d
  · subst here
    exact there old kind' n inside
  · rw [same g old kind' here] at inside
    obtain ⟨c, place, linked⟩ := whole g old kind' n inside
    exact ⟨c, place, (keeps.dirCell g c old kind' linked).trans_ne linked⟩

theorem Whole.of_sameMeta (whole : m.Whole) (same : m.SameMeta m') : m'.Whole := by
  intro g slot kind n inside
  have old := (same.slot g).mp slot
  rw [dirBlocks, same.size old] at inside
  obtain ⟨c, place, linked⟩ := whole g old ((same.type old).symm.trans kind) n inside
  exact ⟨c, place, (same.cell old c).trans_ne linked⟩

def Holds (m : Image) (d : FilePtr) (name : List Byte) (g : FilePtr) : Prop :=
  ∃ n j, m.Child d n j g ∧ strEq (m g.block) g.fName name = true

theorem mem_blockEntries {n : Nat} : g ∈ m.blockEntries d n ↔ ∃ j, m.Child d n j g := by
  unfold blockEntries Child
  cases place : Cell.ofBlock n with
  | none => simp
  | some c =>
    dsimp only
    by_cases hole : m.cell d c = 0
    · simp [hole]
    · simp [hole, eq_comm (a := g)]

theorem mem_entries (inv : m.Inv ∅) (trim : m.Trim tidy) (slot : m.Slot d) (kind : m.type d = ftypeDir) :
    g ∈ m.entries d ↔ ∃ n j, m.Child d n j g := by
  simp only [entries, List.mem_flatMap, List.mem_range, mem_blockEntries]
  constructor
  · rintro ⟨n, -, j, child⟩
    exact ⟨n, j, child⟩
  · rintro ⟨n, j, c, place, linked, small, rfl⟩
    refine ⟨n, ?_, j, c, place, linked, small, rfl⟩
    by_contra behind
    refine linked ((trim d slot (.inr kind)).2 n c place ?_)
    have blocks := (FsM.dirBlocks_eq (v := ⟨m, m, ∅⟩) inv slot kind trim).2
    exact blocks ▸ not_lt.mp behind

section Lookup

variable (inv : m.Inv ∅) (trim : m.Trim tidy)
include inv trim

theorem lookup_holds (slot : m.Slot d) (kind : m.type d = ftypeDir)
    (found : m.lookup d name = some g) : m.Holds d name g := by
  obtain ⟨n, j, child⟩ := (mem_entries inv trim slot kind).mp (List.mem_of_find?_eq_some found)
  exact ⟨n, j, child, by simpa using List.find?_some found⟩

omit inv trim in
theorem Holds.slot (held : m.Holds d name g) (slot : m.Slot d) (kind : m.type d = ftypeDir) :
    m.Slot g := by
  obtain ⟨n, j, child, -⟩ := held
  exact child.slot slot kind

theorem resolve_slot {dir : Option FilePtr} (slot : m.Slot f)
    (found : (m.resolve dir f names).result = .ok g) : m.Slot g := by
  induction names generalizing dir f with
  | nil =>
    cases found
    exact slot
  | cons name rest ih =>
    rcases next_or_stops m f name with ⟨f', kind, there, onward⟩ | ⟨e, stops⟩
    · rw [onward] at found
      exact ih ((lookup_holds inv trim slot kind there).slot slot kind) found
    · rw [(resolve_stops dir stops rest).1] at found
      cases found

end Lookup

end Image

def Volume.longer (v : Volume) (d : FilePtr) : Volume := v.edit fun m => m.resize d (v.mem.size d + 4096)

namespace FsM

variable {v v' : Volume} {tidy : Prop} {d f : FilePtr} {path name : List Byte} {init : List (List Byte)}

inductive Makes (v : Volume) (tidy : Prop) (path : List Byte) : Except Errno FilePtr → Volume → Prop
  | exists_ {f : FilePtr} (found : (v.mem.resolve none .root (components path)).result = .ok f) :
      Makes v tidy path (.error .fileExists) v
  | unplaced {e : Errno} (failed : (v.mem.resolve none .root (components path)).result = .error e)
      (unplaced : ∀ init name d, ¬v.mem.Missing (components path) init name d) :
      Makes v tidy path (.error e) v
  | placed {init : List (List Byte)} {name : List Byte} {d f : FilePtr} {n : Nat} {v' : Volume}
      (missing : v.mem.Missing (components path) init name d) (inside : n < v.mem.dirBlocks d)
      (first : v.mem.First d unnamed n f) (mem : v'.mem = v.mem.rename f name) :
      Makes v tidy path (.ok f) v'
  | added {init : List (List Byte)} {name : List Byte} {d : FilePtr} {b : Nat} {v₁ v' : Volume}
      (missing : v.mem.Missing (components path) init name d)
      (passed : ∀ n < v.mem.dirBlocks d, v.mem.Passed d unnamed n)
      (gets : Gets (v.longer d) ∅ tidy d (v.mem.dirBlocks d) (.ok b) v₁)
      (mem : v'.mem = v₁.mem.rename (.entry b 0) name) : Makes v tidy path (.ok (.entry b 0)) v'
  | full {init : List (List Byte)} {name : List Byte} {d : FilePtr} {e : Errno} {v' : Volume}
      (missing : v.mem.Missing (components path) init name d)
      (passed : ∀ n < v.mem.dirBlocks d, v.mem.Passed d unnamed n)
      (gets : Gets (v.longer d) ∅ tidy d (v.mem.dirBlocks d) (.error e) v') :
      Makes v tidy path (.error e) v'

section Directory

variable (inv : v.mem.Inv ∅) (trim : v.mem.Trim tidy) (slot : v.mem.Slot d)
    (kind : v.mem.type d = ftypeDir)
include inv trim slot kind

theorem size_of_there (there : ∀ n < v.mem.dirBlocks d, ∃ c, Cell.ofBlock n = some c ∧
    v.mem.cell d c ≠ 0) : (v.mem.size d).toNat ≤ maxfilesize := by
  by_contra big
  have many := (dirBlocks_eq inv slot kind trim).1
  have whole := inv.dirSize d slot kind
  rw [maxfilesize_eq] at big
  obtain ⟨c, place, -⟩ := there 1034 (by omega)
  rcases Cell.ofBlock_cases place with ⟨i, -, high⟩ | ⟨k, -, high⟩ <;> omega

theorem dirAllocFile_first {n : Nat} (inside : n < v.mem.dirBlocks d)
    (first : v.mem.First d unnamed n f) : Does (dirAllocFile d) v (.ok f) v :=
  .bind (scanDir_first inv slot kind trim inside first) (.pure _ _)

section Passed

variable (passed : ∀ n < v.mem.dirBlocks d, v.mem.Passed d unnamed n)
include passed

theorem size_of_passed : (v.mem.size d).toNat ≤ maxfilesize := by
  refine size_of_there inv trim slot kind fun n inside => ?_
  obtain ⟨c, place, linked, -⟩ := passed n inside
  exact ⟨c, place, linked⟩

theorem longer_change (safe : Prop) : Volume.Change tidy safe v (v.longer d) :=
  .extend slot kind (size_of_passed inv trim slot kind passed)

theorem toNat_longer : ((v.longer d).mem.size d).toNat = (v.mem.size d).toNat + 4096 := by
  have size : (v.longer d).mem.size d = v.mem.size d + 4096 :=
    (Image.size_resize inv slot _ slot).trans (if_pos rfl)
  rw [size, Image.toNat_extend (size_of_passed inv trim slot kind passed)]

theorem dirBlocks_longer : (v.longer d).mem.dirBlocks d = v.mem.dirBlocks d + 1 := by
  have bound := size_of_passed inv trim slot kind passed
  have grown := toNat_longer inv trim slot kind passed
  rw [maxfilesize_eq] at bound
  rw [(dirBlocks_eq inv slot kind trim).1, Image.dirBlocks, sdiv_block (by omega), grown]
  omega

theorem dirAllocFile_passed :
    ∃ r v', Does (dirAllocFile d) v (r.map (.entry · 0)) v' ∧
    Gets (v.longer d) ∅ tidy d (v.mem.dirBlocks d) r v' := by
  have extend := longer_change inv trim slot kind passed False
  have inv' : (v.longer d).mem.Inv ∅ := extend.inv' inv
  have keeps := extend.persists inv
  have slot' := keeps.slot d slot
  have room : v.mem.dirBlocks d < Image.blocksOf ((v.longer d).mem.size d) := by
    rw [Image.blocksOf, toNat_longer inv trim slot kind passed, (dirBlocks_eq inv slot kind trim).1]
    omega
  obtain ⟨r, v', does, gets⟩ := fileGetBlock_does inv' slot' (Set.notMem_empty d)
    (inv'.named_dir slot' ((keeps.type slot).trans kind)) (show (v.longer d).mem.Neat tidy d →
      _ from fun _ => room)
  have scanned := scanDir_passed inv slot kind trim passed
  have loaded : Does (load d.block d.fSize) v (v.mem.size d) v := load_does inv.small (slot.valid inv) _
  have stored : Does (store d.block d.fSize (v.mem.size d + 4096)) v () (v.longer d) :=
    store_does inv.small (slot.valid inv) _ _
  refine ⟨r, v', .bind scanned (.bind loaded (.bind stored (.bind does ?_))), gets⟩
  cases r with
  | error e => exact .pure _ _
  | ok b => exact .pure _ _

theorem longer_gets {b : Nat} (gets : Gets (v.longer d) ∅ tidy d (v.mem.dirBlocks d) (.ok b) v') :
    v'.mem.Inv ∅ ∧ v.mem.Persists v'.mem ∧ v'.mem.Child d (v.mem.dirBlocks d) 0 (.entry b 0) := by
  have extend := longer_change inv trim slot kind passed False
  have inv' : (v.longer d).mem.Inv ∅ := extend.inv' inv
  have keeps := extend.persists inv
  have ext := Growth.extends gets.growth inv'
  obtain ⟨c, place, target, present⟩ := gets.linked inv' (keeps.slot d slot)
  exact ⟨Growth.inv gets.growth inv', keeps.trans ext.toPersists, c, place,
    target.trans_ne present, by decide, by rw [target]⟩

end Passed

end Directory

theorem walkPath_whole (inv : v.mem.Inv ∅) (trim : v.mem.Trim tidy) (whole : v.mem.Whole)
    (path : List Byte) :
    Does (walkPath path) v (walked (v.mem.resolve none .root (components path))) v := by
  rw [← walkChars_walked, map_eq_pure_bind]
  exact .bind (walkChars_whole inv trim whole path) (.pure _ _)

theorem name_does (inv : v.mem.Inv ∅) (slot : v.mem.Slot d) (file : v.mem.Slot f)
    (short : name.length < maxnamelen) (nonempty : name ≠ []) (nonzero : ∀ b ∈ name, b ≠ 0) :
    ∃ v', Does
    (do change f.block (strcpy f.fName name); fileFlush d; pure (.ok f : Except Errno FilePtr)) v
    (.ok f) v' ∧
      v'.mem = v.mem.rename f name := by
  have same := Image.rename_sameMeta inv file short
  have renamed : Does (change f.block (strcpy f.fName name)) v () (v.edit fun m => m.rename f name) :=
    change_does inv.small (file.valid inv) _
  obtain ⟨v', flushed, flushing⟩ := fileFlush_does (v := v.edit fun m => m.rename f name) True
    (Image.rename_inv inv file short nonempty nonzero) ((same.slot d).mpr slot) (Set.notMem_empty d)
  exact ⟨v', .bind renamed (.bind flushed (.pure _ _)), flushing.mem⟩

theorem fileCreate_whole (inv : v.mem.Inv ∅) (trim : v.mem.Trim tidy) (whole : v.mem.Whole)
    (path : List Byte) (nonzero : ∀ b ∈ path, b ≠ 0) : ∃ r v', Does (fileCreate path) v r v' ∧
    Makes v tidy path r v' := by
  have walk := walkPath_whole inv trim whole path
  by_cases there : ∃ init name d, v.mem.Missing (components path) init name d
  · obtain ⟨init, name, d, missing⟩ := there
    rw [missing.resolve] at walk
    have slot : v.mem.Slot d := Image.resolve_slot inv trim .root missing.reached
    obtain ⟨nonempty, nonzero'⟩ := proper_components nonzero name (by simp [missing.last])
    rcases Image.first_or_passed (whole d slot missing.kind) unnamed with ⟨n, inside, f, first⟩ | passed
    · have allocated := dirAllocFile_first inv trim slot missing.kind inside first
      obtain ⟨v', named, mem⟩ :=
        name_does inv slot (first.slot slot missing.kind) missing.short nonempty nonzero'
      exact ⟨_, v', .bind walk (.bind allocated named), .placed missing inside first mem⟩
    · obtain ⟨r, v₁, allocated, gets⟩ := dirAllocFile_passed inv trim slot missing.kind passed
      cases r with
      | error e => exact ⟨_, v₁, .bind walk (.bind allocated (.pure _ _)), .full missing passed gets⟩
      | ok b =>
        obtain ⟨inv₁, keeps, child⟩ := longer_gets inv trim slot missing.kind passed gets
        have slot₁ := keeps.slot d slot
        obtain ⟨v', named, mem⟩ :=
          name_does inv₁ slot₁ (child.slot slot₁ ((keeps.type slot).trans missing.kind))
          missing.short nonempty nonzero'
        exact ⟨_, v', .bind walk (.bind allocated named), .added missing passed gets mem⟩
  · push Not at there
    cases found : (v.mem.resolve none .root (components path)).result with
    | ok f =>
      refine ⟨_, v, .bind walk ?_, .exists_ found⟩
      rw [walked, found]
      exact .pure _ _
    | error e =>
      have unset : (v.mem.resolve none .root (components path)).pdir = none := by
        by_contra set
        obtain ⟨init, name, d, missing⟩ := (Image.resolve_pdir found).mp set
        exact there init name d missing
      refine ⟨_, v, .bind (b := .error e) walk ?_, .unplaced found there⟩
      rw [walked, found, unset]
      cases e <;> exact .pure _ _

theorem Makes.whole (makes : Makes v tidy path (.ok f) v') (inv : v.mem.Inv ∅)
    (trim : v.mem.Trim tidy) (whole : v.mem.Whole) : v'.mem.Whole := by
  cases makes with
  | placed missing inside first mem =>
    have slot := Image.resolve_slot inv trim .root missing.reached
    rw [mem]
    exact whole.of_sameMeta (Image.rename_sameMeta inv (first.slot slot missing.kind) missing.short)
  | @added init name d b v₁ _ missing passed gets mem =>
    have slot := Image.resolve_slot inv trim .root missing.reached
    obtain ⟨inv₁, keeps, child⟩ := longer_gets inv trim slot missing.kind passed gets
    have slot₁ := keeps.slot d slot
    have longer := dirBlocks_longer inv trim slot missing.kind passed
    have extend := longer_change inv trim slot missing.kind passed False
    have inv' : (v.longer d).mem.Inv ∅ := extend.inv' inv
    have ext := Growth.extends gets.growth inv'
    have size : ∀ g, v.mem.Slot g → v₁.mem.dirBlocks g = (v.longer d).mem.dirBlocks g := by
      intro g slot'
      rw [Image.dirBlocks, Image.dirBlocks, ext.size ((extend.persists inv).slot g slot')]
    have whole₁ : v₁.mem.Whole := by
      refine whole.of_persists (d := d) keeps inv₁ (fun g slot' _ other => ?_) fun _ _ n inside => ?_
      · have kept : (v.longer d).mem.size g = v.mem.size g :=
          (Image.size_resize inv slot _ slot').trans (if_neg other)
        rw [size g slot', Image.dirBlocks, kept, Image.dirBlocks]
      · rw [size d slot, longer] at inside
        rcases Nat.lt_succ_iff_lt_or_eq.mp inside with before | rfl
        · obtain ⟨c, place, linked, -⟩ := passed n before
          exact ⟨c, place, (keeps.dirCell d c slot missing.kind linked).trans_ne linked⟩
        · obtain ⟨c, place, linked, -⟩ := child
          exact ⟨c, place, linked⟩
    rw [mem]
    exact whole₁.of_sameMeta
      (Image.rename_sameMeta inv₁ (child.slot slot₁ ((keeps.type slot).trans missing.kind)) missing.short)

end FsM

namespace Cache

variable {s : Cache}

theorem mount_wellFormed {n : Word} (low : 3 ≤ n.toNat) (high : n.toNat ≤ 32) :
    (mount (.empty n)).content.WellFormed := by
  rw [mount_content]
  exact Image.empty_wellFormed low high

theorem mount_whole (n : Word) : (mount (.empty n)).content.Whole := by
  intro d slot _ k inside
  rw [mount_content] at slot inside
  have none_ : (Image.empty n).size .root = 0 := by
    simp [Image.size, Image.empty, FilePtr.root, FilePtr.fSize, FilePtr.fType]
  rw [Image.slot_empty slot, Image.dirBlocks, none_] at inside
  exact absurd inside (Nat.not_lt_zero k)

def oneFile (n : Word) : Cache := (mount (.empty n)).perform (.fileCreate ⟨[0x2F, 0x61], slashA_path⟩)

theorem oneFile_good {n : Word} (low : 3 ≤ n.toNat) (high : n.toNat ≤ 32)
    (made : check (FsM.fileCreate [0x2F, 0x61]) (mount (.empty n)) (fun a _ => a.isOk) = true) :
    (oneFile n).Live ∧ (oneFile n).content.WellFormed ∧ (oneFile n).content.Whole := by
  have well : (mount (.empty n)).content.WellFormed := mount_wellFormed low high
  have whole := mount_whole n
  obtain ⟨live', well'⟩ : (oneFile n).Live ∧ (oneFile n).content.WellFormed :=
    perform_wellFormed ⟨mount_live _, well⟩ trivial
  obtain ⟨a, s', ran, ok⟩ := exists_of_check made
  have same : oneFile n = s' := by
    have done : (mount (.empty n)).operate (.fileCreate ⟨[0x2F, 0x61], slashA_path⟩) = some s' :=
      operate_eq (run_bind ran)
    rw [oneFile, perform, done]
    rfl
  refine ⟨live', well', ?_⟩
  obtain ⟨r, v', does, makes⟩ :=
    FsM.fileCreate_whole
    (v := (mount (.empty n)).volume) well.inv well.trim whole [0x2F, 0x61] (by decide)
  obtain ⟨_, ran', -, rfl⟩ := does _ (mount_live _) rfl
  cases ran.symm.trans ran'
  cases a with
  | error e => cases ok
  | ok f => exact same ▸ makes.whole well.inv well.trim whole

theorem walkChars_resolves (live : s.Live) (inv : s.content.Inv ∅) (trim : s.content.Trim False)
    (whole : s.content.Whole) (path : List Byte) :
    ∃ out s', FsM.walkChars path s = .ok out s' ∧ s'.content = s.content ∧
      out = s.content.resolve none .root (components path) ∧
      (components path = [] → out = ⟨.ok .root, none, none⟩) ∧
      (∀ init name f, components path = init ++ [name] → out.result = .ok f →
        ∃ d, (s.content.resolve none .root init).result = .ok d ∧
          (s.content.type d = ftypeDir ∧ s.content.lookup d name = some f) ∧ out.pdir = some d) ∧
      (∀ e, out.result = .error e ↔ ∃ init name rest d, components path = init ++ name :: rest ∧
        (s.content.resolve none .root init).result = .ok d ∧ s.content.Stops d name e) ∧
      (∀ e, out.result = .error e →
      (out.pdir ≠ none ↔ ∃ init name d, s.content.Missing (components path) init name d)) ∧
      ∀ init name d, s.content.Missing (components path) init name d →
      out = ⟨.error .notFound, some d, some name⟩ := by
  obtain ⟨s', ran, -, looks⟩ := FsM.walkChars_whole (v := s.volume) inv trim whole path s live rfl
  refine ⟨_, s', ran, congrArg Volume.mem looks, rfl, fun none => ?_,
    fun init name f last found => Image.resolve_found last found, fun e =>
    ⟨Image.resolve_error,
    fun ⟨init, name, rest, d, parts, reached, stops⟩ =>
    (Image.resolve_stuck parts reached stops).1⟩,
    fun e failed => Image.resolve_pdir failed, fun init name d missing => missing.resolve⟩
  rw [none]
  rfl

-- `/a/b`, where `/a` is a file.
theorem walkChars_resolves_below : ∃ out s', FsM.walkChars [0x2F, 0x61, 0x2F, 0x62] (oneFile 5) =
    .ok out s' ∧ out.result = .error .notFound ∧ out.pdir = none := by
  obtain ⟨live, well, whole⟩ := oneFile_good (n := 5) (by decide) (by decide) (by decide +kernel)
  obtain ⟨out, s', ran, -, -, -, -, failing, parent, -⟩ := walkChars_resolves live well.inv
    (fun f slot neat => well.trim f slot (.inl trivial)) whole [0x2F, 0x61, 0x2F, 0x62]
  have split : components [0x2F, 0x61, 0x2F, 0x62] = [[0x61]] ++ [0x62] :: [] := by decide
  have reached : ((oneFile 5).content.resolve none .root [[0x61]]).result = .ok (.entry 3 0) := by
    decide +kernel
  have file : (oneFile 5).content.type (.entry 3 0) ≠ ftypeDir := by decide +kernel
  have stuck : out.result = .error .notFound :=
    (failing .notFound).mpr ⟨_, _, _, _, split, reached, .file (by decide) file⟩
  refine ⟨out, s', ran, stuck, ?_⟩
  by_contra set
  obtain ⟨init, name, d, missing⟩ := (parent .notFound stuck).mp set
  obtain ⟨rfl, -⟩ := List.append_inj' (split.symm.trans missing.last) rfl
  cases missing.reached.symm.trans reached
  exact file missing.kind

-- A name of 128 characters is missing in the root directory, but `*pdir` is not set.
theorem long_name_unplaced : ∃ s path name out s', s.Live ∧ s.content.WellFormed ∧ s.content.Whole ∧
    (∀ b ∈ path, b ≠ 0) ∧ components path = [name] ∧ s.content.type .root = ftypeDir ∧
    s.content.lookup .root name = none ∧ FsM.walkChars path s = .ok out s' ∧
    out.result = .error .badPath ∧ out.pdir = none := by
  have well : (mount (.empty 5)).content.WellFormed := mount_wellFormed (by decide) (by decide)
  have whole := mount_whole 5
  have trim : (mount (.empty 5)).content.Trim False := fun f slot neat => well.trim f slot (.inl trivial)
  have single : components (List.replicate 128 0x61) = [List.replicate 128 0x61] := by decide +kernel
  obtain ⟨s', ran, -, -⟩ :=
    FsM.walkChars_whole
    (v := (mount (.empty 5)).volume) well.inv trim whole (List.replicate 128 0x61) _
    (mount_live _) rfl
  have parts : components (List.replicate 128 0x61) = [] ++ List.replicate 128 0x61 :: [] := single
  have stops : (mount (.empty 5)).content.Stops .root (List.replicate 128 0x61) .badPath :=
    .long (by simp [maxnamelen])
  obtain ⟨result, pdir, -⟩ := Image.resolve_stuck parts rfl stops
  refine ⟨_, _, List.replicate 128 0x61, _, s', mount_live _, well, whole, ?_, single,
    well.inv.rootDir, ?_, ran, result, pdir⟩
  · intro b member
    rw [List.eq_of_mem_replicate member]
    decide
  · rw [mount_content]
    decide +kernel

end Cache

end Jos.Fs
