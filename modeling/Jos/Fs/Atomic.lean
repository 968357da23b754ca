import Jos.Fs.ReadAfterWrite
import Jos.Fs.Whole

namespace Jos.Fs

open Jos.Shared
open Jos.Kern (Word Byte)

namespace Image

variable {m m' : Image} {tidy : Prop} {d f g : FilePtr} {name : List Byte}
    {names : List (List Byte)} {n : Nat}

def nameOf (m : Image) (f : FilePtr) : List Byte :=
  ((List.range maxnamelen).map fun k => byteAt (m f.block) (f.fName + k)).takeWhile (· ≠ 0)

def listing (m : Image) (d : FilePtr) : List (FilePtr × List Byte) :=
  ((m.entries d).filter fun f => byteAt (m f.block) f.fName ≠ 0).map fun f => (f, m.nameOf f)

structure Alike (m m' : Image) : Prop where
  size : ∀ f, m.Slot f → m.Named f → m'.size f = m.size f
  bytes : ∀ f, m.Regular f → ∀ i < (m.size f).toNat, m'.raw f i = m.raw f i
  listing : ∀ d, m.Slot d → m.type d = ftypeDir → m'.listing d = m.listing d
  resolve : ∀ path : List Byte, (∀ b ∈ path, b ≠ 0) →
    m'.resolve none .root (components path) = m.resolve none .root (components path)

theorem Alike.refl (m : Image) : m.Alike m :=
  ⟨fun _ _ _ => rfl, fun _ _ _ _ => rfl, fun _ _ _ => rfl, fun _ _ => rfl⟩

section Persists

variable (keeps : m.Persists m')
include keeps

theorem Persists.name_at (slot : m.Slot g) {k : Nat} (small : k < maxnamelen) :
    byteAt (m' g.block) (g.fName + k) = byteAt (m g.block) (g.fName + k) := by
  have index : (g.fName + k) / 4 = g.base + k / 4 := by
    rw [FilePtr.fName]
    omega
  simp only [maxnamelen] at small
  rw [byteAt, byteAt, index, keeps.name g slot (k / 4) (by omega)]

theorem Persists.nameOf (slot : m.Slot g) : m'.nameOf g = m.nameOf g := by
  have bytes : (List.range maxnamelen).map (fun k => byteAt (m' g.block) (g.fName + k)) =
      (List.range maxnamelen).map (fun k => byteAt (m g.block) (g.fName + k)) :=
    List.map_congr_left fun k member => keeps.name_at slot (List.mem_range.mp member)
  rw [Image.nameOf, Image.nameOf, bytes]

variable (slot : m.Slot d) (kind : m.type d = ftypeDir)
include slot kind

theorem Persists.blockEntries (n : Nat) : m'.blockEntries d n = m.blockEntries d n ∨
    m.blockEntries d n = [] ∧ ∀ g ∈ m'.blockEntries d n, byteAt (m' g.block) g.fName = 0 := by
  unfold Image.blockEntries
  cases place : Cell.ofBlock n with
  | none => exact .inl rfl
  | some c =>
    dsimp only
    by_cases new : m.cell d c = 0
    · refine .inr ⟨if_pos new, fun g member => ?_⟩
      by_cases still : m'.cell d c = 0
      · rw [if_pos still] at member
        cases member
      · rw [if_neg still] at member
        obtain ⟨j, small, rfl⟩ := List.mem_map.mp member
        rw [FilePtr.fName_entry]
        exact keeps.fresh d c j slot kind (Cell.ofBlock_data place) (List.mem_range.mp small) new still
    · rw [keeps.dirCell d c slot kind new]; exact .inl rfl

omit keeps in
theorem slot_of_blockEntries (member : g ∈ m.blockEntries d n) : m.Slot g := by
  obtain ⟨j, child⟩ := mem_blockEntries.mp member
  exact child.slot slot kind

theorem Persists.listing (size : m'.size d = m.size d) : m'.listing d = m.listing d := by
  have blocks : m'.dirBlocks d = m.dirBlocks d := by rw [dirBlocks, size, dirBlocks]
  simp only [Image.listing, entries, List.filter_flatMap, List.map_flatMap, blocks]
  refine congrArg List.flatten (List.map_congr_left fun n _ => ?_)
  rcases keeps.blockEntries slot kind n with same | ⟨none_, unnamed⟩
  · rw [same]
    have named : (m.blockEntries d n).filter (fun f => byteAt (m' f.block) f.fName ≠ 0) =
        (m.blockEntries d n).filter (fun f => byteAt (m f.block) f.fName ≠ 0) :=
      List.filter_congr fun g member => by
        have first :=
          keeps.name_at (slot_of_blockEntries slot kind member) (show 0 < maxnamelen by decide)
        rw [Nat.add_zero] at first
        rw [first]
    rw [named]
    refine List.map_congr_left fun g member => ?_
    rw [keeps.nameOf (slot_of_blockEntries slot kind (List.mem_filter.mp member).1)]
  · have empty : (m'.blockEntries d n).filter (fun f => byteAt (m' f.block) f.fName ≠ 0) = [] := by
      rw [List.filter_eq_nil_iff]
      intro g member
      simp [unnamed g member]
    rw [empty, none_]
    rfl

theorem Persists.lookup (size : m'.size d = m.size d) (isName : IsName name) :
    m'.lookup d name = m.lookup d name := by
  have blocks : m'.dirBlocks d = m.dirBlocks d := by rw [dirBlocks, size, dirBlocks]
  simp only [Image.lookup, entries, List.find?_flatMap, blocks]
  refine congrArg (List.findSome? · _) (funext fun n => ?_)
  rcases keeps.blockEntries slot kind n with same | ⟨none_, unnamed⟩
  · rw [same]
    refine List.find?_congr fun g member => ?_
    have slot' := slot_of_blockEntries slot kind member
    obtain ⟨j, c, -, -, -, rfl⟩ := mem_blockEntries.mp member
    rw [FilePtr.fName_entry]
    exact keeps.hits_eq (nameOnly_strEq isName.short) slot'
  · rw [none_, List.find?_nil, List.find?_eq_none]
    intro g member
    rw [strEq_of_unnamed (unnamed g member) isName.nonempty isName.nonzero]
    exact Bool.false_ne_true

end Persists

section Tree

variable (keeps : m.Persists m') (inv : m.Inv ∅) (trim : m.Trim tidy)
  (size : ∀ g, m.Slot g → m.type g = ftypeDir → m'.size g = m.size g)
include keeps inv trim size

theorem Persists.resolve (dir : Option FilePtr) (slot : m.Slot f) (proper : Proper names) :
    m'.resolve dir f names = m.resolve dir f names := by
  induction names generalizing dir f with
  | nil => rfl
  | cons part rest ih =>
    obtain ⟨nonempty, nonzero⟩ := proper part List.mem_cons_self
    unfold Image.resolve
    by_cases long : maxnamelen ≤ part.length
    · rw [if_pos long, if_pos long]
    · rw [if_neg long, if_neg long, keeps.type slot]
      by_cases kind : m.type f = ftypeDir
      · have dir' : ¬m.type f ≠ ftypeDir := by simpa using kind
        rw [if_neg dir', if_neg dir',
          keeps.lookup slot kind (size f slot kind) ⟨nonempty, by omega, nonzero⟩]
        cases found : m.lookup f part with
        | none => rfl
        | some g =>
          exact ih (some f) ((lookup_holds inv trim slot kind found).slot slot kind)
            proper.tail
      · rw [if_pos kind, if_pos kind]

end Tree

-- A new file needs a new block of its directory, and there is none.
def Crowded (m : Image) (path : List Byte) : Prop :=
  ∃ init name d, m.Missing (components path) init name d ∧ (∀ n < m.dirBlocks d, m.Passed d unnamed n) ∧
    ∀ c, Cell.ofBlock (m.dirBlocks d) = some c → m.freeBlocks < m.need d (Cell.needed (m.dirBlocks d))

theorem Missing.unique {init init' : List (List Byte)} {name' : List Byte} {d' : FilePtr}
    (missing : m.Missing names init name d) (missing' : m.Missing names init' name' d') :
    d' = d := by
  obtain ⟨rfl, -⟩ := List.append_inj' (missing.last.symm.trans missing'.last) rfl
  exact Except.ok.inj (missing'.reached.symm.trans missing.reached)

end Image

namespace FsM

variable {v v' : Volume} {tidy : Prop} {d : FilePtr} {path : List Byte} {r : Except Errno FilePtr}

end FsM

namespace Cache

variable {s : Cache} {f : FilePtr}

section Examples

end Examples

end Cache

end Jos.Fs
