import Jos.Fs.Create

namespace Jos.Fs

open Jos.Shared
open Jos.Kern (Word Byte)

namespace FsM

variable {v v' : Volume} {stale : Set FilePtr} {tidy : Prop} {d f : FilePtr} {n : Nat} {c : Cell}
  {hits : Block → Nat → Bool} {r : Except Errno Nat}

theorem Gets.of_linked (gets : Gets v stale tidy f n r v') (place : Cell.ofBlock n = some c)
    (linked : v.mem.cell f c ≠ 0) : r = .ok (v.mem.cell f c) ∧ v' = v := by
  have entry : ∀ {k}, Cell.ofBlock n = some (.entry k) → v.mem.cell f .indirect ≠ 0 := by
    intro k place' none
    cases place.symm.trans place'
    exact linked (if_pos none)
  cases gets with
  | outside none => cases place.symm.trans none
  | present place' =>
    cases place.symm.trans place'
    exact ⟨rfl, rfl⟩
  | full place' hole =>
    cases place.symm.trans place'
    exact absurd hole linked
  | attached place' can =>
    cases place.symm.trans place'
    exact absurd can.vacant linked
  | half place' can => exact absurd can.vacant (entry place')
  | both place' can => exact absurd can.vacant (entry place')

section Present

variable (inv : v.mem.Inv stale) (slot : v.mem.Slot d) (kind : v.mem.type d = ftypeDir)
    (trim : v.mem.Trim tidy)
include inv slot kind trim

theorem fileGetBlock_linked (place : Cell.ofBlock n = some c) (linked : v.mem.cell d c ≠ 0) :
    Does (fileGetBlock d n) v (.ok (v.mem.cell d c)) v := by
  have current : d ∉ stale := fun old => inv.regular d old slot kind
  have room : v.mem.Neat tidy d → n < Image.blocksOf (v.mem.size d) := by
    intro neat
    by_contra behind
    exact linked ((trim d slot neat).2 n c place (by omega))
  obtain ⟨r, v', does, gets⟩ := fileGetBlock_does inv slot current (inv.named_dir slot kind) room
  obtain ⟨rfl, rfl⟩ := gets.of_linked place linked
  exact does

theorem scanBlock_linked (hits : Block → Nat → Bool) (place : Cell.ofBlock n = some c)
    (linked : v.mem.cell d c ≠ 0) : Does (scanBlock d hits n) v
      (((List.range 16).find? fun j => hits (v.mem (v.mem.cell d c)) (256 * j)).map fun j =>
      .ok (.entry (v.mem.cell d c) j)) v := by
  have valid := (inv.range d c slot (inv.trusted slot kind) linked).2
  have scanned := scanFiles_does inv.small valid hits
  refine .bind (fileGetBlock_linked inv slot kind trim place linked) (.bind scanned ?_)
  rw [Option.map_map]
  exact .pure _ _

theorem scanBlock_passed (passed : v.mem.Passed d hits n) : Does (scanBlock d hits n) v none v := by
  obtain ⟨c, place, linked, misses⟩ := passed
  have scanned := scanBlock_linked inv slot kind trim hits place linked
  have none_ : (List.range 16).find? (fun j => hits (v.mem (v.mem.cell d c)) (256 * j)) = none := by
    rw [List.find?_range_eq_none]
    intro j small
    simp [misses j small]
  rw [none_] at scanned
  exact scanned

theorem scanBlock_first (first : v.mem.First d hits n f) :
    Does (scanBlock d hits n) v (some (.ok f)) v := by
  obtain ⟨c, j, place, linked, small, rfl, hit, misses⟩ := first.here
  have scanned := scanBlock_linked inv slot kind trim hits place linked
  have found : (List.range 16).find? (fun j => hits (v.mem (v.mem.cell d c)) (256 * j)) = some j := by
    rw [List.find?_range_eq_some]
    refine ⟨hit, List.mem_range.mpr small, fun j' low => ?_⟩
    simp [misses j' low]
  rw [found] at scanned
  exact scanned

theorem scanDir_first (inside : n < v.mem.dirBlocks d) (first : v.mem.First d hits n f) :
    Does (scanDir d hits) v (v.mem.dirBlocks d, some (.ok f)) v := by
  have loaded : Does (load d.block d.fSize) v (v.mem.size d) v := load_does inv.small (slot.valid inv) _
  have whole := srem_block (inv.dirSize d slot kind)
  -- The blocks before block `n` are passed over.
  have loop := search_does (v := v) (scanBlock d hits) (fun k v' => v' = v ∧ k ≤ n)
    (fun _ r v' => v' = v ∧ r = .ok f) (v.mem.dirBlocks d) 0 ⟨rfl, Nat.zero_le n⟩ (by
      rintro k _ - - ⟨rfl, low⟩
      rcases Nat.lt_or_eq_of_le low with before | rfl
      · exact .inl ⟨_, scanBlock_passed inv slot kind trim (first.before k before), rfl, before⟩
      · exact .inr ⟨_, _, scanBlock_first inv slot kind trim first, rfl, rfl⟩)
  have searched : Does (search (scanBlock d hits) (v.mem.dirBlocks d) 0) v (some (.ok f)) v := by
    rcases loop with ⟨v', -, -, beyond⟩ | ⟨k, r, _, -, does, rfl, rfl⟩
    · omega
    · exact does
  refine .bind loaded ?_
  rw [if_neg (by simpa using whole)]
  exact .bind searched (.pure _ _)

theorem scanDir_passed (passed : ∀ n < v.mem.dirBlocks d, v.mem.Passed d hits n) :
    Does (scanDir d hits) v (v.mem.dirBlocks d, none) v := by
  have loaded : Does (load d.block d.fSize) v (v.mem.size d) v := load_does inv.small (slot.valid inv) _
  have whole := srem_block (inv.dirSize d slot kind)
  have loop := search_does (v := v) (scanBlock d hits) (fun _ v' => v' = v) (fun _ _ _ => False)
    (v.mem.dirBlocks d) 0 rfl (by
      rintro k _ - high rfl
      exact .inl ⟨_, scanBlock_passed inv slot kind trim (passed k (by omega)), rfl⟩)
  have searched : Does (search (scanBlock d hits) (v.mem.dirBlocks d) 0) v none v := by
    rcases loop with ⟨_, does, rfl⟩ | ⟨_, _, _, -, -, wrong⟩
    · exact does
    · exact wrong.elim
  refine .bind loaded ?_
  rw [if_neg (by simpa using whole)]
  exact .bind searched (.pure _ _)

theorem dirLookup_first {name : List Byte} (inside : n < v.mem.dirBlocks d)
    (first : v.mem.First d (strEq · · name) n f) : Does (dirLookup d name) v (.ok f) v :=
  .bind (scanDir_first inv slot kind trim inside first) (.pure _ _)

theorem dirLookup_passed {name : List Byte}
    (passed : ∀ n < v.mem.dirBlocks d, v.mem.Passed d (strEq · · name) n) :
    Does (dirLookup d name) v (.error .notFound) v :=
  .bind (scanDir_passed inv slot kind trim passed) (.pure _ _)

end Present

theorem walkFrom_path {names : List (List Byte)} (inv : v.mem.Inv stale) (trim : v.mem.Trim tidy)
    (path : v.mem.Path d names f) (slot : v.mem.Slot d) :
    Does (walkFrom d names) v (.found f) v := by
  induction path with
  | nil => exact .pure _ _
  | @cons d f g name rest n short kind inside first path ih =>
    have loaded : Does (load d.block d.fType) v (v.mem.type d) v := load_does inv.small (slot.valid inv) _
    unfold walkFrom
    rw [if_neg (by omega)]
    refine .bind loaded ?_
    rw [if_neg (by simpa using kind)]
    exact .bind (dirLookup_first inv slot kind trim inside first) (ih (first.slot slot kind))

theorem fileOpen_path {path : List Byte} (inv : v.mem.Inv stale) (trim : v.mem.Trim tidy)
    (reached : v.mem.Path .root (components path) f) : Does (fileOpen path) v (.ok f) v :=
  .bind (walkFrom_path inv trim reached .root) (.pure _ _)

end FsM

namespace Image

variable {m m' : Image} {d f : FilePtr} {names : List (List Byte)}

inductive Leads (m : Image) : FilePtr → List (List Byte) → FilePtr → Prop
  | nil {f : FilePtr} : Leads m f [] f
  | cons {d f g : FilePtr} {name : List Byte} {rest : List (List Byte)} {n j : Nat}
    (short : name.length < maxnamelen)
      (kind : m.type d = ftypeDir) (child : m.Child d n j f)
      (named : strEq (m f.block) f.fName name = true) (leads : Leads m f rest g) :
      Leads m d (name :: rest) g

theorem Path.leads (path : m.Path d names f) : m.Leads d names f := by
  induction path with
  | nil => exact .nil
  | cons short kind _ first _ ih =>
    obtain ⟨c, j, place, linked, small, rfl, hit, -⟩ := first.here
    refine .cons short kind ⟨c, place, linked, small, rfl⟩ ?_ ih
    rw [FilePtr.fName_entry]
    exact hit

theorem Leads.before (leads : m'.Leads d names f) (keeps : m.Persists m') (slot : m.Slot d)
    (proper : Proper names) : m.Leads d names f ∧ m.Slot f := by
  induction leads with
  | nil => exact ⟨.nil, slot⟩
  | @cons d f g name rest n j short kind child named leads ih =>
    obtain ⟨nonempty, nonzero⟩ := proper name List.mem_cons_self
    have kind' := (keeps.type slot).symm.trans kind
    obtain ⟨c, place, linked, small, rfl⟩ := child
    by_cases new : m.cell d c = 0
    · have unnamed := keeps.fresh d c j slot kind' (Cell.ofBlock_data place) small new linked
      rw [FilePtr.fName_entry, FilePtr.entry, strEq_of_unnamed unnamed nonempty nonzero] at named
      cases named
    · rw [keeps.dirCell d c slot kind' new] at named leads ih
      have child : m.Child d n j (.entry (m.cell d c) j) := ⟨c, place, new, small, rfl⟩
      have old := child.slot slot kind'
      rw [FilePtr.fName_entry] at named
      have same := keeps.hits_eq (nameOnly_strEq short) old
      obtain ⟨rest_, final⟩ := ih old proper.tail
      refine ⟨.cons short kind' child ?_ rest_, final⟩
      rw [FilePtr.fName_entry]
      exact same.symm.trans named

end Image

end Jos.Fs
