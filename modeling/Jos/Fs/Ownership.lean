import Jos.Fs.Operations

namespace Jos.Fs

open Jos.Shared
open Jos.Kern (Word Byte)
open Volume (Change Changes Act Acts Growth)

namespace Image

structure WellFormed (m : Image) : Prop where
  inv : m.Inv ∅
  exact_ : m.Exact
  trim : m.Trim True

structure Owned (m : Image) : Prop where
  range : ∀ f c, m.Slot f → m.cell f c ≠ 0 → (3 ≤ m.cell f c ∧ m.cell f c < m.nblocks) ∧
    m.free (m.cell f c) = false
  distinct : ∀ f c g c', m.Slot f → m.Slot g → m.cell f c ≠ 0 → m.cell f c = m.cell g c' → f = g ∧ c = c'
  noLeak : ∀ b, 3 ≤ b → b < m.nblocks → m.free b = false → ∃ f c, m.Slot f ∧ m.cell f c = b
  ended : ∀ f n c, m.Slot f → Cell.ofBlock n = some c → ((m.size f).toNat + 4095) / 4096 ≤ n →
    m.cell f c = 0

theorem WellFormed.owned {m : Image} (well : m.WellFormed) : m.Owned where
  range f c slot linked := by
    obtain ⟨high, valid⟩ := well.inv.range f c slot (.of_mem (Set.notMem_empty f)) linked
    exact ⟨⟨high, valid.exists_⟩, valid.used⟩
  distinct f c g c' slot slot' linked same :=
    well.inv.unique f c g c' slot slot' (.of_mem (Set.notMem_empty f))
      (.of_mem (Set.notMem_empty g)) linked same
  noLeak := well.exact_
  ended f n c slot place behind := (well.trim f slot (.inl trivial)).2 n c place behind

def empty (n : Word) : Image := fun b k =>
  if b = 1 then
    if k = 1 then n else if k = 2 then 0x2F else if k = FilePtr.root.fType then ftypeDir else 0
  else if b = 2 then
    if k = 0 then 0xFFFFFFF8 else 0xFFFFFFFF
  else 0

theorem cell_empty (n : Word) (c : Cell) : (empty n).cell .root c = 0 := by
  cases c with
  | direct i =>
    have high : 36 ≤ 2 + 34 + i.val := by omega
    simp [cell, empty, FilePtr.root, FilePtr.fDirect, FilePtr.fType, show 2 + 34 + i.val ≠ 1 by omega,
      show 2 + 34 + i.val ≠ 2 by omega, show 2 + 34 + i.val ≠ 35 by omega]
  | indirect => rfl
  | entry k =>
    have none_ : (empty n).indirect .root = 0 := rfl
    simp only [cell, none_, if_true]

theorem slot_empty {n : Word} {f : FilePtr} (slot : (empty n).Slot f) : f = .root := by
  induction slot with
  | root => rfl
  | entry _ _ _ present _ ih => exact absurd (ih ▸ cell_empty n _) present

theorem free_empty (n : Word) {b : Nat} (inside : b < 32) : (empty n).free b = decide (3 ≤ b) := by
  have word : (empty n).free b = (0xFFFFFFF8 : Word).getLsbD b := by
    simp [Image.free, empty, Nat.div_eq_of_lt inside, Nat.mod_eq_of_lt inside,
      Nat.div_eq_of_lt (inside.trans (by decide : 32 < 32768))]
  have bits : ∀ b < 32, (0xFFFFFFF8 : Word).getLsbD b = decide (3 ≤ b) := by decide
  rw [word, bits b inside]

theorem empty_wellFormed {n : Word} (low : 3 ≤ n.toNat) (high : n.toNat ≤ 32) : (empty n).WellFormed where
  inv := {
    small :=
      ⟨low, high.trans (by decide),
      fun b reserved => (free_empty n (by omega)).trans (decide_eq_false (by omega))⟩
    regular := fun f old => old.elim
    range := fun f c slot _ linked => absurd (slot_empty slot ▸ cell_empty n c) linked
    unique := fun f c _ _ slot _ _ _ linked => absurd (slot_empty slot ▸ cell_empty n c) linked
    rootDir := rfl
    kinds := fun f slot => slot_empty slot ▸ .inr rfl
    dirSize := fun f slot _ => slot_empty slot ▸ rfl
    vacant := fun f slot other => absurd (slot_empty slot) other }
  exact_ := by
    intro b low inside used
    rw [free_empty n (inside.trans_le high)] at used
    exact absurd low (of_decide_eq_false used)
  trim f slot _ := slot_empty slot ▸ ⟨Nat.zero_le _, fun _ c _ _ => cell_empty n c⟩

end Image

namespace Cache

variable {s s' : Cache} {op : Op} {image : Image}

def mount (image : Image) : Cache where
  disk := image
  pages b := if b = 1 ∨ b = 2 then some ⟨image b, true, false⟩ else none
  past := []

theorem mount_content (image : Image) : (mount image).content = image := by
  funext b
  by_cases pinned : b = 1 ∨ b = 2 <;> simp [content, mount, pinned]

theorem mount_live (image : Image) : (mount image).Live := by
  refine ⟨fun b page mapped _ => ?_, rfl, rfl⟩
  simp only [mount] at mapped ⊢
  split at mapped
  · rw [← Option.some.inj mapped]
  · cases mapped

def operate (s : Cache) (op : Op) : Option Cache :=
  match op.program s with
  | .ok _ s' => some s'
  | .error _ _ => none

theorem operate_eq {a : Answer} (ran : op.program s = .ok a s') : s.operate op = some s' := by
  rw [operate, ran]

def InRange (s : Cache) : Op → Prop
  | .fileRead f _ offset => s.content.Regular f ∧ offset.toNat ≤ maxfilesize
  | .fileWrite f buf offset => s.content.Regular f ∧ offset.toNat ≤ maxfilesize ∧ buf.length ≤ maxfilesize
  | .fileSetSize f newsize => s.content.Regular f ∧ newsize.toNat ≤ maxfilesize
  | .fileFlush f => s.content.Regular f
  | _ => True

theorem InRange.allowed (inRange : s.InRange op) : op.Allowed True False s.content := by
  have big := maxfilesize_eq
  cases op with
  | fileRead f count offset => exact ⟨inRange.1.slot, inRange.1.named, by have low := inRange.2; omega⟩
  | fileWrite f buf offset =>
    obtain ⟨file, low, short⟩ := inRange
    exact ⟨file, by omega, by omega, fun _ => by omega, False.elim⟩
  | fileSetSize f newsize =>
    obtain ⟨file, low⟩ := inRange
    exact ⟨file, fun _ => by omega, False.elim⟩
  | fileFlush f => exact inRange.slot
  | _ => trivial

theorem operate_wellFormed (live : s.Live) (well : s.content.WellFormed) (inRange : s.InRange op) :
    ∃ s', s.operate op = some s' ∧ s'.Live ∧ s'.content.WellFormed := by
  obtain ⟨a, v', does, acts⟩ := op.program_does (v := s.volume) well.inv well.trim inRange.allowed
  obtain ⟨s', ran, live', rfl⟩ := does s live rfl
  exact ⟨s', operate_eq ran, live', Acts.inv' acts well.inv,
    Acts.exact acts well.inv (fun _ => well.exact_) trivial, Acts.trim acts well.inv well.trim⟩

theorem owned_of_run (well : image.WellFormed) {ops : List Op}
    (run : Run operate InRange (mount image) ops s) : s.content.Owned ∧ ∀ op, s.InRange op →
    ∃ s', s.operate op = some s' := by
  have start : (mount image).Live ∧ (mount image).content.WellFormed :=
    ⟨mount_live image, (mount_content image).symm ▸ well⟩
  obtain ⟨live, kept⟩ := run.invariant (motive := fun s => s.Live ∧ s.content.WellFormed) start
    fun s op t holds inRange next => by
      obtain ⟨s', ran, after⟩ := operate_wellFormed holds.1 holds.2 inRange
      obtain rfl := Option.some.inj (next.symm.trans ran)
      exact after
  refine ⟨kept.owned, fun op inRange => ?_⟩
  obtain ⟨s', ran, -⟩ := operate_wellFormed live kept inRange
  exact ⟨s', ran⟩

section Examples

def Shallow (m : Image) (f : FilePtr) : Prop := (f.block = 3 ∧ f.base % 64 = 0 ∧ f.base < 1024) ∧
  m.type .root = ftypeDir ∧ m.cell .root (.direct 0) = 3 ∧ byteAt (m 3) f.fName ≠ 0 ∧ m.type f = 0

instance (m : Image) (f : FilePtr) : Decidable (Shallow m f) := inferInstanceAs (Decidable (_ ∧ _))

theorem Shallow.regular {m : Image} {f : FilePtr} (shallow : Shallow m f) : m.Regular f := by
  obtain ⟨⟨block, start, place⟩, dir, linked, named, kind⟩ := shallow
  have slot : m.Slot (.entry (m.cell .root (.direct 0)) (f.base / 64)) :=
    .entry .root dir nofun (by rw [linked]; decide) (by omega)
  have same : FilePtr.entry 3 (f.base / 64) = f := by
    rw [FilePtr.entry, show 64 * (f.base / 64) = f.base by omega, ← block]
  rw [linked, same] at slot
  exact ⟨slot, .inr (block ▸ named), by rw [kind]; decide⟩

def InRange? (s : Cache) : Op → Bool
  | .fileRead f _ offset => Shallow s.content f ∧ offset.toNat ≤ maxfilesize
  | .fileWrite f buf offset => Shallow s.content f ∧ offset.toNat ≤ maxfilesize ∧ buf.length ≤ maxfilesize
  | .fileSetSize f newsize => Shallow s.content f ∧ newsize.toNat ≤ maxfilesize
  | .fileFlush f => Shallow s.content f
  | _ => true

theorem inRange_of_check (passed : s.InRange? op = true) : s.InRange op := by
  cases op <;> simp only [InRange?, decide_eq_true_eq] at passed
  case fileRead => exact ⟨passed.1.regular, passed.2⟩
  case fileWrite => exact ⟨passed.1.regular, passed.2⟩
  case fileSetSize => exact ⟨passed.1.regular, passed.2⟩
  case fileFlush => exact passed.regular
  all_goals trivial

theorem owned_after_failure : ∃ s, Run operate InRange (mount (.empty 5))
    [.fileCreate ⟨[0x2F, 0x61], by decide⟩, .fileWrite (.entry 3 0) (List.replicate 5000 1) 5] s ∧
    s.content.Owned := by
  have ran : ∃ s, Run operate (InRange? · · = true) (mount (.empty 5))
      [.fileCreate ⟨[0x2F, 0x61], by decide⟩, .fileWrite (.entry 3 0) (List.replicate 5000 1) 5] s ∧
        True :=
    Run.of_exec_any (by decide +kernel)
  obtain ⟨s, run, -⟩ := ran
  have run := run.mono fun _ _ => inRange_of_check
  exact ⟨s, run, (owned_of_run (Image.empty_wellFormed (by decide) (by decide)) run).1⟩

end Examples

end Cache

end Jos.Fs
