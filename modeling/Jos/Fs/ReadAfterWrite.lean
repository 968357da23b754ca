import Jos.Fs.Ownership

namespace Jos.Fs.Cache

open Jos.Shared
open Jos.Kern (Word Byte)
open Volume (Changes Acts)

variable {s s' : Cache} {f g : FilePtr} {offset : Word} {buf : List Byte}

theorem readInto_ok (live : s.Live) (well : s.content.WellFormed) (slot : s.content.Slot f)
    (named : s.content.Named f) (count : Word) (positive : offset.toNat < 2 ^ 31) :
    ∃ r out t, Op.readInto f count offset s = .ok (r, out) t ∧
      ∀ w, r = .ok w → w.toNat = min count.toNat ((s.content.size f).toNat - offset.toNat) ∧
        out = s.content.bytes f offset.toNat w.toNat := by
  obtain ⟨r, out, v', does, -, content, -⟩ :=
    readInto_does (v := s.volume) True count well.inv slot (Set.notMem_empty f) named positive
  obtain ⟨t, ran, -⟩ := does s live rfl
  refine ⟨r, out, t, ran, fun w same => ?_⟩
  obtain ⟨length, bytes⟩ := content w same
  have low := (well.trim f slot (.inl trivial)).1
  have big := maxfilesize_eq
  have size : (s.content.size f).toInt = (s.content.size f).toNat :=
    BitVec.toInt_eq_toNat_of_lt (by omega)
  have start : offset.toInt = offset.toNat := BitVec.toInt_eq_toNat_of_lt (by omega)
  refine ⟨?_, bytes⟩
  rw [length, show s.volume.mem = s.content from rfl, Image.readable, size, start]
  omega

theorem writeFrom_stores (live : s.Live) (well : s.content.WellFormed) (file : s.content.Regular f)
    (fits : offset.toNat + buf.length ≤ maxfilesize) :
    ∃ r s' k, Op.writeFrom f buf offset s = .ok (r, ()) s' ∧ s'.Live ∧ s'.content.WellFormed ∧
      s.content.Stored f offset.toNat buf k s'.content ∧
      (∀ w, r = .ok w → (w.toNat = buf.length ∧ buf.length = k) ∧
        ∀ i < k, s.content.need f (Cell.span offset.toNat (i + 1)) ≤ s.content.freeBlocks) ∧
      ∀ e, r = .error e → s.content.Halts f offset.toNat buf.length k e s'.content := by
  have big := maxfilesize_eq
  have allowed : (Op.fileWrite f buf offset).Allowed True False s.volume.mem :=
    ⟨file, by omega, by omega, fun _ => by omega, False.elim⟩
  obtain ⟨r, v', does, changes, stores⟩ := writeFrom_does well.inv well.trim allowed
  obtain ⟨s', ran, live', rfl⟩ := does s live rfl
  have acts := Changes.acts changes
  obtain ⟨k, stored, done, halts⟩ := stores trivial
  exact ⟨r, s', k, ran, live',
    ⟨Acts.inv' acts well.inv, Acts.exact acts well.inv (fun _ => well.exact_) trivial,
    Acts.trim acts well.inv well.trim⟩, stored, done, halts⟩

theorem writeFrom_ok (live : s.Live) (well : s.content.WellFormed) (file : s.content.Regular f)
    (fits : offset.toNat + buf.length ≤ maxfilesize) :
    ∃ r s', Op.writeFrom f buf offset s = .ok (r, ()) s' ∧ s'.Live ∧ s'.content.WellFormed ∧
      s.content.Persists s'.content ∧
      ∀ w, r = .ok w → w.toNat = buf.length ∧ s.content.Written f offset.toNat buf s'.content := by
  obtain ⟨r, s', k, ran, live', well', stored, done, -⟩ := writeFrom_stores live well file fits
  refine ⟨r, s', ran, live', well', stored.persists, fun w same => ?_⟩
  obtain ⟨⟨length, rfl⟩, -⟩ := done w same
  exact ⟨length, stored.written⟩

theorem read_after_write (live : s.Live) (well : s.content.WellFormed) (file : s.content.Regular f)
    (fits : offset.toNat + buf.length ≤ maxfilesize) :
    ∃ r s', Op.writeFrom f buf offset s = .ok (r, ()) s' ∧ ∀ w, r = .ok w →
      w.toNat = buf.length ∧
      (s'.content.size f).toNat = max (s.content.size f).toNat (offset.toNat + buf.length) ∧
      (∀ n o : Word, o.toNat < 2 ^ 31 → ∃ r out t, Op.readInto f n o s' = .ok (r, out) t ∧
      ∀ k, r = .ok k →
        k.toNat = min n.toNat ((s'.content.size f).toNat - o.toNat) ∧
        out = (List.range k.toNat).map fun i =>
        overwrite (s.content.raw f) offset.toNat buf (o.toNat + i)) ∧
      ∀ g, s.content.Slot g → s.content.Named g → g ≠ f → s.content.Outside f g → ∀ n o : Word,
      o.toNat < 2 ^ 31 →
        ∃ r out t r' out' t', Op.readInto g n o s = .ok (r, out) t ∧
        Op.readInto g n o s' = .ok (r', out') t' ∧
          ∀ k k', r = .ok k → r' = .ok k' → k' = k ∧ out' = out := by
  obtain ⟨r, s', ran, live', well', persists, written⟩ := writeFrom_ok live well file fits
  refine ⟨r, s', ran, fun w same => ?_⟩
  obtain ⟨length, content⟩ := written w same
  have file' := file.persist persists
  refine ⟨length, content.size, fun n o positive => ?_, fun g slot named other outside n o positive => ?_⟩
  · obtain ⟨r, out, t, ran, read⟩ := readInto_ok live' well' file'.slot file'.named n positive
    refine ⟨r, out, t, ran, fun k same => ?_⟩
    obtain ⟨count, rfl⟩ := read k same
    exact ⟨count, by rw [Image.bytes, content.raw]⟩
  · obtain ⟨r, out, t, ran, read⟩ := readInto_ok live well slot named n positive
    obtain ⟨r', out', t', ran', read'⟩ :=
      readInto_ok live' well' (persists.slot g slot) ((persists.named slot).mpr named) n positive
    refine ⟨r, out, t, r', out', t', ran, ran', fun k k' same same' => ?_⟩
    obtain ⟨count, rfl⟩ := read k same
    obtain ⟨count', rfl⟩ := read' k' same'
    obtain ⟨size, raw⟩ := content.others g slot other outside
    have equal : k' = k := BitVec.eq_of_toNat_eq (by rw [count, count', size])
    exact ⟨equal, by rw [Image.bytes, Image.bytes, raw, equal]⟩

section Examples

def perform (s : Cache) (op : Op) : Cache := (s.operate op).getD s

theorem perform_wellFormed {op : Op} (good : s.Live ∧ s.content.WellFormed) (inRange : s.InRange op) :
    (s.perform op).Live ∧ (s.perform op).content.WellFormed := by
  obtain ⟨s', ran, after⟩ := operate_wellFormed good.1 good.2 inRange
  rw [perform, ran]
  exact after

theorem slashA_path : ∀ b ∈ ([0x2F, 0x61] : List Byte), b ≠ 0 := by decide

theorem slashB_path : ∀ b ∈ ([0x2F, 0x62] : List Byte), b ≠ 0 := by decide

def twoFiles (n : Word) : Cache :=
  ((mount (.empty n)).perform (.fileCreate ⟨[0x2F, 0x61], slashA_path⟩)).perform
    (.fileCreate ⟨[0x2F, 0x62], slashB_path⟩)

theorem twoFiles_wellFormed {n : Word} (low : 3 ≤ n.toNat) (high : n.toNat ≤ 32) :
    (twoFiles n).Live ∧ (twoFiles n).content.WellFormed := by
  refine perform_wellFormed (perform_wellFormed ⟨mount_live _, ?_⟩ trivial) trivial
  rw [mount_content]
  exact Image.empty_wellFormed low high

def check {α : Type} (x : FsM α) (s : Cache) (test : α → Cache → Bool) : Bool :=
  match x s with
  | .ok a s' => test a s'
  | .error _ _ => false

theorem exists_of_check {α : Type} {x : FsM α} {test : α → Cache → Bool}
    (passed : check x s test = true) : ∃ a s', x s = .ok a s' ∧ test a s' = true := by
  unfold check at passed
  split at passed
  next a s' ran => exact ⟨a, s', ran, passed⟩
  · cases passed

theorem read_after_write_two : ∃ s', Op.writeFrom (.entry 3 0) [7, 8] 4095 (twoFiles 32) =
    .ok (.ok 2, ()) s' ∧ (s'.content.size (.entry 3 0)).toNat = 4097 := by
  obtain ⟨live, well⟩ := twoFiles_wellFormed (n := 32) (by decide) (by decide)
  have file : (twoFiles 32).content.Regular (.entry 3 0) := Shallow.regular (by decide +kernel)
  have fits : (4095 : Word).toNat + ([7, 8] : List Byte).length ≤ maxfilesize := by decide
  obtain ⟨r, s', ran, rest⟩ := read_after_write live well file fits
  have wrote : check (Op.writeFrom (.entry 3 0) [7, 8] 4095) (twoFiles 32) (fun a _ => a.1 =
    .ok 2) = true := by decide +kernel
  obtain ⟨a, t, ran', result⟩ := exists_of_check wrote
  rw [ran] at ran'
  injection ran' with same
  subst same
  obtain rfl : r = .ok 2 := of_decide_eq_true result
  have none_ : (twoFiles 32).content.size (.entry 3 0) = 0 := by decide +kernel
  obtain ⟨-, size, -⟩ := rest 2 rfl
  exact ⟨s', ran, by rw [size, none_]; rfl⟩

def holed : Cache := (twoFiles 5).perform (.fileSetSize (.entry 3 1) 1)

-- A write to `/a` shows in the root directory, and it can make a read of `/b` fail.
theorem other_reads_change : ∃ s s', s.Live ∧ s.content.WellFormed ∧ s.content.Regular (.entry 3 0) ∧
    s.content.Regular (.entry 3 1) ∧ Op.writeFrom (.entry 3 0) [7] 0 s = .ok (.ok 1, ()) s' ∧
    check (Op.readInto .root 1 128) s (fun a _ => a = (.ok 1, [0])) = true ∧
    check (Op.readInto .root 1 128) s' (fun a _ => a = (.ok 1, [1])) = true ∧
    check (Op.readInto (.entry 3 1) 1 0) s (fun a _ => a = (.ok 1, [0])) = true ∧
    check (Op.readInto (.entry 3 1) 1 0) s' (fun a _ => a = (.error .noDisk, [])) = true := by
  have files : (twoFiles 5).content.Regular (.entry 3 1) := Shallow.regular (by decide +kernel)
  have inRange : (twoFiles 5).InRange (.fileSetSize (.entry 3 1) 1) := ⟨files, by decide⟩
  obtain ⟨live, well⟩ := perform_wellFormed (twoFiles_wellFormed (by decide) (by decide)) inRange
  have wrote : check (Op.writeFrom (.entry 3 0) [7] 0) holed (fun a s' =>
      a.1 = .ok 1 && check (Op.readInto .root 1 128) s' (fun a _ => a = (.ok 1, [1])) &&
      check (Op.readInto (.entry 3 1) 1 0) s' (fun a _ => a = (.error .noDisk, []))) = true := by
        decide +kernel
  obtain ⟨a, s', ran, passed⟩ := exists_of_check wrote
  simp only [Bool.and_eq_true, decide_eq_true_eq] at passed
  obtain ⟨⟨result, shown⟩, fails⟩ := passed
  refine ⟨holed, s', live, well, Shallow.regular (by decide +kernel),
    Shallow.regular (by decide +kernel), ?_, by decide +kernel, shown, by decide +kernel, fails⟩
  rw [ran, ← result]

end Examples

end Jos.Fs.Cache
