import Jos.Fs.ReadWrite

namespace Jos.Fs

open Jos.Shared
open Jos.Kern (Word Byte)
open Volume (Change Changes Act Acts Growth)

def CString := {path : List Byte // ∀ b ∈ path, b ≠ 0}

def BufM.withBuffer {α β : Type} (x : BufM β α) (b : β) : FsM (α × β) := fun s =>
  match x (s, b) with
  | .ok a (s', b') => .ok (a, b') s'
  | .error why (s', _) => .error why s'

theorem BufM.withBuffer_does {α β : Type} {x : BufM β α} {v v' : Volume} {b b' : β} {a : α}
    (serves : Serves x v b a v' b') : Does (x.withBuffer b) v (a, b') v' := by
  rintro s live rfl
  obtain ⟨⟨s', b''⟩, done, live', looks⟩ := serves (s, b) live rfl
  obtain ⟨rfl, rfl⟩ := Prod.mk.inj looks
  exact ⟨s', by simp only [withBuffer, done], live', rfl⟩

inductive Op where
  | fileCreate (path : CString)
  | fileOpen (path : CString)
  | fileRead (f : FilePtr) (count offset : Word)
  | fileWrite (f : FilePtr) (buf : List Byte) (offset : Word)
  | fileSetSize (f : FilePtr) (newsize : Word)
  | fileFlush (f : FilePtr)
  | fsSync

inductive Answer where
  | file (r : Except Errno FilePtr)
  | read (r : Except Errno Word) (out : List Byte)
  | write (r : Except Errno Word)
  | done

namespace Op

def readInto (f : FilePtr) (count offset : Word) : FsM (Except Errno Word × List Byte) :=
  (BufM.fileRead (fun _ bytes => modify fun s => (s.1, s.2 ++ bytes)) f count offset).withBuffer []

def writeFrom (f : FilePtr) (buf : List Byte) (offset : Word) : FsM (Except Errno Word × Unit) :=
  (BufM.fileWrite (fun i n => pure ((buf.drop i).take n)) f (BitVec.ofNat 32 buf.length)
    offset).withBuffer ()

def program : Op → FsM Answer
  | fileCreate path => return .file (← FsM.fileCreate path.val)
  | fileOpen path => return .file (← FsM.fileOpen path.val)
  | fileRead f count offset => do
    let (r, out) ← readInto f count offset
    return .read r out
  | fileWrite f buf offset => do
    let (r, _) ← writeFrom f buf offset
    return .write r
  | fileSetSize f newsize => do
    FsM.fileSetSize f newsize
    return .done
  | fileFlush f => do
    FsM.fileFlush f
    return .done
  | fsSync => do
    FsM.fsSync
    return .done

-- When an operation may be called: reads of any file in use and writes to regular files, at
-- positions that are not negative.
def Allowed (tidy safe : Prop) (m : Image) : Op → Prop
  | fileRead f _ offset => m.Slot f ∧ m.Named f ∧ offset.toNat < 2 ^ 31
  | fileWrite f buf offset => m.Regular f ∧ offset.toNat < 2 ^ 31 ∧ buf.length < 2 ^ 32 ∧
      (tidy → offset.toNat + buf.length ≤ 2 * maxfilesize) ∧
      (safe → m.size f < offset + BitVec.ofNat 32 buf.length →
        m.KeepsEntries f (offset + BitVec.ofNat 32 buf.length))
  | fileSetSize f newsize =>
    m.Regular f ∧ (tidy → newsize.toNat ≤ 2 * maxfilesize) ∧ (safe → m.KeepsEntries f newsize)
  | fileFlush f => m.Slot f
  | _ => True

end Op

section Programs

variable {v : Volume} {stale : Set FilePtr} {tidy safe : Prop} {f : FilePtr} {offset : Word}
    {buf : List Byte}

theorem readInto_does (tidy : Prop) (count : Word) (inv : v.mem.Inv stale) (slot : v.mem.Slot f)
    (current : f ∉ stale) (named : v.mem.Named f) (positive : offset.toNat < 2 ^ 31) :
    ∃ r out v', Does (Op.readInto f count offset) v (r, out) v' ∧ Growth stale tidy v v' ∧
    (∀ w, r = .ok w → w.toNat = min count.toNat (v.mem.readable f offset) ∧
      out = v.mem.bytes f offset.toNat w.toNat) ∧
    ∀ e, r = .error e →
    ∃ k, v.mem.Halts f offset.toNat (min count.toNat (v.mem.readable f offset)) k e v'.mem := by
  obtain ⟨r, v', out, bytes, serves, growth, rfl, content⟩ := BufM.fileRead_serves (b := [])
    (fun _ bytes => modify fun s => (s.1, s.2 ++ bytes)) Eq
      (min count.toNat (v.mem.readable f offset)) tidy
    (fun v b bytes more held _ => ⟨b ++ more, fun s live looks => by
      obtain ⟨rfl, rfl⟩ := Prod.mk.inj looks
      exact ⟨_, rfl, live, rfl⟩, by rw [held]⟩) inv slot current named positive (le_refl _) rfl
  exact ⟨r, out, v', BufM.withBuffer_does serves, growth, content⟩

theorem writeFrom_does (inv : v.mem.Inv ∅) (trim : v.mem.Trim tidy)
    (allowed : (Op.fileWrite f buf offset).Allowed tidy safe v.mem) :
    ∃ r v', Does (Op.writeFrom f buf offset) v (r, ()) v' ∧ Changes tidy safe v v' ∧
      (tidy → ∃ k, v.mem.Stored f offset.toNat buf k v'.mem ∧
        (∀ w, r = .ok w → (w.toNat = buf.length ∧ buf.length = k) ∧
          ∀ i < k, v.mem.need f (Cell.span offset.toNat (i + 1)) ≤ v.mem.freeBlocks) ∧
        ∀ e, r = .error e → v.mem.Halts f offset.toNat buf.length k e v'.mem) := by
  obtain ⟨file, positive, small, bound, entries⟩ := allowed
  have length : buf.length = (BitVec.ofNat 32 buf.length).toNat := by
    rw [BitVec.toNat_ofNat, Nat.mod_eq_of_lt small]
  obtain ⟨r, v', _, serves, -, changes, -, stores⟩ := BufM.fileWrite_serves (b := ())
    (fun i n => pure ((buf.drop i).take n)) (fun _ => True) buf
      (fun v b i n _ _ => ⟨b, .pure _ _, trivial⟩) trivial length inv file
    positive trim (fun holds => length ▸ bound holds) entries
  refine ⟨r, v', BufM.withBuffer_does serves, changes, fun holds => ?_⟩
  obtain ⟨k, stored, done, halts⟩ := stores holds
  refine ⟨k, stored, fun w same => ?_, halts⟩
  obtain ⟨⟨rfl, last⟩, enough⟩ := done w same
  exact ⟨⟨length.symm, last⟩, enough⟩

theorem FsM.Creates.acts {path : List Byte} {r : Except Errno FilePtr} {v' : Volume}
    (creates : FsM.Creates v tidy safe path r v') : Acts tidy safe v v' := by
  cases creates with
  | failed changes => exact Changes.acts changes
  | made _ growth _ changes vacancy flushing =>
    have before : Changes tidy safe v _ := (Growth.changes growth).trans changes
    obtain ⟨n, j, child, -⟩ := vacancy.child
    have slot := child.slot vacancy.slot vacancy.kind
    have renamed : Act tidy safe _ _ := .rename slot vacancy.short vacancy.nonempty vacancy.nonzero
    exact ((Changes.acts before).tail renamed).trans (Changes.acts (Growth.changes flushing.growth))

theorem Op.program_does (op : Op) (inv : v.mem.Inv ∅) (trim : v.mem.Trim tidy)
    (allowed : op.Allowed tidy safe v.mem) : ∃ a v', Does op.program v a v' ∧
    Acts tidy safe v v' := by
  have grown : ∀ {v'}, Growth ∅ tidy v v' → Acts tidy safe v v' :=
    fun growth => Changes.acts (Growth.changes growth)
  cases op with
  | fileCreate path =>
    obtain ⟨r, v', does, creates, -⟩ := FsM.fileCreate_does safe path.property inv trim
    exact ⟨_, v', .bind does (.pure _ _), creates.acts⟩
  | fileOpen path =>
    obtain ⟨r, v', does, growth, -⟩ := FsM.fileOpen_does path.val inv trim
    exact ⟨_, v', .bind does (.pure _ _), grown growth⟩
  | fileRead f count offset =>
    obtain ⟨r, out, v', does, growth, -⟩ :=
      readInto_does tidy count inv allowed.1 (Set.notMem_empty f) allowed.2.1 allowed.2.2
    exact ⟨_, v', .bind does (.pure _ _), grown growth⟩
  | fileWrite f buf offset =>
    obtain ⟨r, v', does, changes, -⟩ := writeFrom_does inv trim allowed
    exact ⟨_, v', .bind does (.pure _ _), Changes.acts changes⟩
  | fileSetSize f newsize =>
    obtain ⟨file, bound, entries⟩ := allowed
    obtain ⟨v', does, change, -⟩ := FsM.fileSetSize_does inv file trim bound entries
    exact ⟨_, v', .bind does (.pure _ _), .single (.change change)⟩
  | fileFlush f =>
    obtain ⟨v', does, flushing⟩ := FsM.fileFlush_does tidy inv allowed (Set.notMem_empty f)
    exact ⟨_, v', .bind does (.pure _ _), grown flushing.growth⟩
  | fsSync =>
    obtain ⟨v', does, flushing⟩ := FsM.fsSync_does ∅ tidy inv.small
    exact ⟨_, v', .bind does (.pure _ _), grown flushing.growth⟩

end Programs

end Jos.Fs
