import Jos.Fs.Handlers
import Jos.Fs.Alters

namespace Jos.Fs

open Jos.Shared
open Jos.Kern (Word Byte)
open Volume (Growth Change Changes Acts)

namespace Image

variable {m m' : Image} {d f : FilePtr} {names : List (List Byte)}

structure InOrder (m : Image) : Prop where
  inv : m.Inv ∅
  trim : m.Trim False

theorem WellFormed.inOrder (well : m.WellFormed) : m.InOrder := ⟨well.inv, well.trim.weaken⟩

theorem Leads.named (leads : m.Leads d names f) (named : m.Named d) (proper : Proper names) :
    m.Named f := by
  induction leads with
  | nil => exact named
  | @cons d f g name rest n j short kind child here leads ih =>
    obtain ⟨nonempty, nonzero⟩ := proper name List.mem_cons_self
    refine ih (.inr fun unnamed => ?_) proper.tail
    rw [strEq_of_unnamed unnamed nonempty nonzero] at here
    cases here

end Image

structure Volume.Handled (v : Volume) (may : FilePtr → Word → Prop) (v' : Volume) : Prop where
  inOrder : v'.mem.InOrder
  alters : v.mem.Alters may v'.mem

namespace Volume

variable {v v' : Volume} {may : FilePtr → Word → Prop} {tidy safe : Prop}

theorem Handled.refl (order : v.mem.InOrder) : v.Handled may v := ⟨order, .refl _⟩

theorem Growth.handled (growth : Growth ∅ False v v') (order : v.mem.InOrder) : v.Handled may v' :=
  ⟨⟨Growth.inv growth order.inv, Growth.trim growth order.inv order.trim⟩, Growth.alters growth order.inv⟩

theorem Changes.inOrder (changes : Changes False safe v v') (order : v.mem.InOrder) : v'.mem.InOrder :=
  ⟨Changes.inv' changes order.inv, Changes.trim changes order.inv order.trim⟩

end Volume

namespace ServM

section Open

variable {v : Volume} {path : List Byte} {omode : Word} {may : FilePtr → Word → Prop}

theorem reqPath_nonzero (words : Block) : ∀ b ∈ reqPath words, b ≠ 0 := by
  intro b member
  simpa using List.mem_takeWhile_imp member

def Finds (m : Image) (path : List Byte) (m' : Image) (f : FilePtr) : Prop :=
  m'.Path .root (components path) f ∧ m.Leads .root (components path) f ∧ m.Slot f ∨ m'.Regular f ∧
    ¬m.Regular f

theorem fileOpen_finds (nonzero : ∀ b ∈ path, b ≠ 0) {v₁ : Volume} (keeps : v.mem.Persists v₁.mem)
    (order : v₁.mem.InOrder) : ∃ r v', Does (FsM.fileOpen path) v₁ r v' ∧ Growth ∅ False v₁ v' ∧
    ∀ f, r = .ok f → Finds v.mem path v'.mem f := by
  obtain ⟨r, v', does, growth, reached⟩ := FsM.fileOpen_does path order.inv order.trim
  refine ⟨r, v', does, growth, fun f same => .inl ?_⟩
  have keeps' := keeps.trans (Growth.extends growth order.inv).toPersists
  exact ⟨reached f same, (reached f same).leads.before keeps' .root (proper_components nonzero)⟩

theorem findFile_does (nonzero : ∀ b ∈ path, b ≠ 0) (order : v.mem.InOrder)
    (permitted : omode &&& oCreat ≠ 0 → ∀ init name d, components path = init ++ [name] →
    v.mem.Leads .root init d →
      v.mem.type d = ftypeDir → (v.mem.size d).toNat ≤ maxfilesize → may d (v.mem.size d + 4096)) :
    ∃ r v', Does (findFile path omode) v r v' ∧ v.Handled may v' ∧ ∀ f, r = .ok f →
    Finds v.mem path v'.mem f := by
  by_cases creates : omode &&& oCreat ≠ 0
  · obtain ⟨r, v₁, created, outcome, builds⟩ := FsM.fileCreate_does False nonzero order.inv order.trim
    have acts : Acts False False v v₁ := outcome.acts
    have order₁ : v₁.mem.InOrder := ⟨Acts.inv' acts order.inv, Acts.trim acts order.inv order.trim⟩
    have alters : v.mem.Alters may v₁.mem := builds.alters order.inv nonzero (permitted creates)
    unfold findFile
    rw [if_pos creates]
    cases r with
    | ok f =>
      refine ⟨_, v₁, .bind created (.pure _ _), ⟨order₁, alters⟩, fun f' same => ?_⟩
      cases same
      exact .inr (builds.regular order.inv)
    | error e =>
      by_cases retry : omode &&& oExcl = 0 ∧ e = .fileExists
      · have keeps : v.mem.Persists v₁.mem := by
          cases outcome with
          | failed changes => exact Changes.persists changes order.inv
        obtain ⟨r, v₂, opened, growth, finds⟩ := fileOpen_finds nonzero keeps order₁
        have handled : v₁.Handled may v₂ := growth.handled order₁
        refine ⟨r, v₂, .bind created ?_, ⟨handled.inOrder, alters.trans handled.alters⟩, finds⟩
        dsimp only
        rw [if_pos retry]
        exact opened
      · refine ⟨.error e, v₁, .bind created ?_, ⟨order₁, alters⟩, nofun⟩
        dsimp only
        rw [if_neg retry]
        exact .pure _ _
  · obtain ⟨r, v', opened, growth, finds⟩ := fileOpen_finds nonzero (.refl v.mem) order
    unfold findFile
    rw [if_neg creates]
    exact ⟨r, v', opened, growth.handled order, finds⟩

inductive Opens (m : Image) (path : List Byte) (omode : Word) (r : Except Errno FilePtr)
    (g : FilePtr) (w : Word) : Prop
  | widen {init : List (List Byte)} {name : List Byte} (creates : omode &&& oCreat ≠ 0)
      (last : components path = init ++ [name]) (leads : m.Leads .root init g)
      (kind : m.type g = ftypeDir) (bound : (m.size g).toNat ≤ maxfilesize)
      (size : w = m.size g + 4096)
  | truncate (truncates : omode &&& oTrunc ≠ 0) (opened : r = .ok g ∨ ¬m.Regular g) (size : w = 0)

theorem fileSetSize_handled {f : FilePtr} {newsize : Word} (order : v.mem.InOrder)
    (file : v.mem.Regular f) (permitted : may f newsize) :
    ∃ v', Does (FsM.fileSetSize f newsize) v () v' ∧ v.Handled may v' ∧ v.mem.Persists v'.mem := by
  obtain ⟨v', does, change, -, -, cut⟩ : ∃ v', Does (FsM.fileSetSize f newsize) v () v' ∧
    Change False False v v' ∧ _ :=
    FsM.fileSetSize_does order.inv file order.trim False.elim False.elim
  exact ⟨v', does,
    ⟨⟨change.inv' order.inv, change.trim order.inv order.trim⟩,
    cut.alters order.inv file permitted⟩, change.persists order.inv⟩

theorem openFile_run {v₁ v₂ v' : Volume} {f : FilePtr} {r : Except Errno FilePtr}
    (found : Does (findFile path omode) v (.ok f) v₁)
    (truncated : Does (if omode &&& oTrunc ≠ 0 then FsM.fileSetSize f 0 else pure ()) v₁ () v₂)
    (opened : Does (FsM.fileOpen path) v₂ r v') : Does (openFile path omode) v r v' := by
  refine .bind found ?_
  dsimp only
  split
  next truncates =>
    rw [if_pos truncates] at truncated
    exact .bind truncated opened
  next truncates =>
    rw [if_neg truncates] at truncated
    have both : Does (pure () >>= fun _ => FsM.fileOpen path) v₁ r v' := .bind truncated opened
    exact both

theorem openFile_does (nonzero : ∀ b ∈ path, b ≠ 0) (order : v.mem.InOrder)
    (plain : omode &&& oTrunc ≠ 0 → ∀ f, v.mem.Leads .root (components path) f →
    v.mem.type f ≠ ftypeDir) : ∃ r v', Does (openFile path omode) v r v' ∧
    v.Handled (Opens v.mem path omode r) v' ∧
      ∀ f, r = .ok f → v'.mem.Slot f ∧ v'.mem.Named f := by
  have usable : ∀ {m : Image} {f}, m.Path .root (components path) f → m.Slot f ∧
    m.Named f := fun reached =>
    ⟨reached.slot .root, reached.leads.named (.inl rfl) (proper_components nonzero)⟩
  obtain ⟨r₁, v₁, found, handled, finds⟩ : ∃ r v', Does (findFile path omode) v r v' ∧
      v.Handled (fun g w => ∀ r, Opens v.mem path omode r g w) v' ∧ ∀ f, r = .ok f →
        Finds v.mem path v'.mem f :=
    findFile_does nonzero order fun creates init name d last leads kind bound r =>
      .widen creates last leads kind bound rfl
  have order₁ := handled.inOrder
  have alters : ∀ r, v.mem.Alters (Opens v.mem path omode r) v₁.mem :=
    fun r => handled.alters.mono fun g w here => here r
  cases r₁ with
  | error e => exact ⟨_, v₁, .bind found (.pure _ _), ⟨order₁, alters _⟩, nofun⟩
  | ok f =>
    -- Opening the file once more, after whatever has been done to it.
    have again : ∀ {v₂},
      Does (if omode &&& oTrunc ≠ 0 then FsM.fileSetSize f 0 else pure ()) v₁ () v₂ →
      v₂.mem.InOrder →
        (∀ r, v.mem.Alters (Opens v.mem path omode r) v₂.mem) →
          ∃ r v', Does (openFile path omode) v r v' ∧
        v.Handled (Opens v.mem path omode r) v' ∧ ∀ f, r = .ok f → v'.mem.Slot f ∧ v'.mem.Named f := by
      intro v₂ truncated order₂ alters₂
      obtain ⟨r, v₃, opened, growth, reached⟩ := FsM.fileOpen_does path order₂.inv order₂.trim
      have handled₃ : v₂.Handled (Opens v.mem path omode r) v₃ := growth.handled order₂
      exact ⟨r, v₃, openFile_run found truncated opened,
        ⟨handled₃.inOrder, (alters₂ r).trans handled₃.alters⟩, fun f same =>
        usable (reached f same)⟩
    by_cases truncates : omode &&& oTrunc ≠ 0
    · have file₁ : v₁.mem.Regular f := by
        obtain ⟨reached, leads, slot⟩ | ⟨file, -⟩ := finds f rfl
        · exact ⟨(usable reached).1, (usable reached).2,
            (handled.alters.type f slot).trans_ne (plain truncates f leads)⟩
        · exact file
      obtain ⟨v₂, sized, handled₂, keeps⟩ : ∃ v', Does (FsM.fileSetSize f 0) v₁ () v' ∧
          v₁.Handled (fun g w => g = f ∧ w = 0) v' ∧ v₁.mem.Persists v'.mem :=
            fileSetSize_handled order₁ file₁ ⟨rfl, rfl⟩
      have order₂ := handled₂.inOrder
      have truncated : Does (if omode &&& oTrunc ≠ 0 then FsM.fileSetSize f 0 else pure ()) v₁ () v₂ := by
        rw [if_pos truncates]
        exact sized
      have alters₂ : ∀ r, (r = .ok f ∨ ¬v.mem.Regular f) →
        v.mem.Alters (Opens v.mem path omode r) v₂.mem := fun r opened =>
        (alters r).trans
          (handled₂.alters.mono fun g w here => .truncate truncates (here.1 ▸ opened) here.2)
      obtain ⟨reached, -⟩ | ⟨-, new⟩ := finds f rfl
      · -- Directories have not changed, and so the path leads to the same file.
        have reached₂ : v₂.mem.Path .root (components path) f := by
          refine reached.persist keeps (fun d slot kind => ?_) .root
          have same : v₂.mem.size d = v₁.mem.size d :=
            (handled₂.alters.size d slot).resolve_right fun here => file₁.kind (here.1 ▸ kind)
          rw [Image.dirBlocks, Image.dirBlocks, same]
        refine ⟨_, v₂, openFile_run found truncated (FsM.fileOpen_path order₂.inv order₂.trim reached₂),
          ⟨order₂, alters₂ _ (.inl rfl)⟩, fun g same => ?_⟩
        cases same
        exact usable reached₂
      · exact again truncated order₂ fun r => alters₂ r (.inr new)
    · refine again ?_ order₁ alters
      rw [if_neg truncates]
      exact .pure _ _

end Open

def Asks (d : Desk) (i : Nat) (f : FilePtr) : Prop :=
  openfileLookup d (d.words 0) = some i ∧ (d.opentab i).file = some f

/-- What the server counts on: no directory is written, truncated or made longer or shorter,
positions are not negative, and the bytes to read or write are in the request page. -/
structure Polite (req : Word) (m : Image) (d : Desk) : Prop where
  opens : req = 1 → reqOmode d.words &&& oTrunc ≠ 0 →
    ∀ f, m.Leads .root (components (reqPath d.words)) f → m.type f ≠ ftypeDir
  regular : ∀ i f, Asks d i f → req = 2 ∨ req = 4 → m.type f ≠ ftypeDir
  offset : ∀ i f, Asks d i f → req = 3 ∨ req = 4 → (d.fdData i 1).toNat < 2 ^ 31
  read : ∀ i f, Asks d i f → req = 3 → min (d.words 1).toNat (m.readable f (d.fdData i 1)) ≤ 4096
  write : ∀ i f, Asks d i f → req = 4 → 8 + (d.words 1).toNat ≤ 4096

inductive Touches (req : Word) (m : Image) (d : Desk) (g : FilePtr) (w : Word) : Prop
  | setSize {i : Nat} (set : req = 2) (asks : Asks d i g) (size : w = d.words 1)
  | write {i : Nat} (write : req = 4) (asks : Asks d i g)
    (size : w = m.size g ∨ w = d.fdData i 1 + d.words 1)

section Serve

variable {v : Volume} {d : Desk} {req : Word} {may : FilePtr → Word → Prop}

theorem desk_serves (v : Volume) (d : Desk) : Serves desk v d d v d := by
  rintro ⟨s, b⟩ live looks
  obtain ⟨rfl, rfl⟩ := Prod.mk.inj looks
  exact ⟨_, rfl, live, rfl⟩

theorem update_serves (v : Volume) (d : Desk) (change : Desk → Desk) :
    Serves (update change) v d () v (change d) := by
  rintro ⟨s, b⟩ live looks
  obtain ⟨rfl, rfl⟩ := Prod.mk.inj looks
  exact ⟨_, rfl, live, rfl⟩

theorem putReply_serves {i : Nat} {bytes : List Byte} (room : i + bytes.length ≤ 4096) (v : Volume)
    (d : Desk) : ∃ d', Serves (putReply i bytes) v d () v d' := by
  refine ⟨(d.setWords (storePage d.words i bytes)).reach (i + bytes.length),
    .bind (update_serves v d _) ?_⟩
  rw [if_pos room]
  exact .pure _ _

theorem advance_serves (i : Nat) (r : Except Errno Word) (v : Volume) (d : Desk) :
    ∃ w d', Serves (advance i r) v d w v d' := by
  cases r with
  | error e => exact ⟨_, _, .pure _ _⟩
  | ok r =>
    by_cases negative : r.slt 0
    · refine ⟨r, d, ?_⟩
      rw [advance, if_pos negative]
      exact .pure _ _
    · refine ⟨r, d.setFd i (Function.update (d.fdData i) 1 (d.fdData i 1 + r)), ?_⟩
      rw [advance, if_neg negative]
      exact .bind (update_serves v d _) (.pure _ _)

def payload (d : Desk) : List Byte := (List.range (d.words 1).toNat).map fun k => byteAt d.words (8 + k)

theorem fetchData_serves {i n : Nat} (room : i + n ≤ (payload d).length)
    (inside : 8 + (d.words 1).toNat ≤ 4096) (v : Volume) {d' : Desk} (same : d'.words = d.words) :
    ∃ d'', Serves (fetchData i n) v d' (((payload d).drop i).take n) v d'' ∧
    d''.words = d.words := by
  simp only [payload, List.length_map, List.length_range] at room
  have bytes : ((List.range (min n (4096 - (8 + i)))).map fun k => byteAt d'.words (8 + i + k)) =
    ((payload d).drop i).take n := by
    rw [Nat.min_eq_left (by omega), same]
    apply List.ext_getElem
    · simp only [payload, List.length_map, List.length_range, List.length_take, List.length_drop]
      omega
    · intro k _ _
      simp [payload, Nat.add_assoc]
  refine ⟨d'.reach (8 + i + n), .bind (desk_serves v d') (.bind (update_serves v d' _) ?_), same⟩
  dsimp only
  rw [if_pos (by omega), bytes]
  exact .pure _ _

theorem withFile_handled {run : Nat → FilePtr → ServM Word} (order : v.mem.InOrder)
    (held : ∀ i, openfileLookup d (d.words 0) = some i → (d.opentab i).file ≠ none)
    (runs : ∀ i f, Asks d i f → ∃ r v' d', Serves (run i f) v d r v' d' ∧ v.Handled may v') :
    ∃ r v' d', Serves (withFile run) v d r v' d' ∧ v.Handled may v' := by
  cases found : openfileLookup d (d.words 0) with
  | none =>
    refine ⟨Errno.inval.code, v, d, .bind (desk_serves v d) ?_, .refl order⟩
    rw [found]
    exact .pure _ _
  | some i =>
    obtain ⟨f, file⟩ := Option.ne_none_iff_exists'.mp (held i found)
    obtain ⟨r, v', d', ran, handled⟩ := runs i f ⟨found, file⟩
    refine ⟨r, v', d', .bind (desk_serves v d) ?_, handled⟩
    rw [found]
    dsimp only
    rw [file]
    exact ran

theorem stringFrom_does {v : Volume} {b o blocks : Nat} {name : List Byte} (small : v.mem.Small)
    (valid : v.mem.Valid b) (ends : stringAt (v.mem b) o = some name) :
    Does (stringFrom (blocks + 1) b o) v name v := by
  refine .bind (FsM.touch_does small valid) (.get_bind ?_)
  rintro s - rfl
  rw [show stringAt (s.content b) o = some name from ends]
  exact .pure _ _

theorem stringAt_file {m : Image} {f : FilePtr} (inv : m.Inv ∅) (slot : m.Slot f) :
    ∃ name, stringAt (m f.block) f.fName = some name ∧ name.length ≤ 4096 := by
  have low : f.fName + 256 ≤ 4096 := by
    rcases slot.cases with rfl | ⟨d, c, j, -, -, -, -, small, rfl⟩
    · decide
    · rw [FilePtr.fName_entry]
      omega
  have zero : byteAt (m f.block) (f.fName + 133) = 0 := by
    have index : (f.fName + 133) / 4 = f.fType := by
      simp only [FilePtr.fName, FilePtr.fType]
      omega
    have place : (f.fName + 133) % 4 = 1 := by
      simp only [FilePtr.fName]
      omega
    have kind := inv.kinds f slot
    rw [Image.type] at kind
    rw [byteAt, index, place]
    rcases kind with none | dir
    · rw [none]; rfl
    · rw [dir]; rfl
  cases hit : (List.range (4096 - f.fName)).find? fun k => byteAt (m f.block) (f.fName + k) = 0 with
  | none =>
    rw [List.find?_range_eq_none] at hit
    exact absurd (decide_eq_true zero) (by simpa using hit 133 (by omega))
  | some n =>
    have inside := List.mem_range.mp (List.mem_of_find?_eq_some hit)
    refine ⟨_, by rw [stringAt, hit]; rfl, ?_⟩
    simp only [List.length_map, List.length_range]
    omega

section Handlers

variable (order : v.mem.InOrder)
    (held : ∀ i, openfileLookup d (d.words 0) = some i → (d.opentab i).file ≠ none)
  (filed : ∀ i f, Asks d i f → v.mem.Slot f ∧ v.mem.Named f)
include order held filed

theorem serveSetSize_handled (plain : ∀ i f, Asks d i f → v.mem.type f ≠ ftypeDir)
    (permitted : ∀ i f, Asks d i f → may f (d.words 1)) :
    ∃ r v' d', Serves serveSetSize v d r v' d' ∧ v.Handled may v' := by
  refine withFile_handled order held fun i f asks => ?_
  obtain ⟨slot, named⟩ := filed i f asks
  obtain ⟨v', does, handled, -⟩ :=
    fileSetSize_handled order ⟨slot, named, plain i f asks⟩ (permitted i f asks)
  exact ⟨0, v', d, .bind (desk_serves v d) (.bind (BufM.lift_serves does d) (.pure _ _)), handled⟩

theorem serveRead_handled (positive : ∀ i f, Asks d i f → (d.fdData i 1).toNat < 2 ^ 31)
    (fits : ∀ i f, Asks d i f → min (d.words 1).toNat (v.mem.readable f (d.fdData i 1)) ≤ 4096) :
    ∃ r v' d', Serves serveRead v d r v' d' ∧ v.Handled may v' := by
  refine withFile_handled order held fun i f asks => ?_
  obtain ⟨slot, named⟩ := filed i f asks
  obtain ⟨r, v', d₁, -, read, growth, -, -⟩ :=
    BufM.fileRead_serves
    (b := d) putReply (fun _ _ => True) 4096 False (fun v b bytes more _ room => by
      obtain ⟨b', served⟩ := putReply_serves room v b
      exact ⟨b', served, trivial⟩)
    order.inv slot (Set.notMem_empty f) named (positive i f asks) (fits i f asks) trivial
  obtain ⟨w, d₂, advanced⟩ := advance_serves i r v' d₁
  exact ⟨w, v', d₂, .bind (desk_serves v d) (.bind read advanced), growth.handled order⟩

theorem serveWrite_handled (plain : ∀ i f, Asks d i f → v.mem.type f ≠ ftypeDir)
    (positive : ∀ i f, Asks d i f → (d.fdData i 1).toNat < 2 ^ 31)
    (fits : ∀ i f, Asks d i f → 8 + (d.words 1).toNat ≤ 4096)
    (permitted : ∀ i f, Asks d i f → may f (v.mem.size f) ∧ may f (d.fdData i 1 + d.words 1)) :
    ∃ r v' d', Serves serveWrite v d r v' d' ∧ v.Handled may v' := by
  refine withFile_handled order held fun i f asks => ?_
  obtain ⟨slot, named⟩ := filed i f asks
  have file : v.mem.Regular f := ⟨slot, named, plain i f asks⟩
  obtain ⟨r, v', d₁, written, -, changes, ⟨m, xs, cut, wrote⟩, -⟩ : ∃ r v' d',
    Serves (BufM.fileWrite fetchData f (d.words 1) (d.fdData i 1)) v d r v' d' ∧
      d'.words = d.words ∧ Changes False False v v' ∧ _ :=
    BufM.fileWrite_serves fetchData (fun d' => d'.words = d.words) (payload d)
      (fun v d' i n same room => fetchData_serves room (fits _ f asks) v same) rfl
        (by simp [payload]) order.inv file
      (positive i f asks) order.trim False.elim False.elim
  have order' := Volume.Changes.inOrder changes order
  obtain ⟨stays, grows⟩ := permitted i f asks
  have alters : v.mem.Alters may v'.mem := by
    rcases cut with rfl | cut
    · exact wrote.alters order.inv slot order'.inv ⟨_, stays⟩
    · have first : v.mem.Alters may m := cut.alters order.inv file grows
      exact first.trans (wrote.alters (cut.inv file) (first.slot f slot) order'.inv ⟨_, stays⟩)
  obtain ⟨w, d₂, advanced⟩ := advance_serves i r v' d₁
  exact ⟨w, v', d₂, .bind (desk_serves v d) (.bind written advanced), order', alters⟩

theorem serveFlush_handled : ∃ r v' d', Serves serveFlush v d r v' d' ∧ v.Handled may v' := by
  refine withFile_handled order held fun i f asks => ?_
  obtain ⟨v', does, flushing⟩ :=
    FsM.fileFlush_does False order.inv (filed i f asks).1 (Set.notMem_empty f)
  exact ⟨0, v', d, .bind (BufM.lift_serves does d) (.pure _ _), flushing.growth.handled order⟩

omit held filed in
theorem serveSync_handled (d : Desk) : ∃ r v' d', Serves serveSync v d r v' d' ∧ v.Handled may v' := by
  obtain ⟨v', does, flushing⟩ := FsM.fsSync_does ∅ False order.inv.small
  exact ⟨0, v', d, .bind (BufM.lift_serves does d) (.pure _ _), flushing.growth.handled order⟩

theorem serveStat_handled : ∃ r v' d', Serves serveStat v d r v' d' ∧ v.Handled may v' := by
  refine withFile_handled order held fun i f asks => ?_
  obtain ⟨slot, -⟩ := filed i f asks
  have valid := slot.valid order.inv
  obtain ⟨name, string, short⟩ := stringAt_file order.inv slot
  have room : 0 + name.length ≤ 4096 := by omega
  obtain ⟨d', replied⟩ := putReply_serves room v d
  have size := FsM.load_does order.inv.small valid f.fSize
  have type := FsM.load_does order.inv.small valid f.fType
  let filled := Function.update (Function.update d'.words 32 (v.mem f.block f.fSize)) 33
    (if v.mem f.block f.fType = ftypeDir then 1 else 0)
  have reads : Does (stringFrom diskBlocks f.block f.fName) v name v :=
    stringFrom_does order.inv.small valid string
  refine ⟨0, v, d'.setWords filled, .bind (BufM.lift_serves reads d) (.bind replied ?_), .refl order⟩
  exact .bind (BufM.lift_serves size d')
    (.bind (BufM.lift_serves type d') (.bind (update_serves _ d' _) (.pure _ _)))

theorem dispatch_handled (polite : Polite req v.mem d) :
    ∃ r v' d', Serves (dispatch req) v d r v' d' ∧ v.Handled (Touches req v.mem d) v' := by
  have code : ∀ {n : Nat}, n < 2 ^ 32 → req.toNat = n → req = BitVec.ofNat 32 n := by
    intro n small same
    apply BitVec.eq_of_toNat_eq
    rw [same, BitVec.toNat_ofNat, Nat.mod_eq_of_lt small]
  unfold dispatch handlers
  split
  · exact ⟨Errno.inval.code, v, d, .pure _ _, .refl order⟩
  next handler found =>
    split at found <;> cases found
    next number =>
      have set : req = 2 := code (by decide) number
      exact serveSetSize_handled order held filed (fun i f asks => polite.regular i f asks (.inl set))
        fun i f asks => .setSize set asks rfl
    next number =>
      have read : req = 3 := code (by decide) number
      exact serveRead_handled order held filed (fun i f asks => polite.offset i f asks (.inl read))
        fun i f asks => polite.read i f asks read
    next number =>
      have write : req = 4 := code (by decide) number
      exact serveWrite_handled order held filed (fun i f asks => polite.regular i f asks (.inr write))
        (fun i f asks => polite.offset i f asks (.inr write))
          (fun i f asks => polite.write i f asks write)
        fun i f asks => ⟨.write write asks (.inl rfl), .write write asks (.inr rfl)⟩
    · exact serveStat_handled order held filed
    · exact serveFlush_handled order held filed
    · exact serveSync_handled order d

end Handlers

end Serve

end ServM

end Jos.Fs
