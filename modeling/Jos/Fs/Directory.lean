import Jos.Fs.Acts

namespace Jos.Fs

open Jos.Shared
open Jos.Kern (Word Byte)

theorem srem_block {x : Word} (whole : x.toNat % 4096 = 0) : x.srem 4096 = 0 := by
  apply BitVec.eq_of_toInt_eq
  rw [BitVec.toInt_srem, show (4096 : Word).toInt = 4096 by decide, show (0 : Word).toInt = 0 from rfl,
    BitVec.toInt_eq_toNat_cond]
  apply Int.tmod_eq_zero_of_dvd
  split <;> omega

theorem sdiv_block {x : Word} (small : x.toNat < 2 ^ 31) : (x.sdiv 4096).toNat = x.toNat / 4096 := by
  have positive : x.msb = false := by
    rw [BitVec.msb_eq_false_iff_two_mul_lt]
    omega
  rw [BitVec.toNat_sdiv, positive, show (4096 : Word).msb = false from rfl]
  exact BitVec.toNat_udiv

theorem mem_components {path name : List Byte} (member : name ∈ components path) : name ≠ [] ∧
    ∀ b ∈ name, b ∈ path := by
  rw [components, List.mem_filter, decide_eq_true_eq] at member
  refine ⟨member.2, fun b here => ?_⟩
  have inside : ∀ parts : List (List Byte), name ∈ parts → b ∈ [(0x2F : Byte)].intercalate parts := by
    intro parts
    induction parts with
    | nil => simp
    | cons part rest ih =>
      intro member
      cases rest with
      | nil =>
        rw [List.mem_singleton] at member
        subst member
        simpa [List.intercalate] using here
      | cons next rest =>
        rw [List.intercalate, List.intersperse_cons_cons, List.flatten_cons, List.flatten_cons,
          List.mem_append, List.mem_append]
        rcases List.mem_cons.mp member with rfl | later
        · exact .inl here
        · exact .inr (.inr (ih later))
  have whole := inside _ member.1
  rwa [List.intercalate_splitOn] at whole

def Proper (names : List (List Byte)) : Prop := ∀ part ∈ names, part ≠ [] ∧ ∀ b ∈ part, b ≠ 0

theorem proper_components {path : List Byte} (nonzero : ∀ b ∈ path, b ≠ 0) :
    Proper (components path) := by
  intro part member
  obtain ⟨nonempty, inside⟩ := mem_components member
  exact ⟨nonempty, fun b here => nonzero b (inside b here)⟩

theorem Proper.tail {name : List Byte} {rest : List (List Byte)} (proper : Proper (name :: rest)) :
    Proper rest :=
  fun part member => proper part (List.mem_cons_of_mem name member)

theorem Proper.before {init rest : List (List Byte)} (proper : Proper (init ++ rest)) : Proper init :=
  fun part member => proper part (List.mem_append_left rest member)

namespace Image

variable {m m' : Image} {stale : Set FilePtr} {d f : FilePtr} {hits : Block → Nat → Bool} {n : Nat}

def NameOnly (hits : Block → Nat → Bool) : Prop := ∀ blk blk' j,
  (∀ x < 32, blk (64 * j + x) = blk' (64 * j + x)) → hits blk (256 * j) = hits blk' (256 * j)

theorem nameOnly_unnamed : NameOnly fun blk o => byteAt blk o = 0 := by
  intro blk blk' j same
  have index : 256 * j / 4 = 64 * j + 0 := by omega
  simp only [byteAt, index, same 0 (by decide)]

theorem nameOnly_strEq {name : List Byte} (short : name.length < maxnamelen) :
    NameOnly fun blk o => strEq blk o name := by
  intro blk blk' j same
  simp only [maxnamelen] at short
  rw [Bool.eq_iff_iff]
  simp only [strEq, List.all_eq_true, decide_eq_true_eq]
  refine forall₂_congr fun c member => ?_
  have inside := (List.mem_zipIdx' member).1
  rw [List.length_append, List.length_singleton] at inside
  have index : (256 * j + c.2) / 4 = 64 * j + c.2 / 4 := by omega
  simp only [byteAt, index, same (c.2 / 4) (by omega)]

def Passed (m : Image) (d : FilePtr) (hits : Block → Nat → Bool) (n : Nat) : Prop :=
  ∃ c, Cell.ofBlock n = some c ∧ m.cell d c ≠ 0 ∧ ∀ j < 16, hits (m (m.cell d c)) (256 * j) = false

theorem Persists.hits_eq (keeps : m.Persists m') (names : NameOnly hits) {b j : Nat}
    (slot : m.Slot (.entry b j)) : hits (m' b) (256 * j) = hits (m b) (256 * j) :=
  names _ _ j fun x small => keeps.name _ slot x small

theorem Passed.persist (passed : m.Passed d hits n) (keeps : m.Persists m') (names : NameOnly hits)
    (slot : m.Slot d) (kind : m.type d = ftypeDir) : m'.Passed d hits n := by
  obtain ⟨c, place, linked, misses⟩ := passed
  have same := keeps.dirCell d c slot kind linked
  refine ⟨c, place, same ▸ linked, fun j small => ?_⟩
  rw [same, keeps.hits_eq names (.entry slot kind (Cell.ofBlock_data place) linked small)]
  exact misses j small

structure First (m : Image) (d : FilePtr) (hits : Block → Nat → Bool) (n : Nat) (f : FilePtr) : Prop where
  before : ∀ n' < n, m.Passed d hits n'
  here : ∃ c j, Cell.ofBlock n = some c ∧ m.cell d c ≠ 0 ∧ j < 16 ∧ f = .entry (m.cell d c) j ∧
    hits (m (m.cell d c)) (256 * j) = true ∧ ∀ j' < j, hits (m (m.cell d c)) (256 * j') = false

theorem First.persist (first : m.First d hits n f) (keeps : m.Persists m') (names : NameOnly hits)
    (slot : m.Slot d) (kind : m.type d = ftypeDir) : m'.First d hits n f := by
  refine ⟨fun n' low => (first.before n' low).persist keeps names slot kind, ?_⟩
  obtain ⟨c, j, place, linked, small, rfl, hit, misses⟩ := first.here
  have same := keeps.dirCell d c slot kind linked
  have names' : ∀ j < 16,
    hits (m' (m.cell d c)) (256 * j) = hits (m (m.cell d c)) (256 * j) := fun j small =>
    keeps.hits_eq names (.entry slot kind (Cell.ofBlock_data place) linked small)
  refine ⟨c, j, place, same ▸ linked, small, by rw [same], ?_, fun j' low => ?_⟩
  · rw [same, names' j small, hit]
  · rw [same, names' j' (by omega), misses j' low]

theorem First.slot (first : m.First d hits n f) (slot : m.Slot d) (kind : m.type d = ftypeDir) :
    m.Slot f := by
  obtain ⟨c, j, place, linked, small, rfl, -⟩ := first.here
  exact .entry slot kind (Cell.ofBlock_data place) linked small

def dirBlocks (m : Image) (d : FilePtr) : Nat := ((m.size d).sdiv 4096).toNat

inductive Path (m : Image) : FilePtr → List (List Byte) → FilePtr → Prop
  | nil {f : FilePtr} : Path m f [] f
  | cons {d f g : FilePtr} {name : List Byte} {rest : List (List Byte)} {n : Nat}
    (short : name.length < maxnamelen)
      (kind : m.type d = ftypeDir) (inside : n < m.dirBlocks d) (first : m.First d (strEq · · name) n f)
      (path : Path m f rest g) : Path m d (name :: rest) g

namespace Path

variable {names : List (List Byte)} {name : List Byte} {g : FilePtr}

theorem slot (path : m.Path d names f) (slot : m.Slot d) : m.Slot f := by
  induction path with
  | nil => exact slot
  | cons _ kind _ first _ ih => exact ih (first.slot slot kind)

theorem persist (path : m.Path d names f) (keeps : m.Persists m')
    (sizes : ∀ d, m.Slot d → m.type d = ftypeDir → m.dirBlocks d ≤ m'.dirBlocks d) (slot : m.Slot d) :
    m'.Path d names f := by
  induction path with
  | nil => exact .nil
  | @cons d f g name rest n short kind inside first path ih =>
    exact .cons short ((keeps.type slot).trans kind) (inside.trans_le (sizes d slot kind))
      (first.persist keeps (nameOnly_strEq short) slot kind) (ih (first.slot slot kind))

end Path

end Image

namespace FsM

variable {v v' : Volume} {stale : Set FilePtr} {tidy : Prop} {f d : FilePtr} {n : Nat}
    {r : Except Errno Nat}

theorem Gets.growth (gets : Gets v stale tidy f n r v') : Volume.Growth stale tidy v v' := by
  cases gets with
  | outside => exact .refl
  | present => exact .refl
  | full => exact .refl
  | attached _ can => exact .single (.attach can)
  | half _ can => exact .single (.attach can)
  | both _ can can' => exact .tail (.single (.attach can)) (.attach can')

theorem Gets.linked {b : Nat} (inv : v.mem.Inv stale) (slot : v.mem.Slot f)
    (gets : Gets v stale tidy f n (.ok b) v') : ∃ c, Cell.ofBlock n = some c ∧ v'.mem.cell f c = b ∧
    b ≠ 0 := by
  cases gets with
  | present place linked => exact ⟨_, place, rfl, linked⟩
  | attached place can =>
    refine ⟨_, place, (Image.cell_attach inv can slot _).trans (if_pos ⟨rfl, rfl⟩), ?_⟩
    have high := can.high
    omega
  | both place can can' =>
    have slot' := (Image.attach_extends inv can).slot f slot
    refine ⟨_, place,
      (Image.cell_attach (Image.attach_inv inv can) can' slot' _).trans (if_pos ⟨rfl, rfl⟩), ?_⟩
    have high := can'.high
    omega

theorem Gets.raw (inv : v.mem.Inv stale) (slot : v.mem.Slot f) (current : f ∉ stale)
    (gets : Gets v stale tidy f n r v') : v'.mem.raw f = v.mem.raw f := by
  cases gets with
  | outside => rfl
  | present => rfl
  | full => rfl
  | attached _ can => exact Image.raw_attach inv can slot (slot.outside_self inv current) current
  | half _ can => exact Image.raw_attach inv can slot (slot.outside_self inv current) current
  | both _ can can' =>
    have inv' := Image.attach_inv inv can
    have slot' := (Image.attach_extends inv can).slot f slot
    exact (Image.raw_attach inv' can' slot' (slot'.outside_self inv' current) current).trans
      (Image.raw_attach inv can slot (slot.outside_self inv current) current)

theorem Gets.error {e : Errno} (gets : Gets v stale tidy f n (.error e) v') : e = .inval ∨
    e = .noDisk := by
  cases gets with
  | outside => exact .inl rfl
  | full => exact .inr rfl
  | half => exact .inr rfl

section Scan

variable {hits : Block → Nat → Bool}

inductive Looks (m : Image) (d : FilePtr) (hits : Block → Nat → Bool) (n : Nat) :
    Option (Except Errno FilePtr) → Prop
  | passed (passed : m.Passed d hits n) : Looks m d hits n none
  | failed {e : Errno} (error : e ≠ .notFound) : Looks m d hits n (some (.error e))
  | found {f : FilePtr} (here : ∃ c j, Cell.ofBlock n = some c ∧ m.cell d c ≠ 0 ∧ j < 16 ∧
    f = .entry (m.cell d c) j ∧
      hits (m (m.cell d c)) (256 * j) = true ∧ ∀ j' < j, hits (m (m.cell d c)) (256 * j') = false) :
      Looks m d hits n (some (.ok f))

theorem scanFiles_does {b : Nat} (small : v.mem.Small) (valid : v.mem.Valid b)
    (hits : Block → Nat → Bool) :
    Does (scanFiles hits b) v
    (((List.range 16).find? fun j => hits (v.mem b) (256 * j)).map (.entry b)) v := by
  refine .bind (touch_does small valid) (.get_bind fun s _ looks => ?_)
  rw [← looks]
  exact .pure _ _

theorem scanBlock_does (hits : Block → Nat → Bool) (inv : v.mem.Inv stale) (slot : v.mem.Slot d)
    (kind : v.mem.type d = ftypeDir)
    (room : v.mem.Neat tidy d → n < Image.blocksOf (v.mem.size d)) :
    ∃ r v', Does (scanBlock d hits n) v r v' ∧ Volume.Growth stale tidy v v' ∧
    Looks v'.mem d hits n r := by
  have current : d ∉ stale := fun old => inv.regular d old slot kind
  obtain ⟨got, v', does, gets⟩ := fileGetBlock_does inv slot current (inv.named_dir slot kind) room
  have growth := gets.growth
  cases got with
  | error e =>
    refine ⟨_, v', .bind does (.pure _ _), growth, .failed ?_⟩
    rcases gets.error with rfl | rfl <;> decide
  | ok b =>
    obtain ⟨c, place, target, linked⟩ := gets.linked inv slot
    have inv' := Volume.Growth.inv growth inv
    have slot' := (Volume.Growth.extends growth inv).slot d slot
    rw [← target] at linked
    have valid := (inv'.range d c slot' (.of_mem current) linked).2
    rw [target] at valid
    refine ⟨_, v', .bind does (.bind (scanFiles_does inv'.small valid hits) (.pure _ _)), growth, ?_⟩
    cases hit : (List.range 16).find? fun j => hits (v'.mem b) (256 * j) with
    | none =>
      rw [List.find?_range_eq_none] at hit
      refine .passed ⟨c, place, linked, fun j small => ?_⟩
      rw [target]
      simpa using hit j small
    | some j =>
      obtain ⟨here, inside, before⟩ := List.find?_range_eq_some.mp hit
      refine .found ⟨c, j, place, linked,
        List.mem_range.mp inside, by rw [target], by rw [target]; exact here, fun j' low => ?_⟩
      rw [target]
      simpa using before j' low

inductive Scans (m : Image) (d : FilePtr) (hits : Block → Nat → Bool) (nblock : Nat) :
    Option (Except Errno FilePtr) → Prop
  | passed (passed : ∀ n < nblock, m.Passed d hits n) : Scans m d hits nblock none
  | failed {e : Errno} (error : e ≠ .notFound) : Scans m d hits nblock (some (.error e))
  | found {n : Nat} {f : FilePtr} (inside : n < nblock) (first : m.First d hits n f) :
      Scans m d hits nblock (some (.ok f))

theorem scanDir_does (names : Image.NameOnly hits) (inv : v.mem.Inv stale) (slot : v.mem.Slot d)
    (kind : v.mem.type d = ftypeDir) (trim : v.mem.Trim tidy) :
    ∃ r v', Does (scanDir d hits) v (v.mem.dirBlocks d, r) v' ∧ Volume.Growth stale tidy v v' ∧
      Scans v'.mem d hits (v.mem.dirBlocks d) r := by
  let nblock := v.mem.dirBlocks d
  have loaded : Does (load d.block d.fSize) v (v.mem.size d) v := load_does inv.small (slot.valid inv) _
  have whole := srem_block (inv.dirSize d slot kind)
  have loop := search_does (v := v) (scanBlock d hits)
    (fun n v' => Volume.Growth stale tidy v v' ∧ ∀ n' < n, v'.mem.Passed d hits n')
    (fun n r v' => Volume.Growth stale tidy v v' ∧ Scans v'.mem d hits nblock (some r)) nblock 0
    ⟨.refl, fun _ low => absurd low (Nat.not_lt_zero _)⟩ (by
      rintro n v₁ - high ⟨growth, before⟩
      have ext := Volume.Growth.extends growth inv
      have inv₁ := Volume.Growth.inv growth inv
      have slot₁ := ext.slot d slot
      have kind₁ := (ext.type slot).trans kind
      have room : v₁.mem.Neat tidy d → n < Image.blocksOf (v₁.mem.size d) := by
        intro _
        have bound := (trim d slot (.inr kind)).1
        rw [maxfilesize_eq] at bound
        rw [Nat.zero_add, show nblock = (v.mem.size d).toNat / 4096 from sdiv_block (by omega)] at high
        rw [ext.size slot, Image.blocksOf]
        omega
      obtain ⟨r, v₂, does, growth₂, looks⟩ := scanBlock_does hits inv₁ slot₁ kind₁ room
      have ext₂ := Volume.Growth.extends growth₂ inv₁
      have before₂ : ∀ n' < n, v₂.mem.Passed d hits n' :=
        fun n' low => (before n' low).persist ext₂.toPersists names slot₁ kind₁
      cases looks with
      | passed passed =>
        refine .inl ⟨v₂, does, growth.trans growth₂, fun n' low => ?_⟩
        rcases Nat.lt_succ_iff_lt_or_eq.mp low with earlier | rfl
        · exact before₂ n' earlier
        · exact passed
      | failed error => exact .inr ⟨_, v₂, does, growth.trans growth₂, .failed error⟩
      | found here =>
        exact .inr ⟨_, v₂, does, growth.trans growth₂, .found (by omega) ⟨before₂, here⟩⟩)
  have run : ∀ {r v'}, Does (search (scanBlock d hits) nblock 0) v r v' →
    Does (scanDir d hits) v (nblock, r) v' := by
    intro r v' does
    refine .bind loaded ?_
    rw [if_neg (by simpa using whole)]
    exact .bind does (.pure _ _)
  rcases loop with ⟨v', does, growth, passed⟩ | ⟨n, r, v', -, does, growth, scans⟩
  · exact ⟨none, v', run does, growth, .passed fun n inside => passed n (by omega)⟩
  · exact ⟨some r, v', run does, growth, scans⟩

end Scan

theorem dirLookup_does {name : List Byte} (short : name.length < maxnamelen) (inv : v.mem.Inv stale)
    (slot : v.mem.Slot d) (kind : v.mem.type d = ftypeDir) (trim : v.mem.Trim tidy) :
    ∃ found v', Does (dirLookup d name) v (found.getD (.error .notFound)) v' ∧
    Volume.Growth stale tidy v v' ∧
      Scans v'.mem d (strEq · · name) (v'.mem.dirBlocks d) found := by
  obtain ⟨found, v', does, growth, scans⟩ := scanDir_does (Image.nameOnly_strEq short) inv slot kind trim
  refine ⟨found, v', .bind does (.pure _ _), growth, ?_⟩
  rw [Image.dirBlocks, (Volume.Growth.extends growth inv).size slot]
  exact scans

inductive Arrives (m : Image) (f : FilePtr) (names : List (List Byte)) : Walked → Prop
  | found {g : FilePtr} (path : m.Path f names g) : Arrives m f names (.found g)
  | failed {e : Errno} : Arrives m f names (.failed e none)
  | missing {init : List (List Byte)} {name : List Byte} {dir : FilePtr} (last : names = init ++ [name])
      (path : m.Path f init dir) (short : name.length < maxnamelen) (kind : m.type dir = ftypeDir)
      (passed : ∀ n < m.dirBlocks dir, m.Passed dir (strEq · · name) n) :
      Arrives m f names (.failed .notFound (some (dir, name)))

theorem walkFrom_does (names : List (List Byte)) (inv : v.mem.Inv stale) (slot : v.mem.Slot f)
    (trim : v.mem.Trim tidy) : ∃ w v', Does (walkFrom f names) v w v' ∧
    Volume.Growth stale tidy v v' ∧ Arrives v'.mem f names w := by
  induction names generalizing f v with
  | nil => exact ⟨_, v, .pure _ _, .refl, .found .nil⟩
  | cons name rest ih =>
    have loaded : Does (load f.block f.fType) v (v.mem.type f) v := load_does inv.small (slot.valid inv) _
    unfold walkFrom
    by_cases long : maxnamelen ≤ name.length
    · rw [if_pos long]
      exact ⟨_, v, .pure _ _, .refl, .failed⟩
    rw [if_neg long]
    by_cases kind : v.mem.type f = ftypeDir
    · have short : name.length < maxnamelen := by omega
      obtain ⟨found, v₁, looked, growth, scans⟩ := dirLookup_does short inv slot kind trim
      have ext := Volume.Growth.extends growth inv
      have kind₁ := (ext.type slot).trans kind
      have dir : ¬v.mem.type f ≠ ftypeDir := by simpa using kind
      cases scans with
      | passed passed =>
        refine ⟨.failed .notFound (if Errno.notFound = .notFound ∧ rest = [] then some (f, name)
          else none), v₁, .bind loaded ?_, growth, ?_⟩
        · rw [if_neg dir]
          exact .bind looked (.pure _ _)
        · cases rest with
          | nil => exact .missing rfl .nil short kind₁ passed
          | cons => exact .failed
      | @failed e error =>
        refine ⟨.failed e (if e = .notFound ∧ rest = [] then some (f, name) else none), v₁,
          .bind loaded ?_, growth, ?_⟩
        · rw [if_neg dir]
          exact .bind looked (.pure _ _)
        · rw [if_neg (fun both => error both.1)]
          exact .failed
      | @found n g inside first =>
        have inv₁ := Volume.Growth.inv growth inv
        have slot₁ := ext.slot f slot
        obtain ⟨w, v₂, walked, growth₂, arrives⟩ :=
          ih inv₁ (first.slot slot₁ kind₁) (Volume.Growth.trim growth inv trim)
        have ext₂ := Volume.Growth.extends growth₂ inv₁
        have step : ∀ {names g'}, v₂.mem.Path g names g' → v₂.mem.Path f (name :: names) g' := by
          intro names g' path
          refine .cons short ((ext₂.type slot₁).trans kind₁) ?_
            (first.persist ext₂.toPersists (Image.nameOnly_strEq short) slot₁ kind₁) path
          rw [Image.dirBlocks, ext₂.size slot₁]
          exact inside
        refine ⟨w, v₂, .bind loaded ?_, growth.trans growth₂, ?_⟩
        · rw [if_neg dir]
          exact .bind looked walked
        · cases arrives with
          | found path => exact .found (step path)
          | failed => exact .failed
          | missing last path short kind passed =>
            exact .missing (by rw [last]; rfl) (step path) short kind passed
    · refine ⟨.failed .notFound none, v, .bind loaded ?_, .refl, .failed⟩
      rw [if_pos kind]
      exact .pure _ _

theorem walkPath_does (path : List Byte) (inv : v.mem.Inv stale) (trim : v.mem.Trim tidy) :
    ∃ w v', Does (walkPath path) v w v' ∧ Volume.Growth stale tidy v v' ∧
    Arrives v'.mem .root (components path) w :=
  walkFrom_does (components path) inv .root trim

theorem fileOpen_does (path : List Byte) (inv : v.mem.Inv stale) (trim : v.mem.Trim tidy) :
    ∃ r v', Does (fileOpen path) v r v' ∧ Volume.Growth stale tidy v v' ∧
      ∀ f, r = .ok f → v'.mem.Path .root (components path) f := by
  obtain ⟨w, v', walked, growth, arrives⟩ := walkPath_does path inv trim
  cases arrives with
  | found reached =>
    refine ⟨_, v', .bind walked (.pure _ _), growth, fun f same => ?_⟩
    cases same
    exact reached
  | failed => exact ⟨_, v', .bind walked (.pure _ _), growth, nofun⟩
  | missing => exact ⟨_, v', .bind walked (.pure _ _), growth, nofun⟩

end FsM

end Jos.Fs
