import Jos.Fs.File

namespace Jos.Fs

open Jos.Shared
open Jos.Kern (Word Byte)
open Function

/-- The file system apart from what is cached: the blocks as the server sees them, the blocks as
they are on the disk, and all contents that the disk has had. -/
@[ext]
structure Volume where
  mem : Image
  disk : Image
  images : Set Image

namespace Image

def nblocks (m : Image) : Nat := (m 1 1).toNat

def free (m : Image) (b : Nat) : Bool := (m (2 + b / 32768) (b / 32 % 1024)).getLsbD (b % 32)

structure Valid (m : Image) (b : Nat) : Prop where
  exists_ : b < m.nblocks
  used : m.free b = false

/-- One block holds the bitmap, and it says that it is in use itself, like the blocks before it. -/
structure Small (m : Image) : Prop where
  low : 3 ≤ m.nblocks
  high : m.nblocks ≤ 32768
  reserved : ∀ b < 3, m.free b = false

theorem Small.valid {m : Image} (small : m.Small) {b : Nat} (low : b < 3) : m.Valid b :=
  ⟨low.trans_le small.low, small.reserved b low⟩

def take (m : Image) (p : Nat) : Image := m.put 2 (p / 32) (m 2 (p / 32) &&& ~~~(1#32 <<< (p % 32)))

def give (m : Image) (p : Nat) : Image := m.put 2 (p / 32) (m 2 (p / 32) ||| 1#32 <<< (p % 32))

section Put

variable {m : Image} {b k p : Nat} {word : Word}

@[simp] theorem put_self (m : Image) (b k : Nat) (word : Word) : m.put b k word b k = word := by
  simp [put]

theorem put_of_ne {b' k' : Nat} (other : b' ≠ b ∨ k' ≠ k) : m.put b k word b' k' = m b' k' := by
  by_cases same : b' = b
  · subst same
    have differs : k' ≠ k := other.resolve_left fun ne => ne rfl
    simp [put, differs]
  · simp [put, same]

theorem put_of_block_ne {b' : Nat} (other : b' ≠ b) : m.put b k word b' = m b' := by simp [put, other]

theorem put_comm {b' k' : Nat} {word' : Word} (other : b ≠ b') :
    (m.put b k word).put b' k' word' = (m.put b' k' word').put b k word := by
  simp only [put, update_of_ne other, update_of_ne other.symm]
  exact update_comm other _ _ _

theorem nblocks_put (other : b ≠ 1 ∨ k ≠ 1) : (m.put b k word).nblocks = m.nblocks := by
  rw [nblocks, put_of_ne (by tauto)]
  rfl

theorem free_put (m : Image) {p q : Nat} (word : Word) (inside : q < 32768) :
    (m.put 2 (p / 32) word).free q = if q / 32 = p / 32 then word.getLsbD (q % 32) else m.free q := by
  have one : q / 32768 = 0 := Nat.div_eq_of_lt inside
  have index : q / 32 % 1024 = q / 32 := Nat.mod_eq_of_lt (by omega)
  rw [free, free, one, index]
  by_cases same : q / 32 = p / 32
  · rw [if_pos same, same, Nat.add_zero, put_self]
  · rw [if_neg same, put_of_ne (.inr same)]

theorem free_of_small (inside : p < 32768) : m.free p = (m 2 (p / 32)).getLsbD (p % 32) := by
  rw [free, Nat.div_eq_of_lt inside, Nat.mod_eq_of_lt (show p / 32 < 1024 by omega)]

theorem free_take {q : Nat} (inside : p < 32768) (inside' : q < 32768) :
    (m.take p).free q = (m.free q && decide (q ≠ p)) := by
  rw [take, free_put m _ inside']
  split
  next same =>
    rw [getLsbD_clearBit _ _ (by omega), free_of_small inside', same]
    congr 2
    rw [eq_iff_iff]
    omega
  next other => simp [show q ≠ p by rintro rfl; exact other rfl]

theorem free_give {q : Nat} (inside : p < 32768) (inside' : q < 32768) :
    (m.give p).free q = (m.free q || decide (q = p)) := by
  rw [give, free_put m _ inside']
  split
  next same =>
    rw [getLsbD_setBit _ _ (by omega), free_of_small inside', same]
    congr 2
    rw [eq_iff_iff]
    omega
  next other => simp [show q ≠ p by rintro rfl; exact other rfl]

theorem nblocks_take (m : Image) (p : Nat) : (m.take p).nblocks = m.nblocks :=
  nblocks_put (.inl (by decide))

theorem nblocks_give (m : Image) (p : Nat) : (m.give p).nblocks = m.nblocks :=
  nblocks_put (.inl (by decide))

end Put

end Image

namespace Volume

def edit (v : Volume) (change : Image → Image) : Volume := { v with mem := change v.mem }

def flush (v : Volume) (b : Nat) : Volume :=
  let disk := update v.disk b (v.mem b)
  { v with disk := disk, images := insert disk v.images }

end Volume

namespace Cache

structure Live (s : Cache) : Prop where
  coherent : s.Coherent
  super : s.vaIsMapped 1 = true
  bitmap : s.vaIsMapped 2 = true

def volume (s : Cache) : Volume := ⟨s.content, s.disk, {image | image = s.disk ∨ image ∈ s.past}⟩

section

variable {s : Cache} {b : Nat}

theorem vaIsMapped_setPage (s : Cache) (b b' : Nat) (page : Page) :
    (s.setPage b (some page)).vaIsMapped b' = (decide (b' = b) || s.vaIsMapped b') := by
  by_cases same : b' = b <;> simp [vaIsMapped, setPage, same]

theorem vaIsMapped_mark {c : Nat} (mapped : s.vaIsMapped c = true) : (s.mark b).vaIsMapped c = true := by
  unfold mark
  split
  · rw [vaIsMapped_setPage, mapped, Bool.or_true]
  · exact mapped

theorem Live.setPage (live : s.Live) {page : Page} (clean : page.dirty = false → page.data = s.disk b) :
    (s.setPage b (some page)).Live :=
  ⟨live.coherent.setPage clean, by rw [vaIsMapped_setPage, live.super, Bool.or_true],
    by rw [vaIsMapped_setPage, live.bitmap, Bool.or_true]⟩

theorem volume_of_content {s' : Cache} (content : s'.content = s.content) (disk : s'.disk = s.disk)
    (past : s'.past = s.past) : s'.volume = s.volume := by
  simp [volume, content, disk, past]

theorem mark_live (live : s.Live) (b : Nat) : (s.mark b).Live ∧ (s.mark b).volume = s.volume := by
  refine ⟨?_, volume_of_content (content_mark s b) ?_ ?_⟩ <;> unfold mark <;> split
  next page mapped => exact live.setPage (live.coherent b page mapped)
  · exact live
  all_goals rfl

theorem pageIn_live (live : s.Live) (unmapped : s.pages b = none) :
    (s.pageIn b).Live ∧ (s.pageIn b).volume = s.volume :=
  ⟨live.setPage fun _ => rfl, volume_of_content (content_pageIn unmapped) rfl rfl⟩

theorem poke_live (live : s.Live) (mapped : s.vaIsMapped b = true) (change : Block → Block) :
    (s.poke b change).Live ∧
      (s.poke b change).volume = s.volume.edit fun m => update m b (change (m b)) := by
  refine ⟨?_, ?_⟩
  · unfold poke
    split
    · exact live.setPage nofun
    · exact live
  · have content := content_poke mapped change
    have rest : (s.poke b change).disk = s.disk ∧ (s.poke b change).past = s.past := by
      unfold poke
      split <;> exact ⟨rfl, rfl⟩
    simp [volume, Volume.edit, content, rest]

theorem flushBlock_live (live : s.Live) (b : Nat) :
    (s.flushBlock b).Live ∧ (s.flushBlock b).volume = s.volume.flush b := by
  have disk := disk_flushBlock live.coherent b
  have content := content_flushBlock s b
  have mapped : ∀ b', (s.flushBlock b).vaIsMapped b' = s.vaIsMapped b' := by
    intro b'
    unfold flushBlock
    split
    next page here =>
      split
      · by_cases same : b' = b
        · subst same
          simp [remap, ideWrite, here, Cache.setPage, vaIsMapped]
        · simp [remap, ideWrite, here, Cache.setPage, vaIsMapped, same]
      · rfl
    · rfl
  refine ⟨⟨live.coherent.flushBlock b, by rw [mapped, live.super], by rw [mapped, live.bitmap]⟩, ?_⟩
  -- Where nothing had to be written, the image is not new.
  have images : ∀ image, (image = (s.flushBlock b).disk ∨ image ∈ (s.flushBlock b).past) ↔
      image = (s.flushBlock b).disk ∨ image = s.disk ∨ image ∈ s.past := by
    intro image
    have past : (s.flushBlock b).past = s.disk :: s.past ∨
        (s.flushBlock b).past = s.past ∧ (s.flushBlock b).disk = s.disk := by
      unfold flushBlock
      split
      next page here =>
        split
        · exact .inl (by simp [remap, ideWrite, here, Cache.setPage])
        · exact .inr ⟨rfl, rfl⟩
      · exact .inr ⟨rfl, rfl⟩
    rcases past with past | ⟨past, same⟩
    · rw [past, List.mem_cons]
    · rw [past, same]
      tauto
  simp only [volume, Volume.flush, content, ← disk, Volume.mk.injEq, true_and]
  ext image
  simpa using images image

end

end Cache

-- From every cache that is live and in which the file system is `v`, the program returns `a` and
-- makes the file system `v'`.
abbrev Does {α : Type} (x : FsM α) (v : Volume) (a : α) (v' : Volume) : Prop :=
  Yields Cache.Live Cache.volume x v a v'

namespace FsM

variable {v : Volume} {b k d : Nat}

theorem search_does {β : Type} (body : Nat → FsM (Option β)) (inv : Nat → Volume → Prop)
    (left : Nat → β → Volume → Prop) (n i : Nat) (start : inv i v)
    (round : ∀ k v, i ≤ k → k < i + n → inv k v →
      (∃ v', Does (body k) v none v' ∧ inv (k + 1) v') ∨ ∃ r v', Does (body k) v (some r) v' ∧
      left k r v') :
    (∃ v', Does (search body n i) v none v' ∧ inv (i + n) v') ∨
    ∃ k r v', (i ≤ k ∧ k < i + n) ∧ Does (search body n i) v (some r) v' ∧ left k r v' :=
  search_yields inv left n start round

theorem sweep_does (body : Nat → FsM Unit) (inv : Nat → Volume → Prop) (n i : Nat) (start : inv i v)
    (round : ∀ k v, i ≤ k → k < i + n → inv k v → ∃ v', Does (body k) v () v' ∧ inv (k + 1) v') :
    ∃ v', Does (sweep body n i) v () v' ∧ inv (i + n) v' :=
  sweep_yields inv n start round

theorem access_mapped {s : Cache} (mapped : s.vaIsMapped b = true) (d : Nat) :
    access d b s = .ok () (s.mark b) := by
  unfold access
  show EStateM.bind get _ s = _
  simp only [EStateM.bind, get, getThe, MonadStateOf.get, EStateM.get, mapped, if_true]
  rfl

theorem access_does (c d : Nat) (pinned : b = 1 ∨ b = 2) :
    Yields (fun s : Cache => s.Live ∧ s.vaIsMapped c = true) Cache.volume (access d b) v () v := by
  rintro s ⟨live, kept⟩ looks
  have mapped : s.vaIsMapped b = true := by
    rcases pinned with rfl | rfl
    · exact live.super
    · exact live.bitmap
  obtain ⟨marked, same⟩ := Cache.mark_live live b
  exact ⟨s.mark b, access_mapped mapped d, ⟨marked, Cache.vaIsMapped_mark kept⟩, same.trans looks⟩

section Sound

variable {sound : Cache → Prop} {touch : Nat → FsM Unit}

theorem loadBy_does (touches : Yields sound Cache.volume (touch b) v () v) (k : Nat) :
    Yields sound Cache.volume (loadBy touch b k) v (v.mem b k) v := by
  refine .bind touches (.get_bind fun s _ looks => ?_)
  rw [← looks]
  exact .pure _ _

theorem blockIsFree_does (touches : ∀ b, b = 1 ∨ b = 2 → Yields sound Cache.volume (touch b) v () v)
    (small : v.mem.Small) (inside : b < v.mem.nblocks) :
    Yields sound Cache.volume (blockIsFree touch b) v (v.mem.free b) v := by
  have one : b / 32768 = 0 := Nat.div_eq_of_lt (inside.trans_le small.high)
  refine .bind (loadBy_does (touches 1 (.inl rfl)) 1) ?_
  rw [if_neg (show ¬(v.mem 1 1).toNat ≤ b from not_le.mpr inside), Image.free, one]
  exact .bind (loadBy_does (touches 2 (.inr rfl)) _) (.pure _ _)

end Sound

theorem bcPgfault_inside {s : Cache} (live : s.Live) (unmapped : s.pages b = none)
    (small : s.content.Small) (inside : b < s.content.nblocks) (d : Nat) :
    ∃ s', bcPgfault (access d) b s = (if s.content.free b then .error .freeBlock s' else .ok () s') ∧
      (s'.Live ∧ s'.vaIsMapped b = true) ∧ s'.volume = s.volume := by
  obtain ⟨marked, same⟩ := Cache.mark_live live 1
  have other : b ≠ 1 := by
    rintro rfl
    have super := live.super
    simp [Cache.vaIsMapped, unmapped] at super
  have unmapped' : (s.mark 1).pages b = none := by
    unfold Cache.mark
    split
    · simpa [Cache.setPage, other] using unmapped
    · exact unmapped
  obtain ⟨loaded, same'⟩ := Cache.pageIn_live marked unmapped'
  have looks : ((s.mark 1).pageIn b).volume = s.volume := same'.trans same
  have super : loadBy (access d) 1 1 s = .ok (s.content 1 1) (s.mark 1) := by
    refine (run_bind (access_mapped live.super d)).trans ?_
    exact congrArg (fun m : Image => EStateM.Result.ok (m 1 1) (s.mark 1)) (Cache.content_mark s 1)
  obtain ⟨s', answered, live', looks'⟩ := blockIsFree_does (v := s.volume) (b := b)
    (fun _ pinned => access_does b d pinned) small inside _
      ⟨loaded, by simp [Cache.pageIn, Cache.vaIsMapped_setPage]⟩ looks
  refine ⟨s', ?_, live', looks'⟩
  have bound : b < 32768 := inside.trans_le small.high
  have inside' : b < (s.content 1 1).toNat := inside
  have load : (modify (·.pageIn b) : FsM Unit) (s.mark 1) = .ok () ((s.mark 1).pageIn b) := rfl
  rw [bcPgfault, if_neg (by simp only [diskBlocks]; omega), run_bind super, if_neg (by omega),
    run_bind load, run_bind answered, show s.volume.mem.free b = s.content.free b from rfl]
  split <;> rfl

theorem touch_ok {s : Cache} (live : s.Live) (small : s.content.Small) (valid : s.content.Valid b) :
    ∃ s', touch b s = .ok () s' ∧ s'.Live ∧ s'.volume = s.volume ∧ s'.vaIsMapped b = true := by
  by_cases mapped : s.vaIsMapped b = true
  · obtain ⟨marked, same⟩ := Cache.mark_live live b
    exact ⟨s.mark b, access_mapped mapped 4, marked, same, Cache.vaIsMapped_mark mapped⟩
  · have unmapped : s.pages b = none := by simpa [Cache.vaIsMapped] using mapped
    obtain ⟨s', loaded, ⟨live', mapped'⟩, looks'⟩ := bcPgfault_inside live unmapped small valid.exists_ 3
    rw [valid.used, if_neg (by simp)] at loaded
    obtain ⟨marked, same⟩ := Cache.mark_live live' b
    refine ⟨s'.mark b, ?_, marked, same.trans looks', Cache.vaIsMapped_mark mapped'⟩
    rw [touch, access]
    refine (run_bind (show (get : FsM Cache) s = .ok s s from rfl)).trans ?_
    rw [if_neg mapped, run_bind loaded]
    rfl

section Primitives

variable (small : v.mem.Small)
include small

theorem touch_does (valid : v.mem.Valid b) : Does (touch b) v () v := by
  rintro s live rfl
  obtain ⟨s', touched, live', looks, -⟩ := touch_ok live small valid
  exact ⟨s', touched, live', looks⟩

theorem load_does (valid : v.mem.Valid b) (k : Nat) : Does (load b k) v (v.mem b k) v :=
  loadBy_does (touch_does small valid) k

theorem change_does (valid : v.mem.Valid b) (f : Block → Block) :
    Does (change b f) v () (v.edit fun m => update m b (f (m b))) := by
  rintro s live rfl
  obtain ⟨s', touched, live', looks, mapped⟩ := touch_ok live small valid
  obtain ⟨live'', looks'⟩ := Cache.poke_live live' mapped f
  refine ⟨s'.poke b f, ?_, live'', by rw [looks', looks]⟩
  rw [change, run_bind touched]
  rfl

theorem store_does (valid : v.mem.Valid b) (k : Nat) (word : Word) :
    Does (store b k word) v () (v.edit fun m => m.put b k word) := change_does small valid _

theorem sNblocks_does : Does sNblocks v v.mem.nblocks v :=
  .bind (load_does small (small.valid (by decide)) 1) (.pure _ _)

theorem diskaddr_does (positive : b ≠ 0) (inside : b < v.mem.nblocks) : Does (diskaddr b) v () v := by
  rw [diskaddr, if_neg positive]
  refine .bind (sNblocks_does small) ?_
  rw [if_neg (by omega)]
  exact .pure _ _

theorem flushBlock_does (inside : b < v.mem.nblocks) : Does (flushBlock b) v () (v.flush b) := by
  rintro s live rfl
  have high := small.high
  obtain ⟨live', looks⟩ := Cache.flushBlock_live live b
  refine ⟨s.flushBlock b, ?_, live', looks⟩
  rw [flushBlock, if_neg (by simp only [diskBlocks]; omega)]
  rfl

theorem freeBlock_does (positive : b ≠ 0) (inside : b < 32768) :
    Does (freeBlock b) v () (v.edit fun m => m.give b) := by
  have here : 2 + b / 32768 = 2 ∧ b / 32 % 1024 = b / 32 := by omega
  rw [freeBlock, if_neg positive, here.1, here.2]
  exact .bind (load_does small (small.valid (by decide)) _)
    (store_does small (small.valid (by decide)) _ _)

theorem allocAt_does (inside : b < v.mem.nblocks) :
    v.mem.free b = false ∧ Does (allocAt b) v none v ∨
    v.mem.free b = true ∧ Does (allocAt b) v (some b) ((v.edit fun m => m.take b).flush 2) := by
  have bitmap : v.mem.Valid 2 := small.valid (by decide)
  have asked : Does (blockIsFree touch b) v (v.mem.free b) v :=
    blockIsFree_does (fun _ pinned => touch_does small (small.valid (by omega))) small inside
  have high := small.high
  have here : 2 + b / 32768 = 2 ∧ b / 32 % 1024 = b / 32 := by omega
  cases free : v.mem.free b with
  | false =>
    rw [free] at asked
    exact .inl ⟨rfl, .bind asked (.pure _ _)⟩
  | true =>
    rw [free] at asked
    refine .inr ⟨rfl, .bind asked ?_⟩
    rw [if_pos rfl, here.1, here.2]
    refine .bind (load_does small bitmap _) (.bind (store_does small bitmap _ _) ?_)
    have small' : (v.mem.take b).Small := by
      refine ⟨by rw [Image.nblocks_take]; exact small.low,
        by rw [Image.nblocks_take]; exact high, fun q low => ?_⟩
      rw [Image.free_take (by omega) (by omega), small.reserved q low, Bool.false_and]
    refine .bind (flushBlock_does (v := v.edit fun m => m.take b) small' ?_) (.pure _ _)
    show 2 < (v.mem.take b).nblocks
    rw [Image.nblocks_take]
    exact small.low

end Primitives

end FsM

end Jos.Fs
