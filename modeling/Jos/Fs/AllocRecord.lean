import Jos.Fs.Volume

namespace Jos.Fs

open Jos.Shared
open Jos.Kern (Word Byte)

def fsMagic : Word := 0x4A0530AE

namespace Image

variable {m : Image} {i j : Nat}

structure CheckSuper (m : Image) : Prop where
  magic : m 1 0 = fsMagic
  size : m.nblocks ≤ diskBlocks

structure FirstFree (m : Image) (i : Nat) : Prop where
  low : 2 ≤ i
  high : i < m.nblocks
  free : m.free i = true
  first : ∀ j, 2 ≤ j → j < i → m.free j = false

theorem FirstFree.unique (here : m.FirstFree i) (there : m.FirstFree j) : i = j := by
  rcases Nat.lt_trichotomy i j with before | same | after
  · exact absurd (here.free.symm.trans (there.first i here.low before)) (by decide)
  · exact same
  · exact absurd (there.free.symm.trans (here.first j there.low after)) (by decide)

def claim (m : Image) (i : Nat) : Image :=
  m.put (2 + i / 32768) (i / 32 % 1024) (m (2 + i / 32768) (i / 32 % 1024) &&& ~~~(1#32 <<< (i % 32)))

theorem free_claim (m : Image) (i j : Nat) : (m.claim i).free j = (m.free j && decide (j ≠ i)) := by
  by_cases word : 2 + j / 32768 = 2 + i / 32768 ∧ j / 32 % 1024 = i / 32 % 1024
  · have bit : (j % 32 ≠ i % 32) = (j ≠ i) := by
      rw [eq_iff_iff]
      omega
    simp only [free, claim, word.1, word.2, put_self,
      getLsbD_clearBit _ _ (show j % 32 < 32 by omega), bit]
  · have other : j ≠ i := by
      rintro rfl
      exact word ⟨rfl, rfl⟩
    rw [free, claim, put_of_ne (not_and_or.mp word), ← free, decide_eq_true other, Bool.and_true]

end Image

namespace Cache

variable {s s' s'' : Cache} {b b' : Nat}

structure Reads (s s' : Cache) : Prop where
  content : s'.content = s.content
  disk : s'.disk = s.disk
  mapped : ∀ b, s.vaIsMapped b = true → s'.vaIsMapped b = true

theorem Reads.trans (first : Reads s s') (second : Reads s' s'') : Reads s s'' :=
  ⟨second.content.trans first.content, second.disk.trans first.disk,
    fun b mapped => second.mapped b (first.mapped b mapped)⟩

theorem mark_reads (s : Cache) (b : Nat) : Reads s (s.mark b) := by
  refine ⟨content_mark s b, ?_, fun c mapped => vaIsMapped_mark mapped⟩
  unfold mark
  split <;> rfl

theorem pageIn_reads (unmapped : s.vaIsMapped b = false) : Reads s (s.pageIn b) := by
  refine ⟨content_pageIn (by simpa [vaIsMapped] using unmapped), rfl, fun c mapped => ?_⟩
  rw [pageIn, vaIsMapped_setPage, mapped, Bool.or_true]

theorem mark_unmapped (other : b ≠ b') (unmapped : s.vaIsMapped b = false) :
    (s.mark b').vaIsMapped b = false := by
  unfold mark
  split
  · rw [vaIsMapped_setPage, unmapped, decide_eq_false other, Bool.or_self]
  · exact unmapped

theorem disk_flushBlock_of_ne (other : b' ≠ b) : (s.flushBlock b).disk b' = s.disk b' := by
  unfold flushBlock
  split
  next page mapped =>
    split
    · simp [remap, ideWrite, mapped, setPage, other]
    · rfl
  · rfl

theorem disk_poke (s : Cache) (b : Nat) (change : Block → Block) : (s.poke b change).disk = s.disk := by
  unfold poke
  split <;> rfl

theorem disk_flushBlock_poke (mapped : s.vaIsMapped b = true) (change : Block → Block) :
    ((s.poke b change).flushBlock b).disk b = (s.poke b change).content b := by
  obtain ⟨page, here⟩ := Option.isSome_iff_exists.mp mapped
  have poked : (s.poke b change).pages b = some ⟨change page.data, true, true⟩ := by
    simp [poke, here, setPage]
  rw [content_mapped poked]
  simp [flushBlock, poked, remap, ideWrite, setPage]

structure Claimed (s s' : Cache) (i : Nat) : Prop where
  content : s'.content = s.content.claim i
  written : i < 32768 → s'.disk 2 = s'.content 2
  unwritten : ∀ b, b ≠ 2 → s'.disk b = s.disk b

theorem Claimed.before {t : Cache} {i : Nat} (claimed : Claimed t s' i) (reads : Reads s t) :
    Claimed s s' i :=
  ⟨claimed.content.trans (by rw [reads.content]), claimed.written,
    fun b other => (claimed.unwritten b other).trans (by rw [reads.disk])⟩

theorem claimed_flush {t : Cache} {i : Nat} (reads : Reads s t)
    (mapped : t.vaIsMapped (2 + i / 32768) = true) :
    Claimed s ((t.poke (2 + i / 32768) (Function.update · (i / 32 % 1024)
      (s.content (2 + i / 32768) (i / 32 % 1024) &&& ~~~(1#32 <<< (i % 32))))).flushBlock 2) i := by
  refine ⟨?_, fun low => ?_, fun b other => ?_⟩
  · rw [content_flushBlock, content_poke mapped, reads.content]
    rfl
  · have first : 2 + i / 32768 = 2 := by omega
    rw [first] at mapped ⊢
    rw [disk_flushBlock_poke mapped, content_flushBlock]
  · rw [disk_flushBlock_of_ne other, disk_poke, reads.disk]

end Cache

namespace FsM

variable {s : Cache} {b d i : Nat}

section Faults

theorem super_run (super : s.vaIsMapped 1 = true) (d : Nat) :
    loadBy (access d) 1 1 s = .ok (s.content 1 1) (s.mark 1) := by
  refine (run_bind (access_mapped super d)).trans ?_
  exact congrArg (fun m : Image => EStateM.Result.ok (m 1 1) (s.mark 1)) (Cache.content_mark s 1)

theorem blockIsFree_run {s' : Cache} (super : s.vaIsMapped 1 = true) (inside : b < s.content.nblocks)
    (touched : access d (2 + b / 32768) (s.mark 1) = .ok () s') (reads : Cache.Reads s s') :
    blockIsFree (access d) b s = .ok (s.content.free b) s' := by
  rw [blockIsFree, run_bind (super_run super d),
    if_neg (show ¬(s.content 1 1).toNat ≤ b from not_le.mpr inside)]
  have word : loadBy (access d) (2 + b / 32768) (b / 32 % 1024) (s.mark 1) =
      .ok (s.content (2 + b / 32768) (b / 32 % 1024)) s' := by
    refine (run_bind touched).trans ?_
    exact congrArg
      (fun m : Image => EStateM.Result.ok (m (2 + b / 32768) (b / 32 % 1024)) s') reads.content
  rw [run_bind word]
  rfl

theorem blockIsFree_error {s' : Cache} {why : Panic} (super : s.vaIsMapped 1 = true)
    (inside : b < s.content.nblocks)
    (stopped : access d (2 + b / 32768) (s.mark 1) = .error why s') :
    blockIsFree (access d) b s = .error why s' := by
  rw [blockIsFree, run_bind (super_run super d),
    if_neg (show ¬(s.content 1 1).toNat ≤ b from not_le.mpr inside)]
  exact run_bind_error (run_bind_error stopped)

def Touched (s : Cache) (b : Nat) : EStateM.Result Panic Cache Unit → Prop
  | .ok () s' => Cache.Reads s s' ∧ s'.vaIsMapped b = true
  | .error _ _ => s.content.free b = true ∨ s.content.free 2 = true

theorem Touched.before {s t : Cache} (reads : Cache.Reads s t) {result : EStateM.Result Panic Cache Unit}
    (touched : Touched t b result) : Touched s b result := by
  cases result with
  | ok u s' => exact ⟨reads.trans touched.1, touched.2⟩
  | error why s' =>
    rw [Touched, ← reads.content]
    exact touched

theorem access_touched (mapped : s.vaIsMapped b = true) (d : Nat) : Touched s b (access d b s) := by
  rw [access_mapped mapped]
  exact ⟨Cache.mark_reads s b, Cache.vaIsMapped_mark mapped⟩

theorem fault_touched (super : s.vaIsMapped 1 = true) (unmapped : s.vaIsMapped b = false)
    (low : b < 32768) (inside : b < s.content.nblocks) (size : s.content.nblocks ≤ diskBlocks)
    (bitmap : ∀ t, Cache.Reads s t → t.vaIsMapped b = true → Touched t 2 (access d 2 t)) :
    Touched s b (access (d + 1) b s) := by
  have other : b ≠ 1 := by
    rintro rfl
    rw [super] at unmapped
    cases unmapped
  have inside' : b < (s.content 1 1).toNat := inside
  have first : 2 + b / 32768 = 2 := by omega
  -- The block is read in before the check.
  have read : Cache.Reads s ((s.mark 1).pageIn b) :=
    (Cache.mark_reads s 1).trans (Cache.pageIn_reads (Cache.mark_unmapped other unmapped))
  have here : ((s.mark 1).pageIn b).vaIsMapped b = true := by
    simp [Cache.pageIn, Cache.vaIsMapped_setPage]
  generalize loaded : (s.mark 1).pageIn b = t at read here
  have load : (modify (·.pageIn b) : FsM Unit) (s.mark 1) = .ok () t :=
    congrArg (EStateM.Result.ok ()) loaded
  have marked := Cache.mark_reads t 1
  have checked := bitmap (t.mark 1) (read.trans marked) (marked.mapped b here)
  have asked : ∀ {s'}, access d 2 (t.mark 1) = .ok () s' →
      blockIsFree (access d) b t = .ok (s.content.free b) s' ∧ Cache.Reads s s' ∧
        s'.vaIsMapped b = true := by
    intro s' touched
    rw [touched] at checked
    have reads : Cache.Reads t s' := marked.trans checked.1
    have answer :=
      blockIsFree_run (read.mapped 1 super) (by rwa [read.content]) (first.symm ▸ touched) reads
    rw [read.content] at answer
    exact ⟨answer, read.trans reads, reads.mapped b here⟩
  rw [access]
  rw [run_bind (show (get : FsM Cache) s = .ok s s from rfl), if_neg (by simp [unmapped])]
  have handler : bcPgfault (access d) b s = ((do
      if ← blockIsFree (access d) b then throw .freeBlock else pure ()) : FsM Unit) t := by
    rw [bcPgfault, if_neg (by omega), run_bind (super_run super d), if_neg (by omega), run_bind load]
  cases touched : access d 2 (t.mark 1) with
  | error why s' =>
    have stopped := blockIsFree_error (read.mapped 1 super) (by rwa [read.content]) (first.symm ▸ touched)
    rw [touched] at checked
    rw [run_bind_error (handler.trans (run_bind_error stopped))]
    have free : (t.mark 1).content.free 2 = true := checked.elim id id
    rw [marked.content, read.content] at free
    exact .inr free
  | ok u s' =>
    obtain ⟨answer, reads, mapped⟩ := asked touched
    rw [run_bind answer] at handler
    cases free : s.content.free b with
    | true =>
      rw [free, if_pos rfl] at handler
      rw [run_bind_error (show bcPgfault (access d) b s = .error .freeBlock s' from handler)]
      exact .inl free
    | false =>
      rw [free, if_neg (by decide)] at handler
      rw [run_bind (show bcPgfault (access d) b s = .ok () s' from handler)]
      exact ⟨reads.trans (Cache.mark_reads s' b), Cache.vaIsMapped_mark mapped⟩

theorem touch_touched (super : s.vaIsMapped 1 = true) (high : 2 ≤ b) (low : b < 32768)
    (inside : b < s.content.nblocks) (size : s.content.nblocks ≤ diskBlocks) :
    Touched s b (touch b s) := by
  have second : ∀ t, Cache.Reads s t → Touched t 2 (access 3 2 t) := by
    intro t reads
    cases mapped : t.vaIsMapped 2 with
    | true => exact access_touched mapped 3
    | false =>
      refine fault_touched (reads.mapped 1 super) mapped (by decide) ?_ ?_ fun u _ here =>
        access_touched here 2
      all_goals
        rw [reads.content]
        omega
  cases mapped : s.vaIsMapped b with
  | true => exact access_touched mapped 4
  | false => exact fault_touched super mapped low inside size fun t reads _ => second t reads

end Faults

section Alloc

def Tried (s : Cache) (i : Nat) : EStateM.Result Panic Cache (Option Nat) → Prop
  | .ok none s' => s.content.free i = false ∧ Cache.Reads s s'
  | .ok (some r) s' => r = i ∧ s.content.free i = true ∧ Cache.Claimed s s' i
  | .error _ _ => s.content.free (2 + i / 32768) = true ∨ s.content.free 2 = true

theorem allocAt_tried (super : s.vaIsMapped 1 = true) (inside : i < s.content.nblocks) (high : 2 ≤ i)
    (size : s.content.nblocks ≤ diskBlocks) : Tried s i (allocAt i s) := by
  have bound : i < 786432 := inside.trans_le size
  have marked := Cache.mark_reads s 1
  have checked :=
    Touched.before marked
    (touch_touched (s := s.mark 1) (b := 2 + i / 32768) (marked.mapped 1 super) (by omega)
    (by omega) (by rw [marked.content]; omega) (by rwa [marked.content]))
  cases touched : touch (2 + i / 32768) (s.mark 1) with
  | error why s' =>
    have stopped : blockIsFree touch i s = .error why s' := blockIsFree_error super inside touched
    rw [touched] at checked
    rw [allocAt, run_bind_error stopped]
    exact checked
  | ok u t =>
    rw [touched] at checked
    obtain ⟨reads, mapped⟩ := checked
    have answer : blockIsFree touch i s = .ok (s.content.free i) t :=
      blockIsFree_run super inside touched reads
    rw [allocAt, run_bind answer]
    cases free : s.content.free i with
    | false => exact ⟨free, reads⟩
    | true =>
      rw [if_pos rfl]
      have again : ∀ {r : Cache}, Cache.Reads s r → r.vaIsMapped (2 + i / 32768) = true →
          touch (2 + i / 32768) r = .ok () (r.mark (2 + i / 32768)) ∧
            Cache.Reads s (r.mark (2 + i / 32768)) ∧
            (r.mark (2 + i / 32768)).vaIsMapped (2 + i / 32768) = true := fun {r} before here =>
        ⟨access_mapped here 4, before.trans (Cache.mark_reads r _), Cache.vaIsMapped_mark here⟩
      obtain ⟨first, reads₁, mapped₁⟩ := again reads mapped
      obtain ⟨second, reads₂, mapped₂⟩ := again reads₁ mapped₁
      have word : load (2 + i / 32768) (i / 32 % 1024) t =
          .ok (s.content (2 + i / 32768) (i / 32 % 1024)) (t.mark (2 + i / 32768)) := by
        refine (run_bind first).trans ?_
        exact congrArg
          (fun m : Image => EStateM.Result.ok (m (2 + i / 32768) (i / 32 % 1024)) _) reads₁.content
      rw [run_bind word]
      have stored : ∀ word : Word, store (2 + i / 32768) (i / 32 % 1024) word (t.mark (2 + i / 32768)) =
          .ok () (((t.mark (2 + i / 32768)).mark (2 + i / 32768)).poke (2 + i / 32768)
            (Function.update · (i / 32 % 1024) word)) := fun word => run_bind second
      rw [run_bind (stored _)]
      exact ⟨rfl, free, Cache.claimed_flush reads₂ mapped₂⟩

def Searched (s : Cache) (stop : Nat) : EStateM.Result Panic Cache (Option Nat) → Prop
  | .ok none _ => ∀ b, 2 ≤ b → b < stop → s.content.free b = false
  | .ok (some i) s' => s.content.FirstFree i ∧ Cache.Claimed s s' i
  | .error _ _ => s.content.FirstFree 2

theorem Searched.before {s t : Cache} {stop : Nat} {result : EStateM.Result Panic Cache (Option Nat)}
    (reads : Cache.Reads s t) (searched : Searched t stop result) : Searched s stop result := by
  rcases result with ⟨_ | r, s'⟩ | ⟨why, s'⟩
  · rw [Searched, ← reads.content]
    exact searched
  · exact ⟨reads.content ▸ searched.1, searched.2.before reads⟩
  · rw [Searched, ← reads.content]
    exact searched

theorem search_searched (n : Nat) (super : s.vaIsMapped 1 = true)
    (size : s.content.nblocks ≤ diskBlocks) (high : 2 ≤ i)
    (used : ∀ b, 2 ≤ b → b < i → s.content.free b = false) (rest : i + n ≤ s.content.nblocks) :
    Searched s (i + n) (search allocAt n i s) := by
  induction n generalizing i s with
  | zero => exact used
  | succ n ih =>
    have round := allocAt_tried super (show i < s.content.nblocks by omega) high size
    cases tried : allocAt i s with
    | error why t =>
      rw [tried] at round
      rw [search, run_bind_error tried]
      have bound : i < 786432 := lt_of_lt_of_le (by omega) (rest.trans size)
      -- No block of the bitmap comes after `i`, except for the first of them.
      have two : s.content.free 2 = true := by
        rcases round with own | first
        · by_cases same : 2 + i / 32768 < i
          · rw [used _ (by omega) same] at own
            cases own
          · rwa [show 2 + i / 32768 = 2 by omega] at own
        · exact first
      exact ⟨le_refl 2, by omega, two, fun j low before => by omega⟩
    | ok found t =>
      rw [tried] at round
      rw [search, run_bind tried]
      cases found with
      | some r =>
        obtain ⟨rfl, free, claimed⟩ := round
        exact ⟨⟨high, by omega, free, used⟩, claimed⟩
      | none =>
        obtain ⟨inUse, reads⟩ := round
        have later := ih (i := i + 1) (reads.mapped 1 super) (by rwa [reads.content]) (by omega)
          (fun b low before => by
            rw [reads.content]
            rcases Nat.lt_succ_iff_lt_or_eq.mp before with earlier | rfl
            · exact used b low earlier
            · exact inUse)
          (by rw [reads.content]; omega)
        rw [show i + (n + 1) = i + 1 + n by omega]
        exact later.before reads

theorem allocBlock_searched (super : s.vaIsMapped 1 = true) (size : s.content.nblocks ≤ diskBlocks) :
    Searched s s.content.nblocks (allocBlock s) := by
  have number : sNblocks s = .ok s.content.nblocks (s.mark 1) := (run_bind (super_run super 4)).trans rfl
  have marked := Cache.mark_reads s 1
  rw [allocBlock, run_bind number]
  by_cases blocks : 2 ≤ s.content.nblocks
  · have searched :=
      search_searched (s.content.nblocks - 2) (marked.mapped 1 super) (by rwa [marked.content])
      (le_refl 2) (fun b low high => by omega) (by rw [marked.content]; omega)
    rw [show 2 + (s.content.nblocks - 2) = s.content.nblocks by omega] at searched
    exact searched.before marked
  · rw [show s.content.nblocks - 2 = 0 by omega]
    exact fun b low high => by omega

/-- What is expected of `alloc_block`: the block that it returns was free and is now in use, in
memory and on the disk, and it reports a full disk exactly when there is no block to be had. -/
structure Recorded (s : Cache) : Prop where
  block : ∀ i s', allocBlock s = .ok (some i) s' → (2 ≤ i ∧ s.content.free i = true) ∧
    s'.content.free i = false ∧ (∀ j, j ≠ i → s'.content.free j = s.content.free j) ∧
    s'.disk.free i = false
  noDisk : (∃ s', allocBlock s = .ok none s') ↔ ∀ b, 2 ≤ b → b < s.content.nblocks →
    s.content.free b = false

theorem allocBlock_recorded_iff (super : s.vaIsMapped 1 = true) (accepted : s.content.CheckSuper) :
    Recorded s ↔ ∀ i, s.content.FirstFree i → i < 32768 ∨ s.disk.free i = false := by
  have searched := allocBlock_searched super accepted.size
  constructor
  · intro recorded i first
    by_cases low : i < 32768
    · exact .inl low
    · cases ran : allocBlock s with
      | error why s' =>
        rw [ran] at searched
        exact .inl (first.unique searched ▸ (by decide))
      | ok found s' =>
        rw [ran] at searched
        cases found with
        | none => exact absurd (first.free.symm.trans (searched i first.low first.high)) (by decide)
        | some r =>
          obtain rfl := first.unique searched.1
          obtain ⟨-, -, -, onDisk⟩ := recorded.block i s' ran
          rw [Image.free, searched.2.unwritten _ (by omega)] at onDisk
          exact .inr onDisk
  · intro reaches
    refine ⟨fun i s' ran => ?_, ?_, fun used => ?_⟩
    · rw [ran] at searched
      obtain ⟨first, claimed⟩ := searched
      have inUse : s'.content.free i = false := by rw [claimed.content, Image.free_claim]; simp
      refine ⟨⟨first.low, first.free⟩, inUse, fun j other => ?_, ?_⟩
      · rw [claimed.content, Image.free_claim, decide_eq_true other, Bool.and_true]
      by_cases low : i < 32768
      · rwa [Image.free_of_small low, claimed.written low, ← Image.free_of_small low]
      · rw [Image.free, claimed.unwritten _ (by omega)]
        exact (reaches i first).resolve_left low
    · rintro ⟨s', ran⟩
      rw [ran] at searched
      exact searched
    · cases ran : allocBlock s with
      | error why s' =>
        rw [ran] at searched
        exact absurd (searched.free.symm.trans (used 2 searched.low searched.high)) (by decide)
      | ok found s' =>
        cases found with
        | none => exact ⟨s', rfl⟩
        | some r =>
          rw [ran] at searched
          exact absurd (searched.1.free.symm.trans (used r searched.1.low searched.1.high)) (by decide)

end Alloc

section Examples

def oneFree (n p : Nat) : Image := fun b k =>
  if b = 1 then if k = 0 then fsMagic else if k = 1 then BitVec.ofNat 32 n else 0
  else if b = 2 + p / 32768 ∧ k = p / 32 % 1024 then 1#32 <<< (p % 32) else 0

def freshlyRead (m : Image) : Cache :=
  ⟨m, fun b => if b = 1 ∨ b = 2 then some ⟨m b, true, false⟩ else none, []⟩

theorem content_freshlyRead (m : Image) : (freshlyRead m).content = m := by
  funext b
  by_cases read : b = 1 ∨ b = 2 <;> simp [freshlyRead, Cache.content, read]

theorem free_oneFree (n p j : Nat) : (oneFree n p).free j = decide (j = p) := by
  by_cases word : 2 + j / 32768 = 2 + p / 32768 ∧ j / 32 % 1024 = p / 32 % 1024
  · rw [Image.free, oneFree, if_neg (by omega), if_pos word, getLsbD_one_shiftLeft _ (by omega),
      decide_eq_decide]
    omega
  · have other : j ≠ p := by
      rintro rfl
      exact word ⟨rfl, rfl⟩
    rw [Image.free, oneFree, if_neg (by omega), if_neg word, decide_eq_false other]
    simp

theorem nblocks_oneFree {n : Nat} (p : Nat) (small : n < 2 ^ 32) : (oneFree n p).nblocks = n := by
  rw [Image.nblocks, show oneFree n p 1 1 = BitVec.ofNat 32 n from rfl, BitVec.toNat_ofNat,
    Nat.mod_eq_of_lt small]

theorem firstFree_oneFree {n p : Nat} (low : 2 ≤ p) (high : p < n) (small : n < 2 ^ 32) :
    (oneFree n p).FirstFree p := by
  refine ⟨low, ?_, by simp [free_oneFree], fun j _ before => by simp [free_oneFree, before.ne]⟩
  rwa [nblocks_oneFree p small]

theorem checkSuper_oneFree {n : Nat} (p : Nat) (small : n ≤ diskBlocks) : (oneFree n p).CheckSuper := by
  refine ⟨rfl, ?_⟩
  rwa [nblocks_oneFree p (small.trans_lt (by decide))]

theorem recorded_smallDisk : (freshlyRead (oneFree 4 3)).content.CheckSuper ∧
    Recorded (freshlyRead (oneFree 4 3)) := by
  have accepted : (freshlyRead (oneFree 4 3)).content.CheckSuper :=
    content_freshlyRead _ ▸ checkSuper_oneFree 3 (by decide)
  refine ⟨accepted, (allocBlock_recorded_iff rfl accepted).mpr fun i first => ?_⟩
  have high := first.high
  rw [content_freshlyRead] at high
  exact .inl (high.trans (by decide))

-- The last of 32769 blocks is the only free one: `alloc_block` returns it, and its bit on the disk
-- still says that it is free.
theorem alloc_unrecorded : (freshlyRead (oneFree 32769 32768)).content.CheckSuper ∧
    ∃ s', allocBlock (freshlyRead (oneFree 32769 32768)) = .ok (some 32768) s' ∧
      s'.content.free 32768 = false ∧ s'.disk.free 32768 = true := by
  have accepted : (oneFree 32769 32768).CheckSuper := checkSuper_oneFree 32768 (by decide)
  have last : (oneFree 32769 32768).FirstFree 32768 :=
    firstFree_oneFree (by decide) (by decide) (by decide)
  have onDisk : (freshlyRead (oneFree 32769 32768)).disk.free 32768 = true := last.free
  have super : (freshlyRead (oneFree 32769 32768)).vaIsMapped 1 = true := rfl
  rw [← content_freshlyRead (oneFree 32769 32768)] at accepted last
  generalize freshlyRead (oneFree 32769 32768) = s at *
  have searched := allocBlock_searched super accepted.size
  refine ⟨accepted, ?_⟩
  cases ran : allocBlock s with
  | error why s' =>
    rw [ran] at searched
    exact absurd (last.unique searched) (by decide)
  | ok found s' =>
    rw [ran] at searched
    cases found with
    | none => exact absurd (last.free.symm.trans (searched _ last.low last.high)) (by decide)
    | some r =>
      obtain rfl := last.unique searched.1
      refine ⟨s', rfl, by rw [searched.2.content, Image.free_claim]; simp, ?_⟩
      rw [Image.free, searched.2.unwritten _ (by decide)]
      exact onDisk

end Examples

end FsM

end Jos.Fs
