import Jos.Shared.Bytes
import Jos.Shared.Program
import Jos.Shared.Run
import Jos.Kern.Mmu

namespace Jos.Fs

open Jos.Shared
open Jos.Kern (Word Byte)
open Function

abbrev Block := Nat → Word

abbrev Image := Nat → Block

def Image.put (m : Image) (b k : Nat) (word : Word) : Image := update m b (update (m b) k word)

def diskBlocks : Nat := 0xC0000000 / 4096

structure Page where
  data : Block
  accessed : Bool
  dirty : Bool

/-- The disk and the block cache. `past` is not part of the machine: it keeps the earlier contents
of the disk, the latest first. -/
structure Cache where
  disk : Image
  pages : Nat → Option Page
  past : List Image

namespace Cache

def content (s : Cache) : Image := fun b =>
  match s.pages b with
  | some page => page.data
  | none => s.disk b

def vaIsMapped (s : Cache) (b : Nat) : Bool := (s.pages b).isSome

def setPage (s : Cache) (b : Nat) (page : Option Page) : Cache :=
  { s with pages := update s.pages b page }

def mark (s : Cache) (b : Nat) : Cache :=
  match s.pages b with
  | some page => s.setPage b (some { page with accessed := true })
  | none => s

def poke (s : Cache) (b : Nat) (change : Block → Block) : Cache :=
  match s.pages b with
  | some page => s.setPage b (some ⟨change page.data, true, true⟩)
  | none => s

def remap (s : Cache) (b : Nat) : Cache :=
  match s.pages b with
  | some page => s.setPage b (some { page with accessed := false, dirty := false })
  | none => s

-- The middle of `bc_pgfault`: `ide_read` and the remapping that follows it.
def pageIn (s : Cache) (b : Nat) : Cache := s.setPage b (some ⟨s.disk b, false, false⟩)

def ideWrite (s : Cache) (b : Nat) (data : Block) : Cache :=
  { s with disk := update s.disk b data, past := s.disk :: s.past }

def flushBlock (s : Cache) (b : Nat) : Cache :=
  match s.pages b with
  | some page => if page.dirty then (s.ideWrite b page.data).remap b else s
  | none => s

def cleanBlock (s : Cache) (b : Nat) : Cache :=
  match s.pages b with
  | some page =>
    -- `& ~(PTE_A)` takes nothing away: `PTE_SYSCALL` leaves out `PTE_D` as well.
    if page.accessed then s.remap b
    else (if page.dirty then s.flushBlock b else s).setPage b none
  | none => s

@[irreducible]
def bcClean (s : Cache) : Cache := (List.range diskBlocks).foldl cleanBlock s

def Coherent (s : Cache) : Prop := ∀ b page, s.pages b = some page → page.dirty = false →
    page.data = s.disk b

inductive Event where
  | read (b : Nat)
  | write (b k : Nat) (word : Word)
  | pageIn (b : Nat)
  | flush (b : Nat)
  | clean

def step (s : Cache) : Event → Option Cache
  | .read b => if s.vaIsMapped b then some (s.mark b) else none
  | .write b k word => if s.vaIsMapped b then some (s.poke b (update · k word)) else none
  | .pageIn b => if s.vaIsMapped b then none else some (s.pageIn b)
  | .flush b => some (s.flushBlock b)
  | .clean => some s.bcClean

def Event.expected (m : Image) : Event → Image
  | .write b k word => m.put b k word
  | _ => m

section Content

variable {s : Cache} {b : Nat} {page : Page}

theorem content_mapped (mapped : s.pages b = some page) : s.content b = page.data := by
  simp [content, mapped]

theorem content_unmapped (unmapped : s.pages b = none) : s.content b = s.disk b := by
  simp [content, unmapped]

theorem content_setPage (s : Cache) (b : Nat) (page : Page) :
    (s.setPage b (some page)).content = update s.content b page.data := by
  funext b'
  by_cases same : b' = b <;> simp [content, setPage, same]

theorem content_setPage_self (mapped : s.pages b = some page) {page' : Page}
    (same : page'.data = page.data) : (s.setPage b (some page')).content = s.content := by
  rw [content_setPage, same, ← content_mapped mapped, update_eq_self]

theorem content_mark (s : Cache) (b : Nat) : (s.mark b).content = s.content := by
  unfold mark
  split
  next page mapped => exact content_setPage_self mapped rfl
  · rfl

theorem content_poke (mapped : s.vaIsMapped b = true) (change : Block → Block) :
    (s.poke b change).content = update s.content b (change (s.content b)) := by
  obtain ⟨page, mapped⟩ := Option.isSome_iff_exists.mp mapped
  rw [poke, mapped, content_mapped mapped]
  exact content_setPage s b ⟨change page.data, true, true⟩

theorem content_pageIn (unmapped : s.pages b = none) : (s.pageIn b).content = s.content := by
  rw [pageIn, content_setPage, ← content_unmapped unmapped, update_eq_self]

theorem content_remap (s : Cache) (b : Nat) : (s.remap b).content = s.content := by
  unfold remap
  split
  next page mapped => exact content_setPage_self mapped rfl
  · rfl

theorem content_flushBlock (s : Cache) (b : Nat) : (s.flushBlock b).content = s.content := by
  unfold flushBlock
  split
  next page mapped =>
    split
    · rw [content_remap]
      funext b'
      by_cases same : b' = b
      · subst same
        rw [content_mapped (s := s.ideWrite b' page.data) mapped, content_mapped mapped]
      · simp [content, ideWrite, same]
    · rfl
  · rfl

end Content

section Coherent

variable {s : Cache} {b : Nat}

theorem Coherent.setPage (coherent : s.Coherent) {page : Page}
    (clean : page.dirty = false → page.data = s.disk b) : (s.setPage b (some page)).Coherent := by
  intro b' page' mapped
  by_cases same : b' = b
  · subst same
    obtain rfl : page = page' := by simpa [Cache.setPage] using mapped
    exact clean
  · exact coherent b' page' (by simpa [Cache.setPage, same] using mapped)

theorem Coherent.unmap (coherent : s.Coherent) : (s.setPage b none).Coherent := by
  intro b' page' mapped
  by_cases same : b' = b
  · simp [Cache.setPage, same] at mapped
  · exact coherent b' page' (by simpa [Cache.setPage, same] using mapped)

theorem Coherent.mark (coherent : s.Coherent) (b : Nat) : (s.mark b).Coherent := by
  unfold Cache.mark
  split
  next page mapped => exact coherent.setPage (coherent b page mapped)
  · exact coherent

theorem Coherent.poke (coherent : s.Coherent) (b : Nat) (change : Block → Block) :
    (s.poke b change).Coherent := by
  unfold Cache.poke
  split
  next page mapped => exact coherent.setPage nofun
  · exact coherent

theorem Coherent.pageIn (coherent : s.Coherent) (b : Nat) : (s.pageIn b).Coherent :=
  coherent.setPage fun _ => rfl

theorem Coherent.flushBlock (coherent : s.Coherent) (b : Nat) : (s.flushBlock b).Coherent := by
  unfold Cache.flushBlock
  split
  next page mapped =>
    split
    · intro b' page' mapped' clean
      by_cases same : b' = b
      · subst same
        simp only [remap, ideWrite, mapped, Cache.setPage, update_self, Option.some.injEq] at mapped'
        simp [remap, ideWrite, mapped, Cache.setPage, ← mapped']
      · have before : s.pages b' = some page' := by
          simpa [remap, ideWrite, mapped, Cache.setPage, same] using mapped'
        simpa [remap, ideWrite, mapped, Cache.setPage, same] using coherent b' page' before clean
    · exact coherent
  · exact coherent

theorem disk_flushBlock (coherent : s.Coherent) (b : Nat) :
    (s.flushBlock b).disk = update s.disk b (s.content b) := by
  unfold Cache.flushBlock
  split
  next page mapped =>
    rw [content_mapped mapped]
    split
    · simp [remap, ideWrite, mapped, Cache.setPage]
    next clean => rw [coherent b page mapped (by simpa using clean), update_eq_self]
  next unmapped => rw [content_unmapped unmapped, update_eq_self]

end Coherent

section Runs

variable {s s' : Cache} {ev : Event}

def Settled (s : Cache) : Event → Prop
  | .clean => ∀ b page, s.pages b = some page → page.accessed = true → page.dirty = false
  | _ => True

theorem cleanBlock_settled (coherent : s.Coherent) (settled : s.Settled .clean) (b : Nat) :
    (s.cleanBlock b).Coherent ∧ (s.cleanBlock b).content = s.content ∧
    (s.cleanBlock b).Settled .clean := by
  unfold cleanBlock
  split
  next page mapped =>
    split
    next used =>
      have clean := settled b page mapped used
      refine ⟨?_, content_remap s b, ?_⟩
      · rw [remap, mapped]
        exact coherent.setPage fun _ => coherent b page mapped clean
      · intro b' page' mapped' used'
        rw [remap, mapped] at mapped'
        by_cases same : b' = b
        · obtain rfl : _ = page' := by simpa [setPage, same] using mapped'
          rfl
        · exact settled b' page' (by simpa [setPage, same] using mapped') used'
    next idle =>
      -- Whether or not the page had to be written back, the disk now holds it.
      have saved : ∀ t : Cache, t = (if page.dirty = true then s.flushBlock b else s) →
          t.Coherent ∧ t.content = s.content ∧ t.disk b = s.content b ∧ ∀ b', b' ≠ b →
            t.pages b' = s.pages b' := by
        rintro t rfl
        split
        next dirty =>
          refine ⟨coherent.flushBlock b,
            content_flushBlock s b, by rw [disk_flushBlock coherent, update_self], ?_⟩
          intro b' other
          simp [flushBlock, mapped, dirty, remap, ideWrite, setPage, other]
        next clean =>
          exact ⟨coherent, rfl,
            by rw [content_mapped mapped, coherent b page mapped (by simpa using clean)],
            fun _ _ => rfl⟩
      obtain ⟨coherent', content', disk', others⟩ := saved _ rfl
      generalize (if page.dirty = true then s.flushBlock b else s) = t
        at coherent' content' disk' others ⊢
      refine ⟨coherent'.unmap, ?_, ?_⟩
      · funext b'
        by_cases same : b' = b
        · subst same
          rw [content_unmapped (by simp [setPage])]
          exact disk'
        · rw [← content']
          simp [content, setPage, same]
      · intro b' page' mapped' used'
        by_cases same : b' = b
        · simp [setPage, same] at mapped'
        · exact settled b' page' (by rw [← others b' same]; simpa [setPage, same] using mapped') used'
  · exact ⟨coherent, rfl, settled⟩

theorem bcClean_settled (coherent : s.Coherent) (settled : s.Settled .clean) :
    s.bcClean.Coherent ∧ s.bcClean.content = s.content := by
  suffices rounds : ∀ (bs : List Nat) (t : Cache), t.Coherent → t.Settled .clean →
      (bs.foldl cleanBlock t).Coherent ∧ (bs.foldl cleanBlock t).content = t.content from
    by unfold bcClean; exact rounds _ s coherent settled
  intro bs
  induction bs with
  | nil => exact fun t coherent _ => ⟨coherent, rfl⟩
  | cons b bs ih =>
    intro t coherent settled
    obtain ⟨coherent', content', settled'⟩ := cleanBlock_settled coherent settled b
    obtain ⟨coherent'', content''⟩ := ih _ coherent' settled'
    exact ⟨coherent'', content''.trans content'⟩

theorem step_coherent (coherent : s.Coherent) (settled : s.Settled ev) (stepped : s.step ev = some s') :
    s'.Coherent ∧ s'.content = ev.expected s.content := by
  cases ev with
  | read b =>
    obtain ⟨-, same⟩ := Option.ite_none_right_eq_some.mp stepped
    obtain rfl := Option.some.inj same
    exact ⟨coherent.mark b, content_mark s b⟩
  | write b k word =>
    obtain ⟨mapped, same⟩ := Option.ite_none_right_eq_some.mp stepped
    obtain rfl := Option.some.inj same
    exact ⟨coherent.poke b _, content_poke mapped _⟩
  | pageIn b =>
    obtain ⟨unmapped, same⟩ := Option.ite_none_left_eq_some.mp stepped
    obtain rfl := Option.some.inj same
    exact ⟨coherent.pageIn b, content_pageIn (by simpa [vaIsMapped] using unmapped)⟩
  | flush b =>
    obtain rfl := Option.some.inj stepped
    exact ⟨coherent.flushBlock b, content_flushBlock s b⟩
  | clean =>
    obtain rfl := Option.some.inj stepped
    exact bcClean_settled coherent settled

theorem coherent_of_run {s₀ : Cache} {events : List Event} (coherent : s₀.Coherent)
    (run : Run step Settled s₀ events s) : s.Coherent ∧
    s.content = events.foldl Event.expected s₀.content := by
  induction run with
  | nil => exact ⟨coherent, rfl⟩
  | snoc _ settled stepped ih =>
    obtain ⟨coherent', content'⟩ := step_coherent ih.1 settled stepped
    refine ⟨coherent', ?_⟩
    rw [content', ih.2, List.foldl_append]
    rfl

end Runs

section Pass

variable {s : Cache} {b : Nat}

def cleaned : Option Page → Block → Option Page × Block
  | some page, sectors =>
    if page.accessed then (some { page with accessed := false, dirty := false }, sectors)
    else (none, if page.dirty then page.data else sectors)
  | none, sectors => (none, sectors)

def held (s : Cache) (b : Nat) : Option Page × Block := (s.pages b, s.disk b)

theorem pages_of_held {page : Option Page} {sectors : Block} (held : s.held b = (page, sectors)) :
    s.pages b = page :=
  (Prod.mk.inj held).1

theorem disk_of_held {page : Option Page} {sectors : Block} (held : s.held b = (page, sectors)) :
    s.disk b = sectors :=
  (Prod.mk.inj held).2

theorem cleanBlock_at (s : Cache) (b : Nat) :
    (s.cleanBlock b).held b = cleaned (s.pages b) (s.disk b) := by
  cases mapped : s.pages b with
  | none => simp [cleanBlock, cleaned, held, mapped]
  | some page =>
    by_cases used : page.accessed = true <;> by_cases dirty : page.dirty = true <;>
      simp [cleanBlock, cleaned, held, mapped, used, dirty, remap, flushBlock, ideWrite, setPage]

theorem cleanBlock_other {b' : Nat} (other : b' ≠ b) : (s.cleanBlock b).held b' = s.held b' := by
  cases mapped : s.pages b with
  | none => simp [cleanBlock, mapped]
  | some page =>
    by_cases used : page.accessed = true <;> by_cases dirty : page.dirty = true <;>
      simp [cleanBlock, held, mapped, used, dirty, remap, flushBlock, ideWrite, setPage, other]

theorem foldl_cleanBlock (bs : List Nat) (distinct : bs.Nodup) (s : Cache) (b : Nat) :
    (bs.foldl cleanBlock s).held b = if b ∈ bs then cleaned (s.pages b) (s.disk b) else s.held b := by
  induction bs generalizing s with
  | nil => rfl
  | cons b' bs ih =>
    obtain ⟨absent, distinct⟩ := List.nodup_cons.mp distinct
    rw [List.foldl_cons, ih distinct]
    by_cases same : b = b'
    · subst same
      rw [if_neg absent, if_pos List.mem_cons_self, cleanBlock_at]
    · have untouched := cleanBlock_other (s := s) same
      obtain ⟨pages, disk⟩ := Prod.mk.inj untouched
      simp only [List.mem_cons, same, false_or, pages, disk, untouched]

theorem bcClean_held (s : Cache) (b : Nat) :
    s.bcClean.held b = if b < diskBlocks then cleaned (s.pages b) (s.disk b) else s.held b := by
  unfold bcClean
  rw [foldl_cleanBlock _ List.nodup_range]
  simp only [List.mem_range]

end Pass

section Examples

def blank : Cache := ⟨fun _ _ => 0, fun _ => none, []⟩

theorem blank_coherent : blank.Coherent := nofun

def OnlyFive (page : Page) (s : Cache) : Prop := ∀ b, s.pages b = if b = 5 then some page else none

theorem OnlyFive.settled {s : Cache} {page : Page} (only : s.OnlyFive page)
    (clean : page.accessed = true → page.dirty = false) : s.Settled .clean := by
  intro b page' mapped used
  rw [only b] at mapped
  split at mapped
  · obtain rfl := Option.some.inj mapped
    exact clean used
  · cases mapped

theorem OnlyFive.bcClean {s : Cache} {page : Page} (only : s.OnlyFive page)
    (used : page.accessed = true) : s.bcClean.OnlyFive
    { page with accessed := false, dirty := false } ∧ s.bcClean.disk 5 = s.disk 5 := by
  have held : ∀ b, s.bcClean.held b = if b = 5
    then (some { page with accessed := false, dirty := false }, s.disk 5)
      else (none, s.disk b) := by
    intro b
    rw [bcClean_held, only b]
    by_cases five : b = 5
    · subst five
      rw [if_pos (by decide)]
      simp [cleaned, used]
    · simp [cleaned, Cache.held, only b, five]
  refine ⟨fun b => ?_, disk_of_held (held 5)⟩
  by_cases five : b = 5
  · rw [if_pos five]
    exact pages_of_held ((held b).trans (if_pos five))
  · rw [if_neg five]
    exact pages_of_held ((held b).trans (if_neg five))

theorem coherent_flushedFirst :
    ∃ s, Run step Settled blank [.pageIn 5, .write 5 0 1, .flush 5, .read 5, .clean, .clean] s ∧
    s.pages 5 = none ∧ s.Coherent ∧ s.content 5 0 = 1 := by
  let page : Page := ⟨update (fun _ => 0) 0 1, true, false⟩
  obtain ⟨s, run, pages⟩ : ∃ s,
    Run step Settled blank [.pageIn 5, .write 5 0 1, .flush 5, .read 5] s ∧ s.OnlyFive page := by
    refine ⟨_,
      .snoc (.snoc (.snoc (.snoc (.nil _) trivial rfl) trivial rfl) trivial rfl) trivial rfl,
      fun b => ?_⟩
    by_cases five : b = 5 <;>
      simp [five, page, blank, mark, poke, Cache.pageIn, flushBlock, remap, ideWrite, setPage]
  obtain ⟨idle, -⟩ := pages.bcClean rfl
  have first : Run step Settled blank _ s.bcClean := .snoc run (pages.settled fun _ => rfl) rfl
  have second : Run step Settled blank _ s.bcClean.bcClean := .snoc first (idle.settled nofun) rfl
  obtain ⟨coherent, content⟩ := coherent_of_run blank_coherent second
  refine ⟨_, second, ?_, coherent, by rw [content]; rfl⟩
  have held := bcClean_held s.bcClean 5
  rw [if_pos (by decide), idle 5] at held
  exact pages_of_held held

-- The first pass clears `PTE_D` together with `PTE_A`, and the second one drops the page.
theorem coherent_fails : blank.Coherent ∧ ∃ s,
    Run step (fun _ _ => True) blank [.pageIn 5, .write 5 0 1, .clean, .clean] s ∧
    ¬(s.Coherent ∧
    s.content = [Event.pageIn 5, .write 5 0 1, .clean, .clean].foldl Event.expected
    blank.content) := by
  let page : Page := ⟨update (fun _ => 0) 0 1, true, true⟩
  obtain ⟨s, run, pages, disk⟩ : ∃ s, Run step (fun _ _ => True) blank [.pageIn 5, .write 5 0 1] s ∧
      s.OnlyFive page ∧ s.disk 5 = fun _ => 0 := by
    refine ⟨_, .snoc (.snoc (.nil _) trivial rfl) trivial rfl, fun b => ?_, rfl⟩
    by_cases five : b = 5 <;> simp [five, page, blank, poke, Cache.pageIn, setPage]
  obtain ⟨idle, kept⟩ := pages.bcClean rfl
  refine ⟨blank_coherent, _, .snoc (.snoc run trivial rfl) trivial rfl, fun ⟨_, content⟩ => ?_⟩
  have held := bcClean_held s.bcClean 5
  rw [if_pos (by decide), idle 5, kept, disk] at held
  have zero : s.bcClean.bcClean.content 5 0 = 0 := by
    rw [content_unmapped (pages_of_held held), disk_of_held held]
    rfl
  rw [content] at zero
  exact absurd zero (by decide)

end Examples

end Cache

end Jos.Fs
