import Jos.Fs.Clients

namespace Jos.Fs

open Jos.Shared
open Jos.Kern (Word Byte)

namespace Image

variable {m m' : Image} {d f g : FilePtr} {names : List (List Byte)} {may : FilePtr → Word → Prop}

theorem Leads.slot (leads : m.Leads d names f) (slot : m.Slot d) : m.Slot f := by
  induction leads with
  | nil => exact slot
  | cons _ kind child _ _ ih => exact ih (child.slot slot kind)

def Limited (m : Image) : Prop := ∀ g, m.Slot g → (m.size g).toNat ≤ maxfilesize

theorem Limited.alters (limited : m.Limited) (alters : m.Alters may m')
    (within : ∀ g w, may g w → w.toNat ≤ maxfilesize) : m'.Limited := by
  intro g slot
  by_cases old : m.Slot g
  · rcases alters.size g old with same | changed
    · rw [same]
      exact limited g old
    · exact within g _ changed
  · rcases alters.fresh g slot old with zero | changed
    · rw [zero]
      exact Nat.zero_le _
    · exact within g _ changed

end Image

namespace ServM

/-- Sizes stay in the range that `file_set_size` is meant for, and no directory of the largest size
gets longer. -/
structure Modest (req : Word) (m : Image) (d : Desk) : Prop where
  opens : req = 1 → reqOmode d.words &&& oCreat ≠ 0 → ∀ init name g,
    components (reqPath d.words) = init ++ [name] → m.Leads .root init g → m.type g = ftypeDir →
    (m.size g).toNat ≠ maxfilesize
  setSize : ∀ i f, Asks d i f → req = 2 → (d.words 1).toNat ≤ maxfilesize
  write : ∀ i f, Asks d i f → req = 4 → (d.fdData i 1 + d.words 1).toNat ≤ maxfilesize

end ServM

namespace Service

variable {s s' : Service} {r : Request} {page : Block} {i : Nat} {events : List ClientEvent}

def Modest (s : Service) (event : ClientEvent) : Prop :=
  s.Polite event ∧ match event with
    | .serve page _ _ => ∀ r, s.inbox = some r → ServM.Modest r.req s.cache.content (s.desk r page)
    | _ => True

theorem effect_within (sound : s.Sound) (limited : s.cache.content.Limited)
    (modest : ServM.Modest r.req s.cache.content (s.desk r page)) {g : FilePtr} {w : Word}
    (effect : s.Effect r page s' g w) : w.toNat ≤ maxfilesize := by
  cases effect with
  | opens open_ opens _ =>
    cases opens with
    | widen creates last leads kind bound size =>
      have other := modest.opens open_ creates _ _ g last leads kind
      have whole := sound.inOrder.inv.dirSize g (leads.slot .root) kind
      rw [size, Image.toNat_extend bound]
      rw [maxfilesize_eq] at bound other ⊢
      omega
    | truncate _ _ size =>
      rw [size]
      exact Nat.zero_le _
  | touches touches =>
    cases touches with
    | setSize set asks size =>
      rw [size]
      exact modest.setSize _ _ asks set
    | write write asks size =>
      rcases size with rfl | rfl
      · exact limited g (sound.filed _ _ asks.2).1.1
      · exact modest.write _ _ asks write

theorem step_limited {event : ClientEvent} (kept : s.Sound ∧ s.cache.content.Limited)
    (modest : s.Modest event) (next : s.step event = some s') : s'.Sound ∧
    s'.cache.content.Limited := by
  obtain ⟨sound, limited⟩ := kept
  obtain ⟨sound', steps⟩ := step_sound sound modest.1 next
  refine ⟨sound', ?_⟩
  cases steps with
  | served pending _ alters =>
    exact limited.alters alters fun g w effect =>
      effect_within sound limited (modest.2 _ pending) effect
  | still _ cache =>
    rw [cache]
    exact limited

theorem sizes_bounded {image : Image} (well : image.WellFormed) (limited : image.Limited)
    (run : Run step Modest (start image) events s) (g : FilePtr) (slot : s.cache.content.Slot g) :
    (0 ≤ (s.cache.content.size g).toInt ∧ (s.cache.content.size g).toInt ≤ maxfilesize) ∧
    (FsM.sizeBlocks (s.cache.content.size g)).toInt = ((s.cache.content.size g).toInt + 4095) / 4096 ∧
    (FsM.sizeBlocks (s.cache.content.size g)).toInt ≤ ndirect + nindirect := by
  have begins : (start image).cache.content.Limited := by
    show (Cache.mount image).content.Limited
    rw [Cache.mount_content]
    exact limited
  have bound :=
    (run.invariant (motive := fun s => s.Sound ∧ s.cache.content.Limited) ⟨start_sound well,
    begins⟩ fun _ _ _ => step_limited).2 g slot
  have blocks : (FsM.sizeBlocks (s.cache.content.size g)).toNat = _ := FsM.sizeBlocks_eq (by omega)
  rw [maxfilesize_eq] at bound
  have size : (s.cache.content.size g).toInt = (s.cache.content.size g).toNat :=
    BitVec.toInt_eq_toNat_of_lt (by omega)
  rw [Image.blocksOf] at blocks
  have count : (FsM.sizeBlocks (s.cache.content.size g)).toInt =
    (FsM.sizeBlocks (s.cache.content.size g)).toNat :=
    BitVec.toInt_eq_toNat_of_lt (by omega)
  rw [count, size, blocks, maxfilesize_eq]
  simp only [ndirect, nindirect]
  omega

theorem modest_of_small {event : ClientEvent} (passed : s.small? event = true) : s.Modest event := by
  refine ⟨polite_of_small passed, ?_⟩
  cases event with
  | serve page memory takes =>
    intro r pending
    refine ⟨fun open_ _ init name g last leads kind => ?_, fun i f asks set => ?_,
      fun i f asks write => ?_⟩
    · simp only [small?, pending, Option.all_some, if_pos open_, decide_eq_true_eq] at passed
      obtain ⟨-, short, other⟩ := passed
      have top : init = [] := by
        rw [last, List.length_append] at short
        simpa using short
      subst top
      cases leads
      exact other
    · have bound := (small_asks passed pending (by rw [set]; decide) asks).2.1
      rw [maxfilesize_eq]
      omega
    · have bound := (small_asks passed pending (by rw [write]; decide) asks).2.1
      rw [maxfilesize_eq, BitVec.toNat_add]
      omega
  | send => trivial
  | unmap => trivial
  | share => trivial
  | poke => trivial

theorem limited_empty {n : Word} : (Image.empty n).Limited := by
  intro g slot
  rw [Image.slot_empty slot]
  exact Nat.zero_le _

theorem sizes_bounded_written : ∃ s, Run step Modest (start (.empty 32)) writeOne s ∧
    (s.cache.content.size (.entry 3 0)).toInt ≤ maxfilesize := by
  have ran : ∃ s, Run step (small? · · = true) (start (.empty 32)) writeOne s ∧
    Cache.Shallow s.cache.content (.entry 3 0) :=
    Run.of_exec_any (by decide +kernel)
  obtain ⟨s, run, file⟩ := ran
  have run := run.mono fun _ _ => modest_of_small
  have well : (Image.empty 32).WellFormed := Image.empty_wellFormed (by decide) (by decide)
  exact ⟨s, run, (sizes_bounded well limited_empty run (.entry 3 0) file.regular.slot).1.2⟩

-- The size of `/a` is set to the largest value of `off_t`, and the number of its blocks comes out
-- negative.
theorem size_overflows : ∃ s, Run step (fun _ _ => True) (start (.empty 32))
    [.send 1 none, .serve (pageOf [(0, 0x612F), (256, 0x102)]) true true,
      .send 2 none, .serve (pageOf [(0, 1024), (1, 0x7FFFFFFF)]) true true] s ∧
      s.cache.content.Slot (.entry 3 0) ∧ s.cache.content.size (.entry 3 0) = 0x7FFFFFFF ∧
      (FsM.sizeBlocks (s.cache.content.size (.entry 3 0))).toInt < 0 := by
  refine Run.of_exec_imp (p := fun s => Cache.Shallow s.cache.content (.entry 3 0) ∧
    s.cache.content.size (.entry 3 0) = 0x7FFFFFFF) (by decide +kernel) ?_
  rintro s run ⟨file, size⟩
  refine ⟨file.regular.slot, size, ?_⟩
  rw [size]
  decide

def Permitted (s : Service) (event : ClientEvent) : Prop :=
  s.Polite event ∧ match event with
    | .serve page _ _ =>
      ∀ r i f, s.inbox = some r → ServM.Asks (s.desk r page) i f → r.req = 2 ∨ r.req = 4 →
        (s.opentab i).mode &&& oAccmode ≠ 0
    | _ => True

def ReadOnly (s : Service) (f : FilePtr) : Prop :=
  ∀ o ∈ s.log, o.file = f → o.omode &&& oAccmode = 0 ∧ o.omode &&& oTrunc = 0

theorem effect_spares (sound : s.Sound) {f : FilePtr} (file : s.cache.content.Regular f)
    (older : ∀ o ∈ s.log, o ∈ s'.log) (readOnly : s'.ReadOnly f)
    (permitted : ∀ i g, ServM.Asks (s.desk r page) i g → r.req = 2 ∨ r.req = 4 →
    (s.opentab i).mode &&& oAccmode ≠ 0) (w : Word) : ¬s.Effect r page s' f w := by
  have spared : ∀ i, ServM.Asks (s.desk r page) i f → ¬(r.req = 2 ∨ r.req = 4) := by
    intro i asks kind
    obtain ⟨-, o, logged, same, mode⟩ := sound.filed i f asks.2
    have reads := (readOnly o (older o logged) same).1
    rw [mode] at reads
    exact permitted i f asks kind reads
  intro effect
  cases effect with
  | opens open_ opens logged =>
    cases opens with
    | widen _ _ _ kind => exact file.kind kind
    | truncate truncates opened _ =>
      obtain ⟨o, member, same, mode⟩ := logged f (opened.resolve_right (not_not_intro file))
      have keeps := (readOnly o member same).2
      rw [mode] at keeps
      exact truncates keeps
  | touches touches =>
    cases touches with
    | setSize set asks _ => exact spared _ asks (.inl set)
    | write write asks _ => exact spared _ asks (.inr write)

theorem step_spares {event : ClientEvent} {f : FilePtr} (sound : s.Sound)
    (file : s.cache.content.Regular f) (permitted : s.Permitted event)
    (next : s.step event = some s') : (∀ o ∈ s.log, o ∈ s'.log) ∧ s'.Sound ∧
    s'.cache.content.Regular f ∧ (s'.ReadOnly f →
      s'.cache.content.size f = s.cache.content.size f ∧
      s'.cache.content.raw f = s.cache.content.raw f) := by
  obtain ⟨sound', steps⟩ := step_sound sound permitted.1 next
  cases steps with
  | served pending older alters =>
    refine ⟨older, sound', alters.regular file, fun readOnly => ?_⟩
    have spared := effect_spares sound file older readOnly fun i g => permitted.2 _ i g pending
    exact ⟨(alters.size f file.slot).resolve_right (spared _), alters.raw f file spared⟩
  | still log cache =>
    rw [cache, log]
    exact ⟨fun _ here => here, sound', file, fun _ => ⟨rfl, rfl⟩⟩

theorem modes_enforced {image : Image} {later : List ClientEvent} {t : Service} {f : FilePtr}
    (well : image.WellFormed) (before : Run step Permitted (start image) events s)
    (file : s.cache.content.Regular f) (run : Run step Permitted s later t)
    (readOnly : t.ReadOnly f) : t.cache.content.size f = s.cache.content.size f ∧
    t.cache.content.raw f = s.cache.content.raw f := by
  have sound : s.Sound := sound_of_run well before fun _ _ permitted => permitted.1
  have kept := run.invariant (motive := fun u => u.Sound ∧ u.cache.content.Regular f ∧ (u.ReadOnly f →
    u.cache.content.size f = s.cache.content.size f ∧ u.cache.content.raw f = s.cache.content.raw f))
    ⟨sound, file, fun _ => ⟨rfl, rfl⟩⟩ (by
      rintro u event u' ⟨sound, file, same⟩ permitted next
      obtain ⟨older, sound', file', spared⟩ := step_spares sound file permitted next
      refine ⟨sound', file', fun readOnly => ?_⟩
      -- The record only grows, and so the file was opened for reading only before.
      obtain ⟨size, raw⟩ := same fun o here => readOnly o (older o here)
      obtain ⟨size', raw'⟩ := spared readOnly
      exact ⟨size'.trans size, raw'.trans raw⟩)
  exact kept.2.2 readOnly

theorem permitted_of_small {event : ClientEvent} (passed : s.small? event = true) :
    s.Permitted event := by
  refine ⟨polite_of_small passed, ?_⟩
  cases event with
  | serve page memory takes =>
    intro r i f pending asks kind
    exact (small_asks passed pending (by rcases kind with kind | kind <;> rw [kind] <;> decide) asks).2.2
  | send => trivial
  | unmap => trivial
  | share => trivial
  | poke => trivial

instance (s : Service) (f : FilePtr) : Decidable (s.ReadOnly f) :=
  inferInstanceAs (Decidable (∀ o ∈ s.log, _ → _))

-- `/a` is created with `O_RDONLY`.
def openReadOnly : List ClientEvent :=
  [.send 1 none, .serve (pageOf [(0, 0x612F), (256, 0x100)]) true true]

def writeOther : List ClientEvent :=
  [.send 1 none, .serve (pageOf [(0, 0x622F), (256, 0x102)]) true true,
    .send 4 none, .serve (pageOf [(0, 1025), (1, 1), (2, 7)]) true true]

def writeSame : List ClientEvent :=
  [.send 4 none, .serve (pageOf [(0, 1024), (1, 1), (2, 7)]) true true]

theorem modes_enforced_two : ∃ s t, Run step Permitted (start (.empty 32)) openReadOnly s ∧
    Run step Permitted s writeOther t ∧ t.cache.content.size (.entry 3 1) = 1 ∧
    t.cache.content.size (.entry 3 0) = s.cache.content.size (.entry 3 0) := by
  have first : ∃ s, Run step (small? · · = true) (start (.empty 32)) openReadOnly s ∧
      (Cache.Shallow s.cache.content (.entry 3 0) ∧ ((exec step (small? · · = true) s writeOther).any
        fun t => t.ReadOnly (.entry 3 0) ∧ t.cache.content.size (.entry 3 1) = 1) = true) :=
    Run.of_exec_any (by decide +kernel)
  obtain ⟨s, before, file, second⟩ := first
  obtain ⟨t, run, readOnly, size⟩ := Run.of_exec_any second
  have before := before.mono fun _ _ => permitted_of_small
  have run := run.mono fun _ _ => permitted_of_small
  have well : (Image.empty 32).WellFormed := Image.empty_wellFormed (by decide) (by decide)
  exact ⟨s, t, before, run, size, (modes_enforced well before file.regular run readOnly).1⟩

-- A byte is written to a file that was opened for reading only.
theorem mode_ignored : ∃ s t, Run step (fun _ _ => True) (start (.empty 32)) openReadOnly s ∧
    s.cache.content.Regular (.entry 3 0) ∧ Run step (fun _ _ => True) s writeSame t ∧
    t.ReadOnly (.entry 3 0) ∧ s.cache.content.size (.entry 3 0) = 0 ∧
    t.cache.content.size (.entry 3 0) = 1 ∧ s.cache.content.raw (.entry 3 0) 0 = 0 ∧
    t.cache.content.raw (.entry 3 0) 0 = 7 := by
  have first : ∃ s, Run step (fun _ _ => True) (start (.empty 32)) openReadOnly s ∧
      ((Cache.Shallow s.cache.content (.entry 3 0) ∧ s.cache.content.size (.entry 3 0) = 0 ∧
        s.cache.content.raw (.entry 3 0) 0 = 0) ∧ ((exec step (fun _ _ => True) s writeSame).any fun t =>
        t.ReadOnly (.entry 3 0) ∧ t.cache.content.size (.entry 3 0) = 1 ∧
          t.cache.content.raw (.entry 3 0) 0 = 7) = true) :=
    Run.of_exec_any (by decide +kernel)
  obtain ⟨s, before, ⟨file, size, byte⟩, second⟩ := first
  obtain ⟨t, run, readOnly, size', byte'⟩ := Run.of_exec_any second
  exact ⟨s, t, before, file.regular, run, readOnly, size, size', byte, byte'⟩

end Service

end Jos.Fs
