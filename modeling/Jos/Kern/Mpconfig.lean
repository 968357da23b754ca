import Jos.Kern.Mmu

namespace Jos.Kern.Mpconfig

def ncpuMax : Nat := 8

structure Table where
  byte : Nat → Byte

namespace Table

variable (conf : Table)

def half (off : Nat) : Nat := (conf.byte off).toNat + 256 * (conf.byte (off + 1)).toNat

def length : Nat := conf.half 4

def version : Byte := conf.byte 6

def entry : Nat := conf.half 34

def lapicaddr : Nat := conf.half 36 + 65536 * conf.half 38

def xlength : Nat := conf.half 40

def xchecksum : Byte := conf.byte 42

def type (p : Nat) : Nat := (conf.byte p).toNat

def mpprocBoot (p : Nat) : Bool := conf.byte (p + 3) &&& 2 ≠ 0

def sum (off len : Nat) : Byte := (List.range len).foldl (fun sum i => sum + conf.byte (off + i)) 0

structure Accepted : Prop where
  signature : (List.range 4).map conf.byte = [0x50, 0x43, 0x4d, 0x50]
  checksum : conf.sum 0 conf.length = 0
  version : conf.version = 1 ∨ conf.version = 4
  extended : conf.sum conf.length conf.xlength + conf.xchecksum = 0

end Table

/-- The globals that `mp_init` sets, and the offsets of the bytes of entries that it reads. -/
structure Mp where
  ismp : Bool
  ncpu : Nat
  bootcpu : Nat
  cpuId : Nat → Nat
  started : Option Nat
  lapicaddr : Nat
  reads : List Nat

namespace Mp

variable (conf : Table)

def start : Mp := ⟨false, 0, 0, fun _ => 0, none, 0, []⟩

def read (s : Mp) (off : Nat) : Mp := { s with reads := off :: s.reads }

def proc (s : Mp) (p : Nat) : Mp :=
  let s := s.read (p + 3)
  let s := if conf.mpprocBoot p then { s with bootcpu := s.ncpu } else s
  if s.ncpu < ncpuMax then { s with cpuId := Function.update s.cpuId s.ncpu s.ncpu, ncpu := s.ncpu + 1 }
  else s.read (p + 1)

def loop : Nat → Nat → Mp → Mp
  | 0, _, s => s
  | left + 1, p, s =>
    match conf.type p with
    | 0 => loop left (p + 20) ((s.read p).proc conf p)
    | 1 | 2 | 3 | 4 => loop left (p + 8) (s.read p)
    | _ => { s.read p with ismp := false }

def mpInit : Mp :=
  let s := loop conf conf.entry 44 { start with ismp := true, lapicaddr := conf.lapicaddr }
  let s := { s with started := some s.bootcpu }
  if s.ismp then s else { s with ncpu := 1, lapicaddr := 0 }

structure Robust (s : Mp) : Prop where
  inside : ∀ off ∈ s.reads, off < conf.length
  cpus : 1 ≤ s.ncpu ∧ s.ncpu ≤ ncpuMax
  boot : s.bootcpu < s.ncpu

end Mp

namespace Table

variable (conf : Table)

def entries : Nat → Nat → List Nat
  | 0, _ => []
  | left + 1, p =>
    p :: if conf.type p ≤ 4 then entries left (p + if conf.type p = 0 then 20 else 8) else []

def flags (entries : List Nat) : List Bool :=
  (entries.filter fun p => conf.type p = 0).map conf.mpprocBoot

def Unknown (entries : List Nat) : Prop := ∃ p ∈ entries, 4 < conf.type p

structure Sound (entries : List Nat) : Prop where
  inside : ∀ p ∈ entries, p < conf.length ∧ (conf.type p = 0 → p + 3 < conf.length)
  processor : conf.Unknown entries ∨ conf.flags entries ≠ []
  boot : ∀ k, (conf.flags entries)[k]? = some true → (∀ j, k < j → (conf.flags entries)[j]? ≠ some true) →
    k < ncpuMax ∧ (conf.Unknown entries → k = 0)

end Table

def bootOf : List Bool → Nat → Nat → Nat
  | [], _, boot => boot
  | flag :: rest, ncpu, boot => bootOf rest (min ncpuMax (ncpu + 1)) (if flag then ncpu else boot)

theorem bootOf_spec (flags : List Bool) (boot : Nat) {ncpu : Nat} (few : ncpu ≤ ncpuMax) :
    bootOf flags ncpu boot = boot ∧ (∀ j : Nat, flags[j]? ≠ some true) ∨
    ∃ k : Nat, flags[k]? = some true ∧ (∀ j : Nat, k < j → flags[j]? ≠ some true) ∧
      bootOf flags ncpu boot = min ncpuMax (ncpu + k) := by
  induction flags generalizing ncpu boot with
  | nil => exact .inl ⟨rfl, by simp⟩
  | cons flag rest ih =>
    rw [bootOf]
    obtain ⟨same, none⟩ | ⟨k, flagged, last, index⟩ :=
      ih (if flag then ncpu else boot) (Nat.min_le_left ncpuMax (ncpu + 1))
    · cases flag with
      | false => exact .inl ⟨same, fun j => by cases j <;> simp [none]⟩
      | true =>
        refine .inr ⟨0, rfl, fun j after => ?_, by rw [same, if_pos rfl]; omega⟩
        obtain ⟨j, rfl⟩ := Nat.exists_eq_succ_of_ne_zero (by omega : j ≠ 0)
        exact none j
    · refine .inr ⟨k + 1, flagged, fun j after => ?_, by rw [index]; omega⟩
      obtain ⟨j, rfl⟩ := Nat.exists_eq_succ_of_ne_zero (by omega : j ≠ 0)
      exact last j (by omega)

theorem bootOf_lt_iff (flags : List Bool) {n : Nat} : bootOf flags 0 0 < n ↔
    0 < n ∧ ∀ k : Nat, flags[k]? = some true → (∀ j : Nat, k < j → flags[j]? ≠ some true) →
    min ncpuMax k < n := by
  obtain ⟨zero, none⟩ | ⟨k, flagged, last, index⟩ := bootOf_spec flags 0 (Nat.zero_le ncpuMax)
  · rw [zero]
    exact ⟨fun pos => ⟨pos, fun k flagged => absurd flagged (none k)⟩, And.left⟩
  · rw [index, Nat.zero_add]
    refine ⟨fun below => ⟨by omega, fun k' flagged' last' => ?_⟩, fun all => all.2 k flagged last⟩
    obtain earlier | rfl | later := Nat.lt_trichotomy k k'
    · exact absurd flagged' (last k' earlier)
    · exact below
    · exact absurd flagged (last' k later)

structure Visited (conf : Table) (entries : List Nat) (s t : Mp) : Prop where
  ncpu : t.ncpu = min ncpuMax (s.ncpu + (conf.flags entries).length)
  ismp : t.ismp = true ↔ s.ismp = true ∧ ¬conf.Unknown entries
  boot : t.bootcpu = bootOf (conf.flags entries) s.ncpu s.bootcpu
  reads : (∀ off ∈ t.reads, off < conf.length) ↔ (∀ off ∈ s.reads, off < conf.length) ∧
    ∀ p ∈ entries, p < conf.length ∧ (conf.type p = 0 → p + 3 < conf.length)

section Loop

variable {conf : Table} {p : Nat} {entries : List Nat} {s t : Mp}

theorem unknown_cons : conf.Unknown (p :: entries) ↔ 4 < conf.type p ∨ conf.Unknown entries := by
  simp [Table.Unknown]

theorem flags_cons : conf.flags (p :: entries) =
    if conf.type p = 0 then conf.mpprocBoot p :: conf.flags entries else conf.flags entries := by
  by_cases zero : conf.type p = 0 <;> simp [Table.flags, zero]

theorem Visited.proc (zero : conf.type p = 0) (few : s.ncpu ≤ ncpuMax)
    (rest : Visited conf entries ((s.read p).proc conf p) t) : Visited conf (p :: entries) s t := by
  have count : ((s.read p).proc conf p).ncpu = min ncpuMax (s.ncpu + 1) := by
    simp only [Mp.proc, Mp.read]
    grind
  have boot : ((s.read p).proc conf p).bootcpu = if conf.mpprocBoot p then s.ncpu else s.bootcpu := by
    simp only [Mp.proc, Mp.read]
    grind
  have ismp : ((s.read p).proc conf p).ismp = s.ismp := by
    simp only [Mp.proc, Mp.read]
    grind
  have reads : (∀ off ∈ ((s.read p).proc conf p).reads, off < conf.length) ↔
      p + 3 < conf.length ∧ ∀ off ∈ s.reads, off < conf.length := by
    have all : ((s.read p).proc conf p).reads = (p + 3) :: p :: s.reads ∨
        ((s.read p).proc conf p).reads = (p + 1) :: (p + 3) :: p :: s.reads := by
      simp only [Mp.proc, Mp.read]
      grind
    obtain all | all := all <;> simp only [all, List.forall_mem_cons] <;> grind
  constructor
  · rw [rest.ncpu, count, flags_cons, if_pos zero, List.length_cons]
    omega
  · rw [rest.ismp, ismp, unknown_cons, zero]
    simp
  · rw [rest.boot, count, boot, flags_cons, if_pos zero, bootOf]
  · rw [rest.reads, reads]
    grind

theorem Visited.other (known : conf.type p ≤ 4) (other : conf.type p ≠ 0)
    (rest : Visited conf entries (s.read p) t) : Visited conf (p :: entries) s t := by
  constructor
  · rw [rest.ncpu, flags_cons, if_neg other, Mp.read]
  · rw [rest.ismp, unknown_cons, Mp.read]
    grind
  · rw [rest.boot, flags_cons, if_neg other, Mp.read]
  · rw [rest.reads, Mp.read]
    grind

theorem Visited.unknown (unknown : 4 < conf.type p) (few : s.ncpu ≤ ncpuMax) :
    Visited conf [p] s { s.read p with ismp := false } := by
  have other : conf.type p ≠ 0 := fun zero => by simp [zero] at unknown
  constructor
  · rw [flags_cons, if_neg other]
    exact (Nat.min_eq_right few).symm
  · simp [Table.Unknown, unknown]
  · rw [flags_cons, if_neg other]
    rfl
  · simp [Mp.read, other, and_comm]

theorem loop_visited (left : Nat) (few : s.ncpu ≤ ncpuMax) :
    Visited conf (conf.entries left p) s (Mp.loop conf left p s) := by
  induction left generalizing p s with
  | zero =>
    refine ⟨(Nat.min_eq_right few).symm, ?_, rfl, ?_⟩
    · simp [Mp.loop, Table.entries, Table.Unknown]
    · simp [Mp.loop, Table.entries]
  | succ left ih =>
    rw [Mp.loop, Table.entries]
    by_cases zero : conf.type p = 0
    · have next : ((s.read p).proc conf p).ncpu ≤ ncpuMax := by
        simp only [Mp.proc, Mp.read]
        grind
      simpa [zero] using Visited.proc zero few (ih next)
    next =>
    by_cases known : conf.type p ≤ 4
    · have kind : conf.type p = 1 ∨ conf.type p = 2 ∨ conf.type p = 3 ∨ conf.type p = 4 := by omega
      rw [if_pos known, if_neg zero]
      have rest := Visited.other known zero (ih (p := p + 8) (s := s.read p) few)
      obtain kind | kind | kind | kind := kind <;> simpa [kind] using rest
    · rw [if_neg known]
      split <;> first | omega | exact Visited.unknown (not_le.mp known) few

end Loop

theorem mpInit_robust_iff (conf : Table) :
    (Mp.mpInit conf).Robust conf ↔ conf.Sound (conf.entries conf.entry 44) := by
  let s : Mp := { Mp.start with ismp := true, lapicaddr := conf.lapicaddr }
  have seen : Visited conf (conf.entries conf.entry 44) s (Mp.loop conf conf.entry 44 s) :=
    loop_visited _ (Nat.zero_le _)
  unfold Mp.mpInit
  generalize conf.entries conf.entry 44 = entries at seen ⊢
  generalize Mp.loop conf conf.entry 44 s = t at seen ⊢
  have inside : (∀ off ∈ t.reads, off < conf.length) ↔
      ∀ p ∈ entries, p < conf.length ∧ (conf.type p = 0 → p + 3 < conf.length) := by
    simp [seen.reads, s, Mp.start]
  have ismp : t.ismp = true ↔ ¬conf.Unknown entries := by simp [seen.ismp, s]
  have count : t.ncpu = min ncpuMax (conf.flags entries).length := by simp [seen.ncpu, s, Mp.start]
  have some : conf.flags entries ≠ [] ↔ 1 ≤ t.ncpu := by
    rw [count, ← List.length_pos_iff, ncpuMax]
    omega
  have boot : t.bootcpu = bootOf (conf.flags entries) 0 0 := seen.boot
  by_cases unknown : conf.Unknown entries
  · have failed : t.ismp ≠ true := fun found => ismp.mp found unknown
    simp only [failed, Bool.false_eq_true, if_false]
    refine ⟨fun robust => ⟨inside.mp robust.inside, .inl unknown, fun k flagged last => ?_⟩,
      fun sound => ?_⟩
    · have first := ((bootOf_lt_iff _).mp (boot ▸ robust.boot)).2 k flagged last
      simp only [ncpuMax] at first ⊢
      omega
    · refine ⟨inside.mpr sound.inside, ⟨le_rfl, show 1 ≤ 8 by decide⟩, ?_⟩
      rw [boot, bootOf_lt_iff]
      refine ⟨Nat.one_pos, fun k flagged last => ?_⟩
      rw [(sound.boot k flagged last).2 unknown, Nat.min_zero]
      exact Nat.one_pos
  · simp only [ismp.mpr unknown, if_true]
    refine ⟨fun robust => ⟨inside.mp robust.inside, .inr (some.mpr robust.cpus.1),
      fun k flagged last => ?_⟩, fun sound => ?_⟩
    · have enabled := ((bootOf_lt_iff _).mp (boot ▸ robust.boot)).2 k flagged last
      simp only [count] at enabled
      exact ⟨by omega, fun found => absurd found unknown⟩
    · have pos := some.mp (sound.processor.resolve_left unknown)
      refine ⟨inside.mpr sound.inside, ⟨pos, count ▸ Nat.min_le_left ..⟩, ?_⟩
      rw [boot, bootOf_lt_iff]
      refine ⟨pos, fun k flagged last => ?_⟩
      have inRange : k < (conf.flags entries).length := (List.getElem?_eq_some_iff.mp flagged).1
      have enabled := (sound.boot k flagged last).1
      simp only [count]
      omega

def table (length checksum : Byte) (entries : List (List Byte)) : Table where
  byte := fun off =>
    ([0x50, 0x43, 0x4d, 0x50, length, 0, 4, checksum] ++ List.replicate 26 0 ++
      [BitVec.ofNat 8 entries.length] ++ List.replicate 9 0 ++ entries.flatten).getD off 0

def oneProcessor : Table := table 64 0x89 [[0, 0, 0, 2] ++ List.replicate 16 0]

theorem mpInit_robust_one : oneProcessor.Accepted ∧ (Mp.mpInit oneProcessor).Robust oneProcessor := by
  have accepted : oneProcessor.Accepted := by
    constructor <;> decide +kernel
  have one : oneProcessor.flags (oneProcessor.entries oneProcessor.entry 44) = [true] := by decide +kernel
  refine ⟨accepted,
    (mpInit_robust_iff _).mpr ⟨by decide +kernel, .inr (by simp [one]), fun k flagged _ => ?_⟩⟩
  rw [one] at flagged
  have first : k < 1 := (List.getElem?_eq_some_iff.mp flagged).1
  exact ⟨first.trans (by decide), fun _ => Nat.lt_one_iff.mp first⟩

-- A table without a processor leaves `ncpu` at 0.
theorem mpInit_no_processor :
    let conf := table 44 0xa0 []
    conf.Accepted ∧ ¬(Mp.mpInit conf).Robust conf :=
  ⟨by constructor <;> decide +kernel, fun robust => absurd robust.cpus.1 (by decide +kernel)⟩

end Jos.Kern.Mpconfig
