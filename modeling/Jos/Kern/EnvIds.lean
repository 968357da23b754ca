import Jos.Kern.Boot

namespace Jos.Kern

open Jos.Shared
open Function

section Generations

def generations : Nat := 2 ^ 19 - 1

theorem toNat_and_not_1023 (v : Word) : (v &&& ~~~1023#32).toNat = v.toNat - v.toNat % 1024 := by
  rw [toNat_and_not, BitVec.toNat_and]
  exact congrArg (v.toNat - ·) (Nat.and_two_pow_sub_one_eq_mod v.toNat 10)

theorem toNat_or_slot {v : Word} (aligned : v.toNat % 1024 = 0) (e : Slot) :
    (v ||| BitVec.ofNat 32 e.val).toNat = v.toNat + e.val := by
  have inside := e.isLt
  rw [BitVec.toNat_or, BitVec.toNat_ofNat, Nat.mod_eq_of_lt (by omega),
    show v.toNat = 2 ^ 10 * (v.toNat / 1024) by omega, ← Nat.two_pow_add_eq_or_of_lt (by omega)]

theorem nextId_toNat {old : Word} {n : Nat} (number : old.toNat / 4096 = n)
    (low : old.toNat % 4096 < 1024) (positive : n ≤ generations) (e : Slot) :
    (Kernel.nextId old e).toNat = (n % generations + 1) * 4096 + e.val := by
  have small : n ≤ 2 ^ 19 - 1 := positive
  have sum : (old + (0x1000 : Word)).toNat = old.toNat + 4096 := by
    rw [BitVec.toNat_add, show (0x1000 : Word).toNat = 4096 from rfl]
    omega
  have generation : ((old + (0x1000 : Word)) &&& ~~~1023#32).toNat = (n + 1) * 4096 := by
    rw [toNat_and_not_1023, sum]
    omega
  have sign : ((old + (0x1000 : Word)) &&& ~~~1023#32).sle 0 = decide (n = 2 ^ 19 - 1) := by
    rw [BitVec.sle_eq_decide, BitVec.toInt_eq_toNat_cond, generation, decide_eq_decide]
    simp only [BitVec.ofNat_eq_ofNat, BitVec.toInt_zero]
    split <;> omega
  unfold Kernel.nextId
  simp only [sign, decide_eq_true_eq]
  by_cases last : n = 2 ^ 19 - 1
  · rw [if_pos last, toNat_or_slot (by decide), last]
    rfl
  · rw [if_neg last, toNat_or_slot (by omega), generation,
      Nat.mod_eq_of_lt (show n < generations by simp only [generations]; omega)]

def idAt (e : Slot) (k : Nat) : Word := BitVec.ofNat 32 ((k % generations + 1) * 4096 + e.val)

def lastId (e : Slot) : Nat → Word
  | 0 => 0
  | k + 1 => idAt e k

theorem toNat_idAt (e : Slot) (k : Nat) : (idAt e k).toNat = (k % generations + 1) * 4096 + e.val := by
  have bound : k % generations < generations := Nat.mod_lt k (by decide)
  have inside := e.isLt
  simp only [generations] at bound
  rw [idAt, BitVec.toNat_ofNat, Nat.mod_eq_of_lt (by simp only [generations]; omega)]

theorem nextId_idAt (e : Slot) (k : Nat) : Kernel.nextId (idAt e k) e = idAt e (k + 1) := by
  have bound : k % generations < generations := Nat.mod_lt k (by decide)
  have inside := e.isLt
  have id := toNat_idAt e k
  apply BitVec.eq_of_toNat_eq
  rw [nextId_toNat (n := k % generations + 1) (by omega) (by omega) (by omega), toNat_idAt,
    Nat.mod_add_mod]

theorem nextId_zero (e : Slot) : Kernel.nextId 0 e = idAt e 0 := by
  apply BitVec.eq_of_toNat_eq
  rw [nextId_toNat (n := 0) rfl (by decide) (by decide), toNat_idAt]

theorem nextId_lastId (e : Slot) (n : Nat) : Kernel.nextId (lastId e n) e = idAt e n := by
  cases n with
  | zero => exact nextId_zero e
  | succ k => exact nextId_idAt e k

theorem idAt_positive (e : Slot) (k : Nat) : 0 < (idAt e k).toInt := by
  have bound : k % generations < generations := Nat.mod_lt k (by decide)
  have inside := e.isLt
  simp only [generations] at bound
  rw [BitVec.toInt_eq_toNat_cond, toNat_idAt, if_pos] <;> simp only [generations] <;> omega

theorem envx_idAt (e : Slot) (k : Nat) : envx (idAt e k) = e := by
  apply Fin.ext
  have inside := e.isLt
  rw [envx, toNat_idAt, Fin.ofNat, Fin.val_mk]
  omega

theorem idAt_ne (e : Slot) {i j : Nat} (before : i < j) (near : j < i + generations) :
    idAt e i ≠ idAt e j := by
  intro same
  have ids : (idAt e i).toNat = (idAt e j).toNat := by rw [same]
  rw [toNat_idAt, toNat_idAt] at ids
  have residues : j % generations = i % generations := by omega
  have multiple : generations ∣ j - i := (Nat.modEq_iff_dvd' before.le).mp residues.symm
  exact absurd (Nat.le_of_dvd (by omega) multiple) (by omega)

end Generations

inductive Lifecycle where
  | envAlloc (parentId : Word)
  | envFree (e : Slot)
  deriving DecidableEq

structure Register where
  kernel : Kernel
  issued : Slot → List Word

namespace Register

variable {r r' : Register} {e : Slot}

def step (r : Register) : Lifecycle → Option Register
  | .envAlloc parentId =>
    match r.kernel.envAlloc parentId with
    | .ok (s, .ok e) => some ⟨s, update r.issued e ((s.envs e).envId :: r.issued e)⟩
    | .ok (s, .error _) => some ⟨s, r.issued⟩
    | .error _ => none
  | .envFree e =>
    match r.kernel.envFree e with
    | .ok s => some ⟨s, r.issued⟩
    | .error _ => none

theorem step_cases {ev : Lifecycle} (stepped : r.step ev = some r') :
    (r'.kernel.toTable = r.kernel.toTable ∧ r'.issued = r.issued) ∨
    (∃ e, (r.kernel.envs e).envPgdir ≠ none ∧ r'.kernel.toTable = r.kernel.release e ∧
    r'.issued = r.issued) ∨ ∃ e g parentId, r.kernel.envFreeList = some e ∧
      r'.kernel.toTable =
      r.kernel.take e (Kernel.freshEnv { r.kernel.envs e with envPgdir := some g } e parentId) ∧
      r'.issued = update r.issued e (Kernel.nextId (r.kernel.envs e).envId e :: r.issued e) := by
  cases ev with
  | envAlloc parentId =>
    have effect := Kernel.envAlloc_table (E := Exit.Lands fun _ => True) r.kernel parentId
    simp only [step] at stepped
    split at stepped
    next s e allocated =>
      rw [allocated] at effect
      obtain rfl := Option.some.inj stepped
      rcases effect with ⟨err, failed, -⟩ | ⟨e', g, same, head, table⟩
      · cases failed
      obtain rfl : e = e' := by simpa using same
      refine .inr (.inr ⟨e, g, parentId, head, table, ?_⟩)
      have named : (s.envs e).envId = Kernel.nextId (r.kernel.envs e).envId e := by
        rw [show s.envs = _ from congrArg Table.envs table]
        simp [Table.act, Table.take, Table.setEnv, Kernel.freshEnv]
      rw [named]
    next s err failed =>
      rw [failed] at effect
      obtain rfl := Option.some.inj stepped
      rcases effect with ⟨-, -, table⟩ | ⟨e', g, same, -⟩
      · exact .inl ⟨table, rfl⟩
      · cases same
    · cases stepped
  | envFree e =>
    have effect := Kernel.envFree_table (E := Exit.Lands fun _ => True) r.kernel e
    simp only [step] at stepped
    split at stepped
    next s freed =>
      rw [freed] at effect
      obtain rfl := Option.some.inj stepped
      exact .inr (.inl ⟨e, effect.1, effect.2, rfl⟩)
    · cases stepped

structure Named (r : Register) (e : Slot) (n : Nat) : Prop where
  issued : r.issued e = ((List.range n).map (idAt e)).reverse
  current : (r.kernel.envs e).envId = lastId e n
  live : r.kernel.status e ≠ .free → n ≠ 0

structure Orderly (r : Register) : Prop where
  ok : r.kernel.Ok
  named : ∀ e, ∃ n, r.Named e n

theorem Named.congr {n : Nat} (named : r.Named e n) (issued : r'.issued e = r.issued e)
    (id : (r'.kernel.envs e).envId = (r.kernel.envs e).envId)
    (live : r'.kernel.status e ≠ .free → r.kernel.status e ≠ .free) : r'.Named e n :=
  ⟨issued.trans named.issued, id.trans named.current, fun used => named.live (live used)⟩

theorem step_orderly {ev : Lifecycle} (orderly : r.Orderly) (stepped : r.step ev = some r') :
    r'.Orderly := by
  rcases step_cases stepped with ⟨table, issued⟩ | ⟨e, own, table, issued⟩ |
    ⟨e, g, parentId, head, table, issued⟩
  · refine ⟨table ▸ orderly.ok, fun e => ?_⟩
    obtain ⟨n, named⟩ := orderly.named e
    exact ⟨n, named.congr (by rw [issued]) (by rw [table]) (by rw [table]; exact id)⟩
  · refine ⟨table ▸ orderly.ok.release own, fun e' => ?_⟩
    obtain ⟨n, named⟩ := orderly.named e'
    refine ⟨n, named.congr (by rw [issued]) ?_ ?_⟩ <;> rw [table] <;>
      by_cases same : e' = e <;> simp [Table.release, Table.setEnv, Table.status, same]
  · refine ⟨table ▸ orderly.ok.take head rfl (by simp [Kernel.freshEnv])
      (by simp [Kernel.freshEnv]), fun e' => ?_⟩
    obtain ⟨n, named⟩ := orderly.named e'
    by_cases same : e' = e
    · subst same
      -- The new id follows the last one of this slot.
      have next : Kernel.nextId (r.kernel.envs e').envId e' = idAt e' n := by
        rw [named.current, nextId_lastId]
      refine ⟨n + 1, ?_, ?_, fun _ => n.succ_ne_zero⟩
      · rw [issued, update_self, next, named.issued, List.range_succ]
        simp
      · rw [table, lastId, ← next]
        simp [Table.take, Table.setEnv, Kernel.freshEnv]
    · refine ⟨n, named.congr (by rw [issued, update_of_ne same]) ?_ ?_⟩ <;> rw [table] <;>
        simp [Table.take, Table.setEnv, Table.status, same]

def start (s : Kernel) : Register := ⟨s, fun _ => []⟩

theorem start_orderly {s : Kernel} {free : List Nat} (booted : s.Booted free) : (start s).Orderly := by
  refine ⟨booted.table ▸ bootTable_ok s.ncpu, fun e => ⟨0, rfl, ?_, fun live => ?_⟩⟩
  · rw [show (start s).kernel.toTable = bootTable s.ncpu from booted.table]
    by_cases next : e.val + 1 < 1024 <;> simp [bootTable, envInit, lastId, next]
  · rw [show (start s).kernel.toTable = bootTable s.ncpu from booted.table] at live
    exact absurd (bootTable_env s.ncpu e).1 live

theorem Orderly.live_id (orderly : r.Orderly) (live : r.kernel.status e ≠ .free) :
    ∃ k, (r.kernel.envs e).envId = idAt e k := by
  obtain ⟨n, named⟩ := orderly.named e
  obtain ⟨k, rfl⟩ := Nat.exists_eq_succ_of_ne_zero (named.live live)
  exact ⟨k, named.current⟩

theorem envid2env_iff {s : Kernel} {id : Word} (given : id ≠ 0) (cur : Slot)
    (slots : s.status e ≠ .free → envx (s.envs e).envId = e) :
    s.envid2env cur id false = some e ↔ s.status e ≠ .free ∧ (s.envs e).envId = id := by
  unfold Kernel.envid2env
  rw [if_neg given]
  constructor
  · intro found
    split at found
    · cases found
    next valid =>
      obtain rfl : envx id = e := by simpa using found
      push Not at valid
      exact valid
  · rintro ⟨live, rfl⟩
    have place := slots live
    rw [place, if_neg (by simp [live])]
    simp

theorem Named.apart {n i j : Nat} {id : Word} (named : r.Named e n) (later : (r.issued e)[i]? = some id)
    (earlier : (r.issued e)[j]? = some id) (before : i < j) : generations ≤ j - i := by
  have place : ∀ {k : Nat}, (r.issued e)[k]? = some id → k < n ∧ idAt e (n - 1 - k) = id := by
    intro k found
    rw [named.issued] at found
    obtain ⟨bound, value⟩ := List.getElem?_eq_some_iff.mp found
    refine ⟨by simpa using bound, ?_⟩
    simpa using value
  obtain ⟨high, first⟩ := place later
  obtain ⟨low, second⟩ := place earlier
  by_contra near
  exact idAt_ne e (i := n - 1 - j) (j := n - 1 - i) (by omega) (by omega) (second.trans first.symm)

theorem ids_fresh {s : Kernel} {free : List Nat} {events : List Lifecycle} (booted : s.Booted free)
    (run : Run step (fun _ _ => True) (start s) events r) :
    (∀ e, r.kernel.status e ≠ .free → 0 < (r.kernel.envs e).envId.toInt ∧
    envx (r.kernel.envs e).envId = e ∧
      ∀ e', r.kernel.status e' ≠ .free → e' ≠ e → (r.kernel.envs e').envId ≠ (r.kernel.envs e).envId) ∧
    (∀ cur id e, id ≠ 0 → (r.kernel.envid2env cur id false = some e ↔
      r.kernel.status e ≠ .free ∧ (r.kernel.envs e).envId = id)) ∧
    ∀ e i j id, (r.issued e)[i]? = some id → (r.issued e)[j]? = some id → i < j → 2 ^ 19 - 2 < j - i := by
  have orderly : r.Orderly := run.invariant (start_orderly booted) fun _ _ _ holds _ stepped =>
    step_orderly holds stepped
  have place : ∀ {e}, r.kernel.status e ≠ .free → envx (r.kernel.envs e).envId = e := by
    intro e live
    obtain ⟨k, named⟩ := orderly.live_id live
    rw [named, envx_idAt]
  refine ⟨fun e live => ⟨?_, place live, fun e' live' other same => other ?_⟩,
    fun cur id e given => envid2env_iff given cur place, fun e i j id later earlier before => ?_⟩
  · obtain ⟨k, named⟩ := orderly.live_id live
    rw [named]
    exact idAt_positive e k
  · rw [← place live, ← same, place live']
  · obtain ⟨n, named⟩ := orderly.named e
    have far := named.apart later earlier before
    simp only [generations] at far
    omega

theorem ids_fresh_reused :
    ∃ r, Run step (fun _ _ => True) (start demo) [.envAlloc 0, .envFree 0, .envAlloc 0] r ∧
    r.issued 0 = [0x2000, 0x1000] ∧ ∀ e, r.kernel.status e ≠ .free →
    0 < (r.kernel.envs e).envId.toInt := by
  refine Run.of_exec_imp (p := fun r => r.issued 0 = [0x2000, 0x1000])
    (by decide +kernel) fun r run ids => ?_
  exact ⟨ids, fun e live => ((ids_fresh demo_booted run).1 e live).1⟩

end Register

end Jos.Kern
