import Jos.Shared.Run
import Jos.Kern.Mmu

namespace Jos.Net

open Jos.Kern Jos.Shared
open Function

def nsem : Int := 256
def nmbox : Int := 128
def sysSemNull : Int := -1
def sysMboxNull : Int := -1

structure SysSemEntry where
  freed : Bool
  gen : Word
  counter : BitVec 16

structure SysMboxEntry where
  freed : Bool
  head : Int
  nextq : Int
  queuedMsg : Int
  freeMsg : Int

/-- The entries are found at any index, as memory is. `used` is every index of an entry that was
looked at. -/
structure SysArch where
  sems : Int → SysSemEntry
  semFree : List Int
  mboxes : Int → SysMboxEntry
  mboxFree : List Int
  usedSems : List Int
  usedMboxes : List Int

namespace SysArch

variable (s : SysArch)

def setSem (i : Int) (e : SysSemEntry) : SysArch :=
  { s with sems := update s.sems i e, usedSems := i :: s.usedSems }

def setMbox (i : Int) (e : SysMboxEntry) : SysArch :=
  { s with mboxes := update s.mboxes i e, usedMboxes := i :: s.usedMboxes }

-- `none` is a failed assertion, here and below.
def sysSemNew (count : BitVec 8) : Option (SysArch × Int) :=
  match s.semFree with
  | [] => some (s, sysSemNull)
  | se :: rest =>
    if (s.sems se).freed then
      some ({ s with semFree := rest }.setSem se ⟨false, (s.sems se).gen + 1, count.setWidth 16⟩, se)
    else none

def sysSemFree (sem : Int) : Option SysArch :=
  if (s.sems sem).freed then none
  else some ({ s with semFree := sem :: s.semFree }.setSem sem
    { s.sems sem with freed := true, gen := (s.sems sem).gen + 1 })

def sysMboxFree (mbox : Int) : Option SysArch :=
  if (s.mboxes mbox).freed then none
  else do
    let s ← s.sysSemFree (s.mboxes mbox).queuedMsg
    let s ← s.sysSemFree (s.mboxes mbox).freeMsg
    some ({ s with mboxFree := mbox :: s.mboxFree }.setMbox mbox { s.mboxes mbox with freed := true })

def sysMboxNew (size : Int) : Option (SysArch × Int) :=
  if ¬ size < 32 then none
  else match s.mboxFree with
    | [] => some (s, sysMboxNull)
    | i :: rest =>
      if (s.mboxes i).freed then do
        let (s, queued) ← { s with mboxFree := rest }.sysSemNew 0
        let (s, free) ← s.sysSemNew 32
        let s := s.setMbox i ⟨false, -1, 0, queued, free⟩
        if queued = sysSemNull ∨ free = sysSemNull then do
          let s ← s.sysMboxFree i
          some (s, sysMboxNull)
        else some (s, i)
      else none

inductive PoolEvent where
  | semNew (count : BitVec 8)
  | semFree (sem : Int)
  | mboxNew (size : Int)
  | mboxFree (mbox : Int)

def poolStep : PoolEvent → Option SysArch
  | .semNew count => (s.sysSemNew count).map (·.1)
  | .semFree sem => if 0 ≤ sem ∧ sem < nsem then s.sysSemFree sem else none
  | .mboxNew size => (s.sysMboxNew size).map (·.1)
  | .mboxFree mbox => if 0 ≤ mbox ∧ mbox < nmbox then s.sysMboxFree mbox else none

def sysInit (sems : Int → SysSemEntry) (mboxes : Int → SysMboxEntry) : SysArch where
  sems i := { sems i with freed := if 0 ≤ i ∧ i < nsem then true else (sems i).freed }
  semFree := (List.range 256).reverse.map Int.ofNat
  mboxes i := { mboxes i with freed := if 0 ≤ i ∧ i < nmbox then true else (mboxes i).freed }
  mboxFree := (List.range 128).reverse.map Int.ofNat
  usedSems := []
  usedMboxes := []

structure Pools : Prop where
  sems : ∀ i ∈ s.semFree, (s.sems i).freed = true
  distinct : s.semFree.Nodup
  mboxes : ∀ i ∈ s.mboxFree, (s.mboxes i).freed = true ∧ 0 ≤ i ∧ i < nmbox
  apart : s.mboxFree.Nodup
  range : ∀ i ∈ s.semFree, -1 ≤ i ∧ i < nsem
  owned : ∀ i, 0 ≤ i → i < nmbox → (s.mboxes i).freed = false →
    (-1 ≤ (s.mboxes i).queuedMsg ∧ (s.mboxes i).queuedMsg < nsem) ∧ -1 ≤ (s.mboxes i).freeMsg ∧
      (s.mboxes i).freeMsg < nsem

def FailsCleanly (size : Int) : Prop :=
  ∀ s', { s with usedSems := [], usedMboxes := [] }.sysMboxNew size = some (s', sysMboxNull) →
    s'.semFree.Perm s.semFree ∧ s'.mboxFree.Perm s.mboxFree ∧
      (∀ i ∈ s'.usedSems, 0 ≤ i ∧ i < nsem) ∧ ∀ i ∈ s'.usedMboxes, 0 ≤ i ∧ i < nmbox

-- There is no mailbox, or what the two semaphores would be does not get `sys_mbox_new` to give back
-- entry -1.
def Served (size : Int) : Prop :=
  32 ≤ size ∨ s.mboxFree = [] ∨
    match s.semFree with
    | [] => True
    | [a] => a = sysSemNull ∨ (s.sems sysSemNull).freed = true
    | a :: b :: _ => a ≠ sysSemNull ∧ b ≠ sysSemNull

variable {s}

theorem Pools.semNew (inv : s.Pools) {count : BitVec 8} {s' : SysArch} {sem : Int}
    (done : s.sysSemNew count = some (s', sem)) : s'.Pools ∧ s'.mboxes = s.mboxes ∧
    s'.mboxFree = s.mboxFree ∧ -1 ≤ sem ∧ sem < nsem := by
  obtain ⟨sems, distinct, mboxes, apart, range, owned⟩ := inv
  unfold sysSemNew at done
  split at done
  · cases done; exact ⟨⟨sems, distinct, mboxes, apart, range, owned⟩, rfl, rfl, by decide, by decide⟩
  next se rest list =>
    rw [list] at sems distinct range
    split at done
    · cases done
      refine ⟨⟨?_, ?_, mboxes, apart, ?_, owned⟩, rfl, rfl, range sem List.mem_cons_self⟩
      all_goals simp only [setSem, update_apply]; grind -linarith
    · cases done

theorem Pools.semFree (inv : s.Pools) {sem : Int} (low : -1 ≤ sem) (high : sem < nsem) {s' : SysArch}
    (done : s.sysSemFree sem = some s') : s'.Pools ∧ s'.mboxes = s.mboxes ∧ s'.mboxFree = s.mboxFree := by
  obtain ⟨sems, distinct, mboxes, apart, range, owned⟩ := inv
  unfold sysSemFree at done
  split at done
  · cases done
  · cases done
    refine ⟨⟨?_, ?_, mboxes, apart, ?_, owned⟩, rfl, rfl⟩
    all_goals simp only [setSem, update_apply]; grind -linarith

theorem Pools.mboxFree (inv : s.Pools) {mbox : Int} (low : 0 ≤ mbox) (high : mbox < nmbox) {s' : SysArch}
    (done : s.sysMboxFree mbox = some s') : s'.Pools := by
  unfold sysMboxFree at done
  split at done
  · cases done
  next free =>
    obtain ⟨first, last⟩ := inv.owned mbox low high (by simpa using free)
    simp only [Option.bind_eq_bind, Option.bind_eq_some_iff, Option.some.injEq] at done
    obtain ⟨s₁, freed, s₂, freed', rfl⟩ := done
    obtain ⟨inv₁, same₁, list₁⟩ := inv.semFree first.1 first.2 freed
    rw [same₁] at freed'
    obtain ⟨⟨sems, distinct, mboxes, apart, range, owned⟩, same₂, list₂⟩ :=
      inv₁.semFree last.1 last.2 freed'
    have own : (s₂.mboxes mbox).freed = false := by rw [same₂, same₁]; simpa using free
    refine ⟨sems, distinct, ?_, ?_, range, ?_⟩
    all_goals simp only [setMbox, update_apply]; grind -linarith

theorem Pools.mboxNew (inv : s.Pools) {size : Int} {s' : SysArch} {mbox : Int}
    (done : s.sysMboxNew size = some (s', mbox)) : s'.Pools := by
  unfold sysMboxNew at done
  split at done
  · cases done
  split at done
  · cases done; exact inv
  next i rest list =>
    split at done
    next free =>
      obtain ⟨⟨-, low, high⟩, others⟩ := List.forall_mem_cons.1 (list ▸ inv.mboxes)
      obtain ⟨new, apart⟩ := List.nodup_cons.1 (list ▸ inv.apart)
      have taken : ({ s with mboxFree := rest } : SysArch).Pools :=
        ⟨inv.sems, inv.distinct, others, apart, inv.range, inv.owned⟩
      simp only [Option.bind_eq_bind, Option.bind_eq_some_iff, Prod.exists] at done
      obtain ⟨s₁, queued, got, s₂, last, got', rest'⟩ := done
      obtain ⟨inv₁, -, list₁, first⟩ := taken.semNew got
      obtain ⟨⟨sems, distinct, mboxes, apart₂, range, owned⟩, -, list₂, second⟩ := inv₁.semNew got'
      have built : (s₂.setMbox i ⟨false, -1, 0, queued, last⟩).Pools := by
        refine ⟨sems, distinct, ?_, apart₂, range, ?_⟩
        all_goals simp only [setMbox, update_apply]; grind -linarith
      split at rest'
      · simp only [Option.bind_eq_some_iff, Option.some.injEq] at rest'
        obtain ⟨s₃, freed, same⟩ := rest'
        cases same
        exact built.mboxFree low high freed
      · cases rest'; exact built
    · cases done

theorem failsCleanly_iff (inv : s.Pools) (size : Int) : s.FailsCleanly size ↔ s.Served size := by
  obtain ⟨sems, distinct, mboxes, -, range, -⟩ := inv
  unfold FailsCleanly Served sysMboxNew
  by_cases big : size < 32
  · simp only [big, not_true_eq_false, if_false, not_le.2 big, false_or]
    cases list : s.mboxFree with
    | nil => simp
    | cons i rest =>
      obtain ⟨⟨free, low, high⟩, -⟩ := List.forall_mem_cons.1 (list ▸ mboxes)
      simp only [free, if_true, sysSemNew, sysMboxFree, sysSemFree, reduceCtorEq, false_or]
      cases semList : s.semFree with
      | nil => by_cases before : (s.sems (-1)).freed = true <;> simp [setMbox, setSem, sysSemNull, before]
      | cons a others =>
        have freeA := sems a (by simp [semList])
        have rangeA := range a (by simp [semList])
        cases others with
        | nil =>
          by_cases null : a = -1
          · subst null
            simp [setMbox, setSem, sysSemNull, freeA]
          · by_cases before : (s.sems (-1)).freed = true <;>
              simp [setMbox, setSem, sysSemNull, sysMboxNull, freeA, null, Ne.symm null, before]
        | cons b others =>
          have freeB := sems b (by simp [semList])
          have rangeB := range b (by simp [semList])
          have differ : a ≠ b := by grind -linarith
          -- Both come back, and one of them is no element of the array.
          by_cases null : a = -1 ∨ b = -1
          · simp [setMbox, setSem, sysSemNull, sysMboxNull, freeA, freeB, differ, differ.symm, null]
            grind -linarith
          · simp [setMbox, setSem, sysSemNull, sysMboxNull, freeA, freeB, differ.symm, null]
            grind -linarith
  · simp [big]; omega

theorem pools_sysInit (sems : Int → SysSemEntry) (mboxes : Int → SysMboxEntry) :
    (sysInit sems mboxes).Pools := by
  have distinct : ∀ n, ((List.range n).reverse.map Int.ofNat).Nodup := fun n =>
    (List.nodup_reverse.2 List.nodup_range).map fun _ _ => Int.ofNat.inj
  refine ⟨?_, distinct 256, ?_, distinct 128, ?_, ?_⟩
  all_goals
    simp only [sysInit, nsem, nmbox, List.mem_map, List.mem_reverse, List.mem_range]
    grind -linarith

theorem sysMboxNew_clean_iff (sems : Int → SysSemEntry) (mboxes : Int → SysMboxEntry)
    {events : List PoolEvent} (run : Run poolStep (fun _ _ => True) (sysInit sems mboxes) events s)
    (size : Int) : s.FailsCleanly size ↔ s.Served size := by
  refine failsCleanly_iff (run.invariant (motive := Pools) (pools_sysInit sems mboxes)
    fun s e t inv _ next => ?_) size
  cases e with
  | semNew count =>
    obtain ⟨⟨_, _⟩, done, rfl⟩ := Option.map_eq_some_iff.1 next
    exact (inv.semNew done).1
  | semFree sem =>
    simp only [poolStep] at next
    split at next
    next range => exact (inv.semFree (by omega) range.2 next).1
    · cases next
  | mboxNew size =>
    obtain ⟨⟨_, _⟩, done, rfl⟩ := Option.map_eq_some_iff.1 next
    exact inv.mboxNew done
  | mboxFree mbox =>
    simp only [poolStep] at next
    split at next
    next range => exact inv.mboxFree range.1 range.2 next
    · cases next

theorem sysMboxNew_clean_last : ∃ s, Run poolStep (fun _ _ => True)
    (sysInit (fun _ => ⟨false, 0, 0⟩) fun _ => ⟨false, 0, 0, 0, 0⟩) (List.replicate 128 (.mboxNew 8)) s ∧
    (s.sysMboxNew 8).any (fun r => r.2 = sysMboxNull) = true ∧ s.FailsCleanly 8 := by
  refine Run.of_exec_imp
    (p := fun s => s.mboxFree = [] ∧ (s.sysMboxNew 8).any (fun r => r.2 = sysMboxNull) = true)
    (by decide +kernel) ?_
  rintro s run ⟨none_, refused⟩
  exact ⟨refused, (sysMboxNew_clean_iff _ _ run 8).2 (.inr (.inl none_))⟩

-- With one semaphore left, entry -1 ends up in the free list.
theorem sysMboxNew_loses : ∃ s, Run poolStep (fun _ _ => True)
    (sysInit (fun _ => ⟨false, 0, 0⟩) fun _ => ⟨false, 0, 0, 0, 0⟩) (List.replicate 255 (.semNew 0)) s ∧
    s.semFree = [0] ∧ (s.sysMboxNew 8).any (fun r => r.2 = sysMboxNull ∧ r.1.semFree = [-1, 0]) = true :=
  Run.of_exec_any (by decide +kernel)

end SysArch

end Jos.Net
