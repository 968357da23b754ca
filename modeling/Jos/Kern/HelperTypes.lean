import Jos.Kern.EnvIds

namespace Jos.Kern

open Jos.Shared
open Function

inductive TypeEvent where
  | envAlloc (parentId : Word)
  | envFree (e : Slot)
  | sysEnvSetType (cur : Slot) (type : Word)

namespace Kernel

variable {s s' : Kernel} {e : Slot} {type : EnvType}

def typeStep (s : Kernel) : TypeEvent → Option Kernel
  | .envAlloc parentId => (s.envAlloc parentId).toOption.map Prod.fst
  | .envFree e => (s.envFree e).toOption
  -- A system call is made by an environment.
  | .sysEnvSetType cur type => if s.status cur = .free then none else some (s.sysEnvSetType cur type).1

def IsHelper (type : EnvType) : Prop := type = .outNs ∨ type = .inNs

instance : Decidable (IsHelper type) := inferInstanceAs (Decidable (_ ∨ _))

def Live (s : Kernel) (type : EnvType) (e : Slot) : Prop := s.status e ≠ .free ∧ (s.envs e).envType = type

instance (s : Kernel) (e : Slot) : Decidable (s.Live type e) := inferInstanceAs (Decidable (_ ∧ _))

structure HelperFollows (s : Kernel) (type : EnvType) : Prop where
  set : ∀ cur arg, typeArg arg = some type → ((s.sysEnvSetType cur arg).2 = 0 ↔ ∀ e, ¬ s.Live type e)
  found : ∀ e, s.Live type e → s.envFindByType type = e.val
  absent : (∀ e, ¬ s.Live type e) → s.envFindByType type = -1

def KeepsHelpers (s : Kernel) : TypeEvent → Prop
  | .envFree e => ¬ IsHelper (s.envs e).envType
  | _ => True

instance (s : Kernel) (ev : TypeEvent) : Decidable (s.KeepsHelpers ev) :=
  match ev with
  | .envFree _ => inferInstanceAs (Decidable (¬ _))
  | .envAlloc _ | .sysEnvSetType _ _ => .isTrue trivial

def OneEach (s : Kernel) : Prop :=
  ∀ e e', IsHelper (s.envs e).envType → (s.envs e').envType = (s.envs e).envType → e' = e

def NoneFree (s : Kernel) : Prop := ∀ e, s.status e = .free → ¬ IsHelper (s.envs e).envType

theorem envFindByType_some (helper : IsHelper type) (one : s.OneEach) (here : (s.envs e).envType = type) :
    s.envFindByType type = e.val := by
  have found : slots.find? (fun i => decide ((s.envs i).envType = type)) = some e := by
    cases search : slots.find? fun i => decide ((s.envs i).envType = type) with
    | none =>
      have missed := List.find?_eq_none.mp search e (mem_slots e)
      simp [here] at missed
    | some i =>
      have same : (s.envs i).envType = type := by simpa using List.find?_some search
      rw [one e i (here ▸ helper) (same.trans here.symm)]
  unfold envFindByType
  rw [if_neg (by grind [IsHelper]), found]

theorem envFindByType_none (absent : ∀ e, (s.envs e).envType ≠ type) : s.envFindByType type = -1 := by
  have none_ : slots.find? (fun i => decide ((s.envs i).envType = type)) = none :=
    List.find?_eq_none.mpr fun i _ => by simpa using absent i
  unfold envFindByType
  rw [none_, ite_self]

theorem sysEnvSetType_ok_iff {cur : Slot} {arg : Word} (asked : typeArg arg = some type) :
    (s.sysEnvSetType cur arg).2 = 0 ↔ ∀ e, (s.envs e).envType ≠ type := by
  have refused : Errno.badEnv.code ≠ 0 := by decide
  have all : (slots.any fun i => decide ((s.envs i).envType = type)) = true ↔
    ∃ e, (s.envs e).envType = type := by
    simp [List.any_eq_true, mem_slots]
  simp only [sysEnvSetType, asked]
  grind

theorem helperFollows_iff (one : s.OneEach) : s.HelperFollows .outNs ∧ s.HelperFollows .inNs ↔
    s.NoneFree := by
  have alone : ∀ {type}, IsHelper type →
    (s.HelperFollows type ↔ ∀ e, s.status e = .free → (s.envs e).envType ≠ type) := by
    intro type helper
    constructor
    · intro follows e free here
      -- Nobody else has the type, so the search should have failed.
      have absent :=
        follows.absent fun e' ⟨live, same⟩ =>
        live (one e e' (here ▸ helper) (same.trans here.symm) ▸ free)
      rw [envFindByType_some helper one here] at absent
      omega
    · intro clean
      refine ⟨fun cur arg asked => ?_, fun e live => envFindByType_some helper one live.2,
        fun absent => ?_⟩
      · rw [sysEnvSetType_ok_iff asked]
        exact forall_congr' fun e =>
          ⟨fun other live => other live.2,
          fun none_ here => none_ ⟨fun free => clean e free here, here⟩⟩
      · exact envFindByType_none fun e here => absent e ⟨fun free => clean e free here, here⟩
  rw [alone (.inl rfl), alone (.inr rfl)]
  grind [NoneFree, IsHelper]

theorem typeStep_cases {ev : TypeEvent} (next : s.typeStep ev = some s') :
    (s'.toTable = s.toTable ∧ s.KeepsHelpers ev) ∨
    (∃ e, ev = .envFree e ∧ s'.toTable = s.release e) ∨
    (∃ e g parentId,
    s'.toTable = s.take e (freshEnv { s.envs e with envPgdir := some g } e parentId) ∧
    s.KeepsHelpers ev) ∨ ∃ cur type, s.status cur ≠ .free ∧ (∀ e, (s.envs e).envType ≠ type) ∧
      s'.toTable = s.setEnv cur { s.envs cur with envType := type } ∧ s.KeepsHelpers ev := by
  cases ev with
  | envAlloc parentId =>
    have effect := envAlloc_table (E := Exit.Lands fun _ => True) s parentId
    simp only [typeStep] at next
    cases done : s.envAlloc parentId with
    | error exit => simp [done, Except.toOption] at next
    | ok result =>
      rw [done] at next effect
      obtain rfl : result.1 = s' := Option.some.inj next
      obtain ⟨-, -, same⟩ | ⟨e, g, -, -, table⟩ := effect
      · exact .inl ⟨same, trivial⟩
      · exact .inr (.inr (.inl ⟨e, g, parentId, table, trivial⟩))
  | envFree e =>
    have effect := envFree_table (E := Exit.Lands fun _ => True) s e
    simp only [typeStep] at next
    cases done : s.envFree e with
    | error exit => simp [done, Except.toOption] at next
    | ok t =>
      rw [done] at next effect
      obtain rfl : t = s' := Option.some.inj next
      exact .inr (.inl ⟨e, rfl, effect.2⟩)
  | sysEnvSetType cur arg =>
    simp only [typeStep, sysEnvSetType] at next
    split at next
    · cases next
    next live =>
      obtain rfl := Option.some.inj next
      split
      · exact .inl ⟨rfl, trivial⟩
      next type _ =>
        split
        · exact .inl ⟨rfl, trivial⟩
        next absent =>
          refine .inr (.inr (.inr ⟨cur, type, live, fun e here => absent ?_, rfl, trivial⟩))
          exact List.any_eq_true.mpr ⟨e, mem_slots e, by simpa using here⟩

theorem typeStep_keeps {ev : TypeEvent} (one : s.OneEach) (clean : s.NoneFree)
    (next : s.typeStep ev = some s') : s'.OneEach ∧ (s'.NoneFree ↔ s.KeepsHelpers ev) := by
  unfold OneEach NoneFree Table.status at *
  obtain ⟨same, kept⟩ | ⟨e, rfl, table⟩ | ⟨e, g, parentId, table, kept⟩ |
    ⟨cur, type, live, absent, table, kept⟩ :=
    typeStep_cases next
  · rw [same]
    exact ⟨one, iff_of_true clean kept⟩
  · simp only [table, Table.release, Table.setEnv, update_apply, KeepsHelpers]
    grind
  · simp only [table, Table.take, Table.setEnv, freshEnv, update_apply]
    refine ⟨?_, iff_of_true ?_ kept⟩ <;> grind [IsHelper]
  · simp only [table, Table.setEnv, update_apply]
    refine ⟨?_, iff_of_true ?_ kept⟩ <;> grind [Table.status]

theorem helpers_follow_iff {s₀ : Kernel} {free : List Nat} {events : List TypeEvent}
    (booted : s₀.Booted free) (run : Run typeStep KeepsHelpers s₀ events s) :
    (s.HelperFollows .outNs ∧ s.HelperFollows .inNs) ∧
      ∀ ev s', s.typeStep ev = some s' →
      (s'.HelperFollows .outNs ∧ s'.HelperFollows .inNs ↔ s.KeepsHelpers ev) := by
  have start : ∀ e, (s₀.envs e).envType = .user := by
    intro e
    rw [booted.table]
    by_cases next : e.val + 1 < 1024 <;> simp [bootTable, envInit, next, zeroEnv]
  obtain ⟨one, clean⟩ : s.OneEach ∧ s.NoneFree := by
    refine run.invariant
      (motive := fun s => s.OneEach ∧ s.NoneFree) ⟨?_, ?_⟩ fun _ _ _ both kept next => ?_
    · grind [OneEach, IsHelper]
    · grind [NoneFree, IsHelper]
    · exact (typeStep_keeps both.1 both.2 next).imp_right fun iff_ => iff_.mpr kept
  refine ⟨(helperFollows_iff one).mpr clean, fun ev s' next => ?_⟩
  obtain ⟨one', kept⟩ := typeStep_keeps one clean next
  exact (helperFollows_iff one').trans kept

theorem helpers_follow_two : ∃ s, Run typeStep KeepsHelpers demo
    [.envAlloc 0, .envAlloc 0, .sysEnvSetType 0 3, .sysEnvSetType 1 4] s ∧ s.Live .inNs 1 ∧
    s.envFindByType .inNs = 1 := by
  refine Run.of_exec_imp (p := fun s => s.Live .inNs 1) (by decide +kernel) fun s run live => ?_
  exact ⟨live, (helpers_follow_iff demo_booted run).1.2.found 1 live⟩

-- After the output helper has been freed, its slot is still found, and no other can take its place.
theorem helper_type_survives : ∃ s, Run typeStep (fun _ _ => True) demo
    [.envAlloc 0, .envAlloc 0, .sysEnvSetType 0 3, .envFree 0] s ∧ (∀ e, ¬ s.Live .outNs e) ∧
      s.envFindByType .outNs = 0 ∧ (s.sysEnvSetType 1 3).2 = Errno.badEnv.code :=
  Run.of_exec_any (by decide +kernel)

end Kernel

end Jos.Kern
