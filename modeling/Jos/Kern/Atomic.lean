import Jos.Kern.Accounts

namespace Jos.Kern

open Jos.Shared

namespace Pmap

variable {vm vm' : Pmap} {g pp : Nat} {va perm : Word}

theorem pageAlloc_out {allocZero : Bool} (returned : vm.pageAlloc allocZero = .ok (vm', none)) :
    vm' = vm := by
  unfold pageAlloc at returned
  split at returned
  · cases returned
    rfl
  · cases allocZero with
    | false => cases returned
    | true =>
      obtain ⟨kva, -, done⟩ := ok_of_bind returned
      cases done

theorem pgdirWalk_out {create : Bool} (returned : vm.pgdirWalk g va create = .ok (vm', none)) :
    vm' = vm := by
  unfold pgdirWalk at returned
  split at returned
  · cases returned
  · split at returned
    · split at returned
      · cases returned
        rfl
      · -- A page table is missing: either there is no page for it, or the walk succeeds.
        obtain ⟨⟨vm₁, page⟩, alloc, done⟩ := ok_of_bind returned
        cases page with
        | none =>
          cases done
          exact pageAlloc_out alloc
        | some newPage =>
          obtain ⟨pageTable, -, found⟩ := ok_of_bind done
          cases found
    · obtain ⟨pageTable, -, found⟩ := ok_of_bind returned
      cases found

theorem pageInsert_out (returned : vm.pageInsert g pp va perm = .ok (vm', false)) : vm' = vm := by
  obtain ⟨⟨vm₁, pte⟩, walk, done⟩ := ok_of_bind returned
  cases pte with
  | none =>
    cases done
    exact pgdirWalk_out walk
  | some pte =>
    dsimp only at done
    split at done
    · cases done
    · split at done
      · obtain ⟨vm₂, -, inserted⟩ := ok_of_bind done
        cases inserted
      · cases done

theorem pageFree_taken {allocZero : Bool} (head : vm.pageFreeList = some pp)
    (returned : (vm.taken pp allocZero).pageFree pp = .ok vm') :
    vm'.pages = vm.pages ∧ vm'.pageFreeList = vm.pageFreeList ∧
    vm'.mem = (vm.taken pp allocZero).mem := by
  have pages : (vm.taken pp allocZero).pages =
      Function.update vm.pages pp { vm.pages pp with ppLink := none } := by
    cases allocZero <;> rfl
  have rest : (vm.taken pp allocZero).pageFreeList = (vm.pages pp).ppLink := by
    cases allocZero <;> rfl
  unfold pageFree at returned
  split at returned
  · cases returned
  · cases returned
    refine ⟨?_, head.symm, rfl⟩
    simp [setPage, pages, rest]

end Pmap

namespace Kernel

open Memory

structure Unchanged (s s' : Kernel) : Prop where
  table : s'.toTable = s.toTable
  pages : s'.vm.pages = s.vm.pages
  pageFreeList : s'.vm.pageFreeList = s.vm.pageFreeList
  pte : s'.memory.pte = s.memory.pte
  mem : ∀ free, Chain (fun p => (s.vm.pages p).ppLink) s.vm.pageFreeList free →
    ∀ p, p ∉ free → s'.vm.mem p = s.vm.mem p

theorem Unchanged.refl (s : Kernel) : s.Unchanged s := ⟨rfl, rfl, rfl, rfl, fun _ _ _ _ => rfl⟩

def Failsafe (s : Kernel) (result : Except Exit (Kernel × Word)) : Prop :=
  Ends result (fun _ => True) fun r => r.2.msb = true → s.Unchanged r.1

variable {s : Kernel} {managed : Nat → Prop}

theorem failsafe_same (s : Kernel) (r : Word) : s.Failsafe (.ok (s, r)) := fun _ => .refl s

theorem failsafe_done (s s' : Kernel) : s.Failsafe (.ok (s', 0)) := fun negative => by simp at negative

theorem failsafe_bind {α : Type} {result : Except Exit α} {next : α → Except Exit (Kernel × Word)}
    (continues : ∀ value, result = .ok value → s.Failsafe (next value)) :
    s.Failsafe (result >>= next) := by
  cases result with
  | ok value => exact continues value rfl
  | error exit => trivial

theorem failsafe_insert {g pp : Nat} {va perm : Word} {next : Kernel × Bool → Except Exit (Kernel × Word)}
    (failed : s.Failsafe (next (s, false))) (done : ∀ vm, s.Failsafe (next ({ s with vm := vm }, true))) :
    s.Failsafe (s.liftVm (s.vm.pageInsert g pp va perm) >>= next) := by
  cases inserted : s.vm.pageInsert g pp va perm with
  | error why => trivial
  | ok r =>
    obtain ⟨vm, mapped⟩ := r
    cases mapped with
    | true => exact done vm
    | false =>
      cases Pmap.pageInsert_out inserted
      exact failed

theorem nextId_positive (old : Word) (e : Slot) : (nextId old e).msb = false := by
  have small : (BitVec.ofNat 32 e.val).msb = false := by
    rw [BitVec.msb_eq_false_iff_two_mul_lt, BitVec.toNat_ofNat]
    omega
  have generation : ∀ x : Word, BitVec.msb (if x.sle 0 then 0x1000 else x) = false := by
    intro x
    split
    · rfl
    next positive =>
      cases sign : x.msb with
      | false => rfl
      | true =>
        have negative := BitVec.toInt_neg_of_msb_true sign
        exact absurd (by simpa [BitVec.sle_eq_decide] using negative.le) positive
  unfold nextId
  rw [BitVec.msb_or, generation, small]
  rfl

theorem envSetupVm_failed {e : Slot} {s' : Kernel} (returned : s.envSetupVm e = .ok (s', false)) :
    s' = s := by
  obtain ⟨⟨s₁, page⟩, alloc, done⟩ := ok_of_bind returned
  cases page with
  | none =>
    cases done
    cases result : s.vm.pageAlloc true with
    | error why =>
      rw [result] at alloc
      cases alloc
    | ok r =>
      obtain ⟨vm, page⟩ := r
      rw [result] at alloc
      cases alloc
      rw [Pmap.pageAlloc_out result]
  | some p =>
    obtain ⟨kva, -, done⟩ := ok_of_bind done
    cases done

theorem sysExofork_failsafe (s : Kernel) (cur : Slot) : s.Failsafe (s.sysExofork cur) := by
  apply failsafe_bind
  intro value allocated
  unfold envAlloc at allocated
  split at allocated
  · cases allocated
    exact failsafe_same s _
  next e head =>
    obtain ⟨⟨s₁, made⟩, setup, rest⟩ := ok_of_bind allocated
    cases made with
    | false =>
      cases rest
      rw [envSetupVm_failed setup]
      exact failsafe_same s _
    | true =>
      cases rest
      -- The call succeeds, with a positive id.
      intro negative
      simp [setTable, Table.setTf, Table.setStatus, Table.setEnv, freshEnv, nextId_positive] at negative

theorem sysEnvSetStatus_failsafe (s : Kernel) (cur : Slot) (envid status : Word) :
    s.Failsafe (.ok (s.sysEnvSetStatus cur envid status)) := by
  unfold sysEnvSetStatus
  split
  · exact failsafe_same s _
  · split
    · exact failsafe_same s _
    · exact failsafe_done s _

theorem sysPageAlloc_failsafe (accounted : s.memory.Accounted managed) (cur : Slot)
    (envid va perm : Word) : s.Failsafe (s.sysPageAlloc cur envid va perm) := by
  obtain ⟨free, inv⟩ := accounted
  have inv : s.vm.Inv s.dirs managed [] free := inv
  unfold sysPageAlloc
  split
  · exact failsafe_same s _
  next e found =>
    split
    · exact failsafe_same s _
    next valid =>
      cases free with
      | nil =>
        rw [liftVm_ok s (Pmap.pageAlloc_nil inv true)]
        exact failsafe_same s _
      | cons p rest =>
        rw [liftVm_ok s (Pmap.pageAlloc_cons inv true)]
        show s.Failsafe (pgdir _ e >>= _)
        apply failsafe_bind
        intro g _
        cases inserted : (s.vm.taken p true).pageInsert g p va perm with
        | error why => trivial
        | ok r =>
          obtain ⟨vm, done⟩ := r
          cases done with
          | true => exact failsafe_done s _
          | false =>
            -- There was a page, but none for the page table: the page goes back.
            cases Pmap.pageInsert_out inserted
            show s.Failsafe (updateVm _ ((s.vm.taken p true).pageFree p) >>= _)
            cases freed : (s.vm.taken p true).pageFree p with
            | error why => trivial
            | ok vm =>
              intro _
              have head : s.vm.pageFreeList = some p := inv.balanced.chain.1
              obtain ⟨pages, list, mem⟩ := Pmap.pageFree_taken head freed
              refine ⟨rfl, pages, list, (Pmap.pte_of_mem_eq mem).trans (Pmap.taken_pte inv true), ?_⟩
              intro free chain q used
              have apart : q ≠ p := by
                rintro rfl
                exact used (chain.unique inv.balanced.chain ▸ List.mem_cons_self)
              exact (congrFun mem q).trans (Pmap.taken_mem_of_ne s.vm true apart)

theorem sysPageMap_failsafe (s : Kernel) (cur : Slot) (srcenvid srcva dstenvid dstva perm : Word) :
    s.Failsafe (s.sysPageMap cur srcenvid srcva dstenvid dstva perm) := by
  unfold sysPageMap
  split
  next src dst _ _ =>
    split
    · exact failsafe_same s _
    · apply failsafe_bind
      intro g _
      apply failsafe_bind
      intro looked _
      split
      · exact failsafe_same s _
      next page pte =>
        split
        · exact failsafe_same s _
        · apply failsafe_bind
          intro g' _
          exact failsafe_insert (failsafe_same s _) fun vm => failsafe_done s _
  · exact failsafe_same s _

theorem sysPageUnmap_failsafe (s : Kernel) (cur : Slot) (envid va : Word) :
    s.Failsafe (s.sysPageUnmap cur envid va) := by
  unfold sysPageUnmap
  split
  · exact failsafe_same s _
  · split
    · exact failsafe_same s _
    · apply failsafe_bind
      intro g _
      apply failsafe_bind
      intro s' _
      exact failsafe_done s s'

theorem sysIpcTrySend_failsafe (s : Kernel) (cur : Slot) (envid value srcva perm : Word) :
    s.Failsafe (s.sysIpcTrySend cur envid value srcva perm) := by
  unfold sysIpcTrySend
  split
  · exact failsafe_same s _
  next e _ =>
    split
    · exact failsafe_same s _
    · split
      · split
        · exact failsafe_same s _
        · apply failsafe_bind
          intro g _
          apply failsafe_bind
          intro looked _
          split
          · exact failsafe_same s _
          next page pte =>
            split
            · exact failsafe_same s _
            · split
              · apply failsafe_bind
                intro g' _
                exact failsafe_insert (failsafe_same s _) fun vm => failsafe_done s _
              · exact failsafe_done s _
      · exact failsafe_done s _

theorem sysIpcRecv_failsafe (s : Kernel) (c : Nat) (cur : Slot) (dstva : Word) :
    s.Failsafe (s.sysIpcRecv c cur dstva) := by
  unfold sysIpcRecv
  split
  · exact failsafe_same s _
  · trivial

def memoryCalls : List SyscallNo :=
  [.exofork, .envSetStatus, .pageAlloc, .pageMap, .pageUnmap, .ipcTrySend, .ipcRecv]

theorem syscall_failsafe {call : SyscallNo} (member : call ∈ memoryCalls)
    (accounted : s.memory.Accounted managed) {no : Word} (number : syscalls[no.toNat]? = some call)
    (c : Nat) (cur : Slot) (hw : Inputs) (a : Args) : s.Failsafe (s.syscall c cur hw no a) := by
  unfold syscall
  rw [number]
  simp only [memoryCalls, List.mem_cons, List.not_mem_nil, or_false] at member
  rcases member with rfl | rfl | rfl | rfl | rfl | rfl | rfl
  · exact sysExofork_failsafe s cur
  · exact sysEnvSetStatus_failsafe s cur _ _
  · exact sysPageAlloc_failsafe accounted cur _ _ _
  · exact sysPageMap_failsafe s cur _ _ _ _ _
  · exact sysPageUnmap_failsafe s cur _ _
  · exact sysIpcTrySend_failsafe s cur _ _ _ _
  · exact sysIpcRecv_failsafe s c cur _

theorem failed_calls_change_nothing {call : SyscallNo} {no : Word} {c : Nat} {cur : Slot}
    {hw : Inputs} {a : Args} {s' : Kernel} {r : Word} (accounted : s.memory.Accounted managed)
    (member : call ∈ memoryCalls) (number : syscalls[no.toNat]? = some call)
    (returned : s.syscall c cur hw no a = .ok (s', r)) (negative : r.msb = true) :
    s.Unchanged s' := by
  have failsafe := syscall_failsafe member accounted number c cur hw a
  rw [returned] at failsafe
  exact failsafe negative

section Demo

def smallDemo : Kernel := { demo with vm := { demoPmap with pageFreeList := some 1022 } }

theorem smallDemo_booted : smallDemo.Booted [1022, 1023] where
  table := rfl
  helpers := ⟨rfl, rfl⟩
  trace := rfl
  vm :=
    { chain := ⟨rfl, rfl, rfl⟩
      unused := by decide
      bound := by decide
      size := by decide
      pse := rfl
      kernOutside := by decide
      kernEmpty := demo_booted.vm.kernEmpty }

def returnValue (result : Except Exit (Kernel × Word)) : Option Word := result.toOption.map Prod.snd

theorem failed_page_alloc_changes_nothing : ∃ s s' : Kernel, s.memory.Accounted (· ∈ [1022, 1023]) ∧
    s.vm.pageFreeList = some 1023 ∧
    s.syscall 0 0 idleInputs 4 ⟨0, 0x400000, 7, 0, 0⟩ = .ok (s', Errno.noMem.code) ∧ s.Unchanged s' := by
  have evaluated : ((Op.envAlloc 0).next smallDemo).any (fun s => s.vm.pageFreeList = some 1023 ∧
      returnValue (s.syscall 0 0 idleInputs 4 ⟨0, 0x400000, 7, 0, 0⟩) = some Errno.noMem.code) =
        true := by
    decide +kernel
  obtain ⟨s, next, checked⟩ := Option.any_eq_true _ _ |>.mp evaluated
  obtain ⟨list, value⟩ := of_decide_eq_true checked
  have sound := smallDemo_booted.sound
  have accounted := (Op.step_accounted sound.ready sound.ok next).2.1
  cases returned : s.syscall 0 0 idleInputs 4 ⟨0, 0x400000, 7, 0, 0⟩ with
  | error exit =>
    rw [returned] at value
    cases value
  | ok result =>
    obtain ⟨s', r⟩ := result
    rw [returned] at value
    cases value
    exact ⟨s, s', accounted, list, returned,
      failed_calls_change_nothing accounted (by decide) (show syscalls[_]? = some .pageAlloc
        from rfl) returned (by decide)⟩

end Demo

end Kernel

end Jos.Kern
