import Jos.Kern.Memory
import Jos.Kern.EnvTable

namespace Jos.Kern

open Jos.Shared

def zeroEnv : Env where
  envTf := .zero
  envLink := none
  envId := 0
  envParentId := 0
  envType := .user
  envStatus := .free
  envRuns := 0
  envCpunum := 0
  envPgdir := none
  envPgfaultUpcall := 0
  envIpcRecving := false
  envIpcDstva := 0
  envIpcValue := 0
  envIpcFrom := 0
  envIpcPerm := 0
  envPriority := 0

def envInit (envs : Slot → Env) : Slot → Env := fun i =>
  if next : i.val + 1 < 1024 then
    { envs i with envStatus := .free, envId := 0, envLink := some ⟨i.val + 1, next⟩ }
  else
    { envs i with envLink := none, envId := 0 }

def bootTable (ncpu : Nat) : Table where
  envs := envInit fun _ => zeroEnv
  envFreeList := some ⟨0, by decide⟩
  ncpu := ncpu
  cpus := fun _ => ⟨.unused, none⟩
  kernelLock := none

structure Pmap.Booted (vm : Pmap) (free : List Nat) : Prop where
  chain : Chain (fun p => (vm.pages p).ppLink) vm.pageFreeList free
  unused : ∀ p ∈ free, (vm.pages p).ppRef = 0
  bound : ∀ p ∈ free, p < vm.npages
  size : vm.npages ≤ 2 ^ 20
  pse : vm.pseSupport = 0
  kernOutside : vm.kernPgdir ∉ free
  kernEmpty : ∀ d : Index, d.val < npdUser → vm.mem vm.kernPgdir d = 0

structure Kernel.Booted (s : Kernel) (free : List Nat) : Prop where
  table : s.toTable = bootTable s.ncpu
  helpers : s.nic.outNs = 0 ∧ s.nic.inNs = 0
  trace : s.trace = []
  vm : s.vm.Booted free

theorem bootTable_env (ncpu : Nat) (e : Slot) :
    ((bootTable ncpu).envs e).envStatus = .free ∧ ((bootTable ncpu).envs e).envPgdir = none := by
  by_cases next : e.val + 1 < 1024 <;> simp [bootTable, envInit, next, zeroEnv]

theorem bootTable_ok (ncpu : Nat) : (bootTable ncpu).Ok := by
  have links : ∀ i : Slot, ((bootTable ncpu).envs i).envLink =
      if inside : i.val + 1 < 1024 then some ⟨i.val + 1, inside⟩ else none := by
    intro i
    by_cases next : i.val + 1 < 1024 <;> simp [bootTable, envInit, next]
  have head : (bootTable ncpu).envFreeList = some ⟨0, by decide⟩ := rfl
  have chain := Chain.of_finRange (by decide) slots links (by unfold slots; rfl)
  rw [← head] at chain
  refine ⟨⟨slots, chain, fun e => ?_⟩, fun e => ?_⟩
  · simp [Table.status, bootTable_env, mem_slots]
  · simp [Table.status, bootTable_env]

theorem bootTable_listed (ncpu : Nat) : (bootTable ncpu).Listed := by
  obtain ⟨⟨free, chain, -⟩, -⟩ := bootTable_ok ncpu
  exact ⟨free, chain, fun e _ => (bootTable_env ncpu e).2⟩

variable {s : Kernel} {free : List Nat}

theorem Kernel.Booted.target (booted : s.Booted free) (site : Site Slot) :
    s.vm.target s.dirs site = none := by
  have empty : ∀ e, s.dirs e = none := by
    intro e
    rw [Table.dirs, booted.table]
    exact (bootTable_env s.ncpu e).2
  rcases site with e | ⟨e, d⟩ | ⟨e, d, t⟩
  · exact empty e
  · simp [Pmap.target, Pmap.table, empty]
  · simp [Pmap.target, Pmap.pte, Pmap.table, empty]

theorem Kernel.Booted.refs (booted : s.Booted free) (p : Nat) : Shared.refs (s.vm.target s.dirs) p = 0 :=
  refs_eq_zero.mpr fun site => by simp [booted.target]

theorem Kernel.Booted.inv (booted : s.Booted free) :
    s.vm.Inv s.dirs (· ∈ free) [] free := by
  refine ⟨⟨booted.vm.chain, fun _ => id, ?_, ?_, ?_, ?_⟩, ?_, booted.vm.bound, booted.vm.size, ?_,
    booted.vm.kernOutside, booted.vm.kernEmpty⟩
  · exact fun p member => by simp [booted.refs, member]
  · exact fun p member => by
      rw [booted.refs]
      exact booted.vm.unused p member
  · exact fun p member absent => absurd member absent
  · exact fun site p refers => by simp [booted.target] at refers
  · exact fun x y p _ refers => by simp [booted.target] at refers
  · rw [booted.vm.pse]
    decide

section Demo

def demoPmap : Pmap where
  npages := 1024
  pseSupport := 0
  kernPgdir := 1
  pages := fun p =>
    if 128 ≤ p ∧ p < 1024 then ⟨if p + 1 < 1024 then some (p + 1) else none, 0⟩ else ⟨none, 1⟩
  pageFreeList := some 128
  mem := fun p t =>
    if p = 1 then if 960 ≤ t.val then entry (t.val - 958) pteW else 0
    else if 2 ≤ p ∧ p < 66 then entry ((p - 2) * 1024 + t.val) pteW
    else 0

def demo : Kernel where
  toTable := bootTable 2
  vm := demoPmap
  nic :=
    { txDescPool := fun _ => ⟨0, 0, true⟩
      tdt := 0
      rxDescPool := fun _ => ⟨0, false⟩
      rdt := 127
      recHeadIndex := 0
      e1000Mac := fun _ => 0
      outNs := 0
      inNs := 0 }
  trace := []

@[irreducible]
def demoFree : List Nat := List.range' 128 896

theorem mem_demoFree {p : Nat} : p ∈ demoFree ↔ 128 ≤ p ∧ p < 1024 := by
  unfold demoFree
  rw [List.mem_range'_1]

theorem demo_booted : demo.Booted demoFree where
  table := rfl
  helpers := ⟨rfl, rfl⟩
  trace := rfl
  vm :=
    { chain := by
        have linked : ∀ p, 128 ≤ p → p < 128 + 896 →
            (demoPmap.pages p).ppLink = if p + 1 < 128 + 896 then some (p + 1) else none := by
          intro p low high
          simp [demoPmap, show 128 ≤ p ∧ p < 1024 from ⟨low, high⟩]
        exact Chain.of_range' (by decide) linked (by unfold demoFree; rfl)
      unused := by
        intro p member
        rw [mem_demoFree] at member
        simp [demo, demoPmap, member]
      bound := fun p member => (mem_demoFree.mp member).2
      size := by decide
      pse := rfl
      kernOutside := fun member => absurd (mem_demoFree.mp member).1 (by decide)
      kernEmpty := by
        intro d user
        have below : ¬960 ≤ d.val := by
          unfold npdUser at user
          omega
        simp [demo, demoPmap, below] }

def userFrame (trapno eax edx ecx ebx edi : Word) : Trapframe where
  tfRegs := ⟨edi, 0, 0, 0, ebx, edx, ecx, eax⟩
  tfEs := gdUD ||| 3
  tfDs := gdUD ||| 3
  tfTrapno := trapno
  tfErr := 0
  tfEip := 0x800020
  tfCs := gdUT ||| 3
  tfEflags := flIF
  tfEsp := ustacktop
  tfSs := gdUD ||| 3

def callFrame (no a1 a2 a3 a4 : Word) : Trapframe := userFrame 48 no a1 a2 a3 a4

def idleInputs : Inputs := ⟨0, 0, 0, 0, none⟩

def sys (c : Nat) (no a1 a2 a3 a4 : Word) : Event := .trap c (callFrame no a1 a2 a3 a4) idleInputs

def twoRunning : List Event := [.create .user [] 0x800020, .create .user [] 0x800020, .start 0, .start 1]

end Demo

end Jos.Kern
