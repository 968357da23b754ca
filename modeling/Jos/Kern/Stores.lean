import Jos.Kern.Effects

namespace Jos.Kern

open Jos.Shared

namespace Pmap

variable {I : Type} {vm : Pmap} {dir : I → Option Nat} {i : I} {g p : Nat} {va : Word}

theorem translate_leaf {write user : Bool} (own : dir i = some g) (below : va < utop)
    (reached : vm.translate g va write user = some p) :
    pteTarget (vm.pte dir i (pdx va) (ptx va)) = some p := by
  unfold translate at reached
  dsimp only at reached
  split at reached
  next allowed =>
    simp only [permits, Bool.and_eq_true, decide_eq_true_eq] at allowed
    have found : vm.table dir i (pdx va) = some (pgnum (vm.mem g (pdx va))) := by
      rw [table_eq (pdx_lt_npdUser below) own]
      exact pteTarget_eq_some.mpr ⟨allowed.1.1.1, rfl⟩
    rw [pte_of_table found]
    exact pteTarget_eq_some.mpr ⟨allowed.2.1.1, Option.some.inj reached⟩
  · cases reached

section Data

variable (data : ∀ site : Site I, site.IsNode → vm.target dir site ≠ some p) (t : Index) (word : Word)

include data

-- A page that is neither a directory nor a page table may hold anything.
theorem table_store_data : (vm.store (p, t) word).table dir = vm.table dir := by
  funext j d
  refine table_congr fun g' own => ?_
  rw [mem_store_of_ne]
  rintro rfl
  exact data (.dir j) trivial own

theorem pte_store_data : (vm.store (p, t) word).pte dir = vm.pte dir := by
  funext j d u
  refine pte_congr (by rw [table_store_data data]) fun pt found => ?_
  rw [mem_store_of_ne]
  rintro rfl
  exact data (.table j d) trivial found

theorem target_store_data : (vm.store (p, t) word).target dir = vm.target dir :=
  target_congr (fun j d => by rw [table_store_data data]) fun j d u => by rw [pte_store_data data]

theorem store_data_inv [Fintype I] {managed : Nat → Prop} {held free : List Nat}
    (inv : vm.Inv dir managed held free) (member : managed p) :
    (vm.store (p, t) word).Inv dir managed held free := by
  have targets := target_store_data data t word
  refine inv.transfer (Same.store vm member word) ?_ ?_
  · rw [targets]
    exact inv.balanced
  · rw [Owned, targets]
    exact inv.owned

end Data

end Pmap

namespace Memory

variable {managed : Nat → Prop} {allowed : Memory → Edit → Prop} {m : Memory} {i : Slot}
  {g p : Nat} {va : Word}

theorem poke_edited {write user : Bool} (ready : m.Accounted managed ∧ m.Bounded) (own : m.dir i = some g)
    (below : va < utop) (reached : m.vm.translate g va write user = some p) (value : Byte) :
    Edited managed .keep m ⟨m.vm.pokeByte p va value, m.dir⟩ := by
  obtain ⟨⟨free, inv⟩, bounded⟩ := ready
  have refers : m.vm.target m.dir (.leaf i (pdx va) (ptx va)) = some p :=
    Pmap.translate_leaf own below reached
  have data := inv.leaf_data (show pteTarget (m.vm.pte m.dir i (pdx va) (ptx va)) = some p from refers)
  refine ⟨⟨⟨free, inv⟩, bounded⟩,
    ⟨free, Pmap.store_data_inv data _ _ inv (inv.target_managed refers)⟩, rfl,
    Pmap.pte_store_data data _ _, fun q => ?_⟩
  exact congrArg (Shared.refs · q) (Pmap.target_store_data data _ _)

theorem storeBytes_moves {bytes : List Byte} (ready : m.Accounted managed ∧ m.Bounded)
    (own : m.dir i = some g) (below : va.toNat + bytes.length ≤ utop.toNat)
    (keeps : ∀ a, allowed a .keep) : Ends (m.vm.storeBytes g va bytes) (fun _ => True) fun vm' =>
      Moves managed allowed m ⟨vm', m.dir⟩ ∧ Accounted managed ⟨vm', m.dir⟩ ∧ Bounded ⟨vm', m.dir⟩ := by
  refine Ends.foldlM _ ⟨.refl m, ready⟩ fun vm' pair member ⟨moves, ready'⟩ => ?_
  have index : pair.2 < bytes.length := by
    have bound := (List.mem_zipIdx member).2.1
    omega
  have inside : va + BitVec.ofNat 32 pair.2 < utop := by
    have top : utop.toNat = 0xEEC00000 := rfl
    rw [BitVec.lt_def, BitVec.toNat_add, BitVec.toNat_ofNat,
      Nat.mod_eq_of_lt (show pair.2 < 2 ^ 32 by omega), Nat.mod_eq_of_lt (by omega)]
    omega
  unfold Pmap.storeByte
  split
  · trivial
  next p reached =>
    have edited := poke_edited (m := ⟨vm', m.dir⟩) ready' own inside reached pair.1
    exact ⟨moves.trans (.one (keeps _) edited), edited.ready_after rfl⟩

end Memory

end Jos.Kern
