import Jos.Kern.Directory
import Jos.Kern.Teardown
import Jos.Kern.Env

namespace Jos.Kern

open Jos.Shared
open Function

structure Memory where
  vm : Pmap
  dir : Slot → Option Nat

namespace Memory

def pte (m : Memory) : Slot → Index → Index → Word := m.vm.pte m.dir

def refs (m : Memory) (p : Nat) : Nat := Shared.refs (m.vm.target m.dir) p

def Accounted (managed : Nat → Prop) (m : Memory) : Prop := ∃ free, m.vm.Inv m.dir managed [] free

def Bounded (m : Memory) : Prop := ∀ p, m.refs p < 2 ^ 16

end Memory

inductive Edit where
  | keep
  | fresh (i : Slot) (d t : Index) (pp : Nat) (perm : Word)
  | copy (i : Slot) (d t : Index) (pp : Nat) (perm : Word) (j : Slot) (e u : Index)
  | unmap (i : Slot) (d t : Index)
  | attach (i : Slot) (g : Nat)
  | close (i : Slot)

namespace Edit

def space : Edit → Option Slot
  | .keep => none
  | .fresh i _ _ _ _ | .copy i _ _ _ _ _ _ _ | .unmap i _ _ | .attach i _ | .close i => some i

def isCopy : Edit → Bool
  | .copy _ _ _ _ _ _ _ _ => true
  | _ => false

structure Maps (i : Slot) (d t : Index) (pp : Nat) (perm : Word) (a b : Memory) : Prop where
  dir : b.dir = a.dir
  pte : ∀ j e u, b.pte j e u = if j = i ∧ e = d ∧ u = t then entry pp perm else a.pte j e u
  target : pteTarget (entry pp perm) = some pp
  refs : ∀ q, b.refs q ≤ if q = pp ∧ pteTarget (a.pte i d t) ≠ some pp then a.refs q + 1
    else max 1 (a.refs q)

def Does (a b : Memory) : Edit → Prop
  | .keep => b.dir = a.dir ∧ b.pte = a.pte ∧ ∀ q, b.refs q = a.refs q
  | .fresh i d t pp perm => a.refs pp = 0 ∧ Maps i d t pp perm a b
  | .copy i d t pp perm j e u => pteTarget (a.pte j e u) = some pp ∧
      (perm &&& pteW ≠ 0 → a.pte j e u &&& pteW ≠ 0) ∧ Maps i d t pp perm a b
  | .unmap i d t => b.dir = a.dir ∧ pteTarget (b.pte i d t) = none ∧
      (∀ j e u, ¬(j = i ∧ e = d ∧ u = t) → b.pte j e u = a.pte j e u) ∧ ∀ q, b.refs q ≤ a.refs q
  | .attach i g => a.dir i = none ∧ b.dir = update a.dir i (some g) ∧ b.pte = a.pte ∧
      ∀ q, b.refs q ≤ max 1 (a.refs q)
  | .close i => b.dir = update a.dir i none ∧ (∀ d t, b.pte i d t = 0) ∧
      (∀ j, j ≠ i → b.pte j = a.pte j) ∧ ∀ q, b.refs q ≤ a.refs q

variable {a b : Memory} {edit : Edit}

theorem Does.pte_other (does : edit.Does a b) {j : Slot} (other : edit.space ≠ some j) :
    b.pte j = a.pte j := by
  have apart : ∀ i, some i ≠ some j → j ≠ i := fun i ne same => ne (congrArg some same.symm)
  cases edit with
  | keep => exact congrFun does.2.1 j
  | fresh i d t pp perm =>
    funext e u
    rw [does.2.pte, if_neg fun here => apart i other here.1]
  | copy i d t pp perm =>
    funext e u
    rw [does.2.2.pte, if_neg fun here => apart i other here.1]
  | unmap i d t =>
    funext e u
    exact does.2.2.1 j e u fun here => apart i other here.1
  | attach i g => exact congrFun does.2.2.1 j
  | close i => exact does.2.2.1 j (apart i other)

theorem Does.refs_le (does : edit.Does a b) (q : Nat)
    (room : ∀ i d t pp perm j e u, edit = .copy i d t pp perm j e u → q = pp →
    pteTarget (a.pte i d t) = some pp) : b.refs q ≤ max 1 (a.refs q) := by
  cases edit with
  | keep => exact (does.2.2 q).le.trans (le_max_right _ _)
  | fresh i d t pp perm =>
    refine (does.2.refs q).trans ?_
    split
    next here => rw [here.1, does.1]; exact le_max_left _ _
    · exact le_refl _
  | copy i d t pp perm j e u =>
    refine (does.2.2.refs q).trans ?_
    rw [if_neg fun here => here.2 (room i d t pp perm j e u rfl here.1)]
  | unmap i d t => exact (does.2.2.2 q).trans (le_max_right _ _)
  | attach i g => exact does.2.2.2 q
  | close i => exact (does.2.2.2 q).trans (le_max_right _ _)

end Edit

namespace Memory

structure Edited (managed : Nat → Prop) (edit : Edit) (a b : Memory) : Prop where
  ready : a.Accounted managed ∧ a.Bounded
  accounted : b.Accounted managed
  does : edit.Does a b

def Moves (managed : Nat → Prop) (allowed : Memory → Edit → Prop) : Memory → Memory → Prop :=
  Relation.ReflTransGen fun a b => ∃ edit, allowed a edit ∧ Edited managed edit a b

variable {managed : Nat → Prop} {allowed allowed' : Memory → Edit → Prop} {a b c : Memory} {edit : Edit}

theorem Edited.bounded (edited : Edited managed edit a b) (fresh : edit.isCopy = false) : b.Bounded := by
  intro q
  have before := edited.ready.2 q
  have after := edited.does.refs_le q (by rintro i d t pp perm j e u rfl; cases fresh)
  omega

theorem Edited.ready_after (edited : Edited managed edit a b) (fresh : edit.isCopy = false) :
    b.Accounted managed ∧ b.Bounded :=
  ⟨edited.accounted, edited.bounded fresh⟩

namespace Moves

theorem refl (a : Memory) : Moves managed allowed a a := Relation.ReflTransGen.refl

theorem one (ok : allowed a edit) (edited : Edited managed edit a b) : Moves managed allowed a b :=
  Relation.ReflTransGen.single ⟨edit, ok, edited⟩

theorem trans (first : Moves managed allowed a b) (second : Moves managed allowed b c) :
    Moves managed allowed a c :=
  Relation.ReflTransGen.trans first second

theorem invariant {motive : Memory → Prop} (moves : Moves managed allowed a b) (start : motive a)
    (keep : ∀ a b edit, motive a → allowed a edit → Edited managed edit a b → motive b) : motive b := by
  induction moves with
  | refl => exact start
  | tail _ last ih =>
    obtain ⟨edit, ok, edited⟩ := last
    exact keep _ _ edit ih ok edited

theorem accounted (moves : Moves managed allowed a b) (start : a.Accounted managed) :
    b.Accounted managed :=
  moves.invariant start fun _ _ _ _ _ edited => edited.accounted

end Moves

section Pages

variable {vm : Pmap} {dir : Slot → Option Nat} {rest : List Nat} {i : Slot} {g p : Nat} {va perm : Word}

theorem attach_edited (inv : vm.Inv dir managed [] (p :: rest)) (bounded : Bounded ⟨vm, dir⟩)
    (vacant : dir i = none) :
    Edited managed (.attach i p) ⟨vm, dir⟩ ⟨vm.withDir p, update dir i (some p)⟩ := by
  refine ⟨⟨⟨_, inv⟩, bounded⟩, ⟨rest, Pmap.withDir_inv inv vacant⟩, vacant, rfl,
    Pmap.withDir_pte inv vacant, fun q => ?_⟩
  have grown := refs_attach (show vm.target dir (.dir i) = none from vacant) p q
  have none : Shared.refs (vm.target dir) p = 0 := inv.balanced.free_refs List.mem_cons_self
  show Shared.refs ((vm.withDir p).target _) q ≤ max 1 (Shared.refs (vm.target dir) q)
  rw [Pmap.withDir_target inv vacant, grown]
  by_cases same : q = p
  · subst same
    rw [if_pos rfl]
    omega
  · rw [if_neg same]
    omega

theorem close_edited {m : Memory} (ready : m.Accounted managed ∧ m.Bounded) (own : m.dir i = some g) :
    ∃ vm', m.vm.freeSpace g = .ok vm' ∧
      Edited managed (.close i) m ⟨vm', update m.dir i none⟩ := by
  obtain ⟨⟨free, inv⟩, bounded⟩ := ready
  obtain ⟨vm₁, free₁, emptied, inv₁, shrunk, empty⟩ := Pmap.freeUser_ok inv own bounded
  obtain ⟨vm₂, free₂, dropped, inv₂, sameMem, targets⟩ :=
    Pmap.dropDir_ok inv₁ own ((shrunk.refs g).trans_lt (bounded g)) empty
  have number : pgnum (page2pa g) = g :=
    pgnum_page2pa (inv.small (inv.target_managed (show m.vm.target m.dir (.dir i) = some g from own)))
  have bound : g < vm₁.npages := inv₁.target_bound (show vm₁.target m.dir (.dir i) = some g from own)
  have page : vm₁.pa2page (page2pa g) = .ok g := by
    rw [Pmap.pa2page_ok (by rw [number]; exact bound), number]
  refine ⟨vm₂, ?_, ⟨⟨free, inv⟩, bounded⟩, ⟨free₂, inv₂⟩, rfl, fun d t => ?_, fun j other => ?_,
    fun q => ?_⟩
  · rw [Pmap.freeSpace, emptied]
    simp only [bind, Except.bind, page, dropped]
  · have gone : vm₂.table (update m.dir i none) i d = none := by simp [Pmap.table]
    exact Pmap.pte_of_no_table gone t
  · funext d t
    have others : vm₂.pte (update m.dir i none) j d t = vm₁.pte m.dir j d t := by
      simp [Pmap.pte, Pmap.table, other, sameMem.mem]
    exact others.trans (shrunk.pte j d t other)
  · rw [refs, targets]
    exact (Pmap.refs_update_none_le _ _ q).trans (shrunk.refs q)

theorem unmap_edited {m : Memory} (ready : m.Accounted managed ∧ m.Bounded) (own : m.dir i = some g)
    (user : va < utop) :
    ∃ vm', m.vm.pageRemove g va = .ok vm' ∧
    Edited managed (.unmap i (pdx va) (ptx va)) m ⟨vm', m.dir⟩ := by
  obtain ⟨⟨free, inv⟩, bounded⟩ := ready
  obtain ⟨vm', free', removed, inv', shrunk, -, others, gone⟩ :=
    Pmap.pageRemove_ok va inv own (pdx_lt_npdUser user) bounded
  exact ⟨vm', removed, ⟨⟨free, inv⟩, bounded⟩, ⟨free', inv'⟩, rfl, gone, others, shrunk.refs⟩

theorem lookup_ok {m : Memory} (accounted : m.Accounted managed) (own : m.dir i = some g)
    (user : va < utop) : m.vm.pageLookup g va = .ok none ∧
    pteTarget (m.pte i (pdx va) (ptx va)) = none ∨
    ∃ p ptr, m.vm.pageLookup g va = .ok (some (p, ptr)) ∧
    pteTarget (m.pte i (pdx va) (ptx va)) = some p ∧
      m.vm.load ptr = m.pte i (pdx va) (ptx va) := by
  obtain ⟨free, inv⟩ := accounted
  cases mapped : pteTarget (m.pte i (pdx va) (ptx va)) with
  | none => exact .inl ⟨Pmap.pageLookup_none inv own (pdx_lt_npdUser user) mapped, rfl⟩
  | some p =>
    obtain ⟨pt, found, word⟩ := Pmap.table_of_pte mapped
    exact .inr ⟨p, (pt, ptx va), Pmap.pageLookup_some inv own found mapped, rfl, word.symm⟩

theorem copy_edited {m : Memory} {j : Slot} {e u : Index} (ready : m.Accounted managed ∧ m.Bounded)
    (own : m.dir i = some g) (user : va < utop) (low : perm.toNat < 2 ^ 12)
    (source : pteTarget (m.pte j e u) = some p)
    (writable : perm &&& pteW ≠ 0 → m.pte j e u &&& pteW ≠ 0) :
    m.vm.pageInsert g p va perm = .ok (m.vm, false) ∨
    ∃ vm', m.vm.pageInsert g p va perm = .ok (vm', true) ∧
      Edited managed (.copy i (pdx va) (ptx va) p perm j e u) m ⟨vm', m.dir⟩ := by
  obtain ⟨⟨free, inv⟩, bounded⟩ := ready
  have refers : m.vm.target m.dir (.leaf j e u) = some p := source
  rcases Pmap.pageInsert_ok perm inv own (pdx_lt_npdUser user) (inv.target_managed refers)
    (inv.balanced.notMem_free refers) nofun (inv.leaf_data source) low bounded with
    ⟨failed, -, -⟩ | ⟨vm', free', done, inv', wrote, bound⟩
  · exact .inl failed
  · exact .inr ⟨vm', done, ⟨⟨free, inv⟩, bounded⟩, ⟨free', inv'⟩, source, writable, rfl, wrote.pte,
      pteTarget_entry (inv.small (inv.target_managed refers)) low, bound⟩

theorem fresh_edited (allocZero : Bool) (inv : vm.Inv dir managed [] (p :: rest))
    (bounded : Bounded ⟨vm, dir⟩) (own : dir i = some g) (user : va < utop)
    (low : perm.toNat < 2 ^ 12) :
    ((vm.taken p allocZero).pageInsert g p va perm = .ok (vm.taken p allocZero, false) ∧
      ∃ vm', (vm.taken p allocZero).pageFree p = .ok vm' ∧ Edited managed .keep ⟨vm, dir⟩ ⟨vm', dir⟩) ∨
    ∃ vm', (vm.taken p allocZero).pageInsert g p va perm = .ok (vm', true) ∧
      Edited managed (.fresh i (pdx va) (ptx va) p perm) ⟨vm, dir⟩ ⟨vm', dir⟩ := by
  have member := inv.balanced.freeManaged p List.mem_cons_self
  have none : Shared.refs (vm.target dir) p = 0 := inv.balanced.free_refs List.mem_cons_self
  have inv₁ := Pmap.taken_inv inv allocZero
  have targets := Pmap.taken_target inv allocZero
  have ptes := Pmap.taken_pte inv allocZero
  have absent : p ∉ rest := (List.nodup_cons.mp inv.balanced.chain.nodup).1
  rcases Pmap.pageInsert_ok perm inv₁ own (pdx_lt_npdUser user) member absent
    (fun q held => ⟨List.mem_singleton.mp held, by rw [targets, List.mem_singleton.mp held, none]⟩)
    (fun site _ => by rw [targets]; exact refs_eq_zero.mp none site) low
      (by rw [targets]; exact bounded) with
    ⟨failed, -, -⟩ | ⟨vm', free', done, inv', wrote, bound⟩
  · refine .inl ⟨failed, ?_⟩
    have unused : (vm.taken p allocZero).ledger.count p = 0 := by
      rw [inv₁.balanced.counted p member, targets, none]
      rfl
    obtain ⟨vm', freed, given, sameMem⟩ :=
      Pmap.pageFree_ok unused (inv₁.balanced.unlinked p member absent)
    have targets' : vm'.target dir = vm.target dir := (Pmap.target_of_mem_eq sameMem.mem).trans targets
    have inv' : vm'.Inv dir managed [] (p :: rest) := by
      refine inv₁.transfer (sameMem.same managed) ?_ ?_
      · rw [given, targets', ← targets]
        exact inv₁.balanced.give_held member (by rw [targets]; exact none) nofun
      · rw [Pmap.Owned, targets']
        exact inv.owned
    refine ⟨vm', freed, ⟨⟨_, inv⟩, bounded⟩, ⟨_, inv'⟩, rfl,
      (Pmap.pte_of_mem_eq sameMem.mem).trans ptes, ?_⟩
    intro q
    rw [refs, refs, targets']
  · refine .inr ⟨vm', done, ⟨⟨_, inv⟩, bounded⟩, ⟨free', inv'⟩, none, rfl, ?_,
      pteTarget_entry (inv.small member) low, ?_⟩
    · intro j e u
      rw [show pte ⟨vm, dir⟩ = (vm.taken p allocZero).pte dir from ptes.symm]
      exact wrote.pte j e u
    · intro q
      have bound := bound q
      rw [targets] at bound
      exact bound

end Pages

end Memory

def Kernel.memory (s : Kernel) : Memory := ⟨s.vm, s.dirs⟩

end Jos.Kern
