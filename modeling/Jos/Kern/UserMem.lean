import Jos.Kern.Access

namespace Jos.Kern.Pmap

section Model

variable (vm : Pmap) (pgdir : Nat) (va perm : Word)

def checkPages : Nat → Word → Except Panic (Option Word)
  | 0, _ => .ok none
  | left + 1, start => do
    if ← vm.userPageOk pgdir start (perm ||| pteP) then checkPages left (start + 4096)
    else .ok (some (if start < va then va else start))

-- `user_mem_check` again: `none` is the return value 0, otherwise the result is
-- `user_mem_check_addr`.
def userMemCheckAddr (len : Word) : Except Panic (Option Word) :=
  let start := roundDown va 4096
  let stop := roundUp (va + len) 4096
  vm.checkPages pgdir va perm ((stop.toNat - start.toNat) / pgsize) start

end Model

variable {vm : Pmap} {pgdir : Nat} {va len perm : Word}

theorem userMemCheck_eq :
    vm.userMemCheck pgdir va len perm =
    (vm.userMemCheckAddr pgdir va perm len).map Option.isNone := by
  unfold userMemCheck userMemCheckAddr
  dsimp only
  generalize ((roundUp (va + len) 4096).toNat - (roundDown va 4096).toNat) / pgsize = n
  generalize roundDown va 4096 = start
  rw [List.range_eq_range']
  suffices general : ∀ i, (List.range' i n).foldlM (fun ok k =>
      if ok then vm.userPageOk pgdir (start + BitVec.ofNat 32 (k * pgsize)) (perm ||| pteP)
        else .ok false) true =
      (vm.checkPages pgdir va perm n (start + BitVec.ofNat 32 (i * pgsize))).map Option.isNone by
    simpa using general 0
  have refused : ∀ ks : List Nat, ks.foldlM (fun ok k =>
      if ok then vm.userPageOk pgdir (start + BitVec.ofNat 32 (k * pgsize)) (perm ||| pteP)
        else .ok false) false =
      .ok false := by
    intro ks
    induction ks with
    | nil => rfl
    | cons k ks ih => exact ih
  induction n with
  | zero => exact fun i => rfl
  | succ n ih =>
    intro i
    rw [List.range'_succ, List.foldlM_cons, if_pos rfl, checkPages]
    have after : start + BitVec.ofNat 32 (i * pgsize) + 4096 = start +
      BitVec.ofNat 32 ((i + 1) * pgsize) := by
      rw [Nat.add_mul, BitVec.ofNat_add, BitVec.add_assoc]
      rfl
    cases first : vm.userPageOk pgdir (start + BitVec.ofNat 32 (i * pgsize)) (perm ||| pteP) with
    | error panic => rfl
    | ok passes =>
      cases passes with
      | false => exact refused _
      | true =>
        rw [after]
        exact ih (i + 1)

structure Walkable (vm : Pmap) (pgdir : Nat) : Prop where
  small : vm.pseSupport ≠ 1
  tables : ∀ d, vm.mem pgdir d &&& pteP ≠ 0 → pgnum (vm.mem pgdir d) < vm.npages

def pdeAt (vm : Pmap) (pgdir : Nat) (a : Word) : Word := vm.mem pgdir (pdx a)
def pteAt (vm : Pmap) (pgdir : Nat) (a : Word) : Word := vm.mem (pgnum (vm.pdeAt pgdir a)) (ptx a)

def Passes (vm : Pmap) (pgdir : Nat) (perm start : Word) : Prop :=
  start < ulim ∧ vm.pdeAt pgdir start &&& pteP ≠ 0 ∧
    vm.pteAt pgdir start &&& (perm ||| pteP) = perm ||| pteP

instance (vm : Pmap) (pgdir : Nat) (perm start : Word) : Decidable (vm.Passes pgdir perm start) :=
  inferInstanceAs (Decidable (_ ∧ _))

theorem pgdirWalk_eq (walkable : vm.Walkable pgdir) (va : Word) : vm.pgdirWalk pgdir va false =
    .ok (vm, if vm.pdeAt pgdir va &&& pteP = 0 then none
    else some (pgnum (vm.pdeAt pgdir va), ptx va)) := by
  have small := walkable.small
  unfold pgdirWalk
  rw [if_neg fun large => small large.1, show vm.load (pgdir, pdx va) = vm.pdeAt pgdir va from rfl]
  by_cases present : vm.pdeAt pgdir va &&& pteP = 0
  · rw [if_pos present, if_pos present, if_pos rfl]
  · have inside := walkable.tables (pdx va) present
    have found : vm.kaddr (pteAddr (vm.pdeAt pgdir va)) = .ok (pgnum (vm.pdeAt pgdir va)) := by
      rw [kaddr, pgnum_pteAddr, if_neg (by exact Nat.not_le.mpr inside)]
    rw [if_neg present, if_neg present, found]
    rfl

theorem userPageOk_eq (walkable : vm.Walkable pgdir) (start : Word) :
    vm.userPageOk pgdir start (perm ||| pteP) = .ok (decide (vm.Passes pgdir perm start)) := by
  unfold userPageOk
  rw [pgdirWalk_eq walkable]
  by_cases present : vm.pdeAt pgdir start &&& pteP = 0
  · have fails : ¬vm.Passes pgdir perm start := fun passes => passes.2.1 present
    rw [if_pos present, decide_eq_false fails]
    rfl
  · rw [if_neg present]
    show Except.ok _ = Except.ok _
    congr 1
    exact decide_eq_decide.mpr ⟨fun both => ⟨both.1, present, both.2⟩, fun all => ⟨all.1, all.2.2⟩⟩

def page (va : Word) (k : Nat) : Word := roundDown va 4096 + BitVec.ofNat 32 (k * 4096)

theorem checkPages_cases (walkable : vm.Walkable pgdir) (va perm : Word) (n i : Nat) :
    (vm.checkPages pgdir va perm n (page va i) = .ok none ∧
    ∀ k < n, vm.Passes pgdir perm (page va (i + k))) ∨
    ∃ k < n, vm.checkPages pgdir va perm n (page va i) =
    .ok (some (if page va (i + k) < va then va else page va (i + k))) ∧
      ¬vm.Passes pgdir perm (page va (i + k)) ∧ ∀ j < k, vm.Passes pgdir perm (page va (i + j)) := by
  induction n generalizing i with
  | zero => exact .inl ⟨rfl, nofun⟩
  | succ n ih =>
    have after : page va i + 4096 = page va (i + 1) := by
      rw [page, page, Nat.add_mul, BitVec.ofNat_add, BitVec.add_assoc]
      rfl
    by_cases passes : vm.Passes pgdir perm (page va i)
    · have round : vm.checkPages pgdir va perm (n + 1) (page va i) =
        vm.checkPages pgdir va perm n (page va (i + 1)) := by
        rw [checkPages, userPageOk_eq walkable, decide_eq_true passes, ← after]
        rfl
      have before : ∀ j, (∀ k < j, vm.Passes pgdir perm (page va (i + 1 + k))) →
          ∀ k < j + 1, vm.Passes pgdir perm (page va (i + k)) := by
        intro j later k below
        cases k with
        | zero => exact passes
        | succ k =>
          have here := later k (by omega)
          rwa [Nat.add_assoc, Nat.add_comm 1 k] at here
      rw [round]
      rcases ih (i + 1) with ⟨all, later⟩ | ⟨k, below, found, fails, later⟩
      · exact .inl ⟨all, before n later⟩
      · rw [Nat.add_assoc, Nat.add_comm 1 k] at found fails
        exact .inr ⟨k + 1, by omega, found, fails, before k later⟩
    · refine .inr ⟨0, by omega, ?_, passes, nofun⟩
      rw [checkPages, userPageOk_eq walkable, decide_eq_false passes]
      rfl

section Count

theorem count_pages (va len : Word) :
    (va.toNat + len.toNat ≤ 2 ^ 32 - 4096 →
      ∀ k, k < ((roundUp (va + len) 4096).toNat - (roundDown va 4096).toNat) / pgsize ↔
        (roundDown va 4096).toNat + 4096 * k < va.toNat + len.toNat) ∧
    (2 ^ 32 - 4096 < va.toNat + len.toNat →
      ((roundUp (va + len) 4096).toNat - (roundDown va 4096).toNat) / pgsize =
        if 2 ^ 32 + (roundDown va 4096).toNat < va.toNat + len.toNat ∧
        va.toNat < 2 ^ 32 - 4096 then 1 else 0) := by
  have vaBound := va.isLt
  have lenBound := len.isLt
  have top : (va + len + 4096 - 1).toNat = (va.toNat + len.toNat + 4095) % 2 ^ 32 := by
    have shift : va + len + 4096 - 1 = va + len + 4095 := by
      rw [add_sub_assoc]
      rfl
    rw [shift, BitVec.toNat_add, BitVec.toNat_add]
    simp
  rw [roundUp, roundDown_toNat, roundDown_toNat, top]
  simp only [pgsize]
  constructor
  · intro fits k
    omega
  · intro wraps
    split <;> omega

end Count

def Accessible (vm : Pmap) (pgdir : Nat) (perm : Word) (a : Nat) : Prop :=
  a < ulim.toNat ∧
    (vm.translate pgdir (BitVec.ofNat 32 a) (decide (perm &&& pteW ≠ 0))
    (decide (perm &&& pteU ≠ 0))).isSome

def Right (vm : Pmap) (pgdir : Nat) (va perm len : Word) : Option Word → Prop
  | none => ∀ a, va.toNat ≤ a → a < va.toNat + len.toNat → vm.Accessible pgdir perm a
  | some addr => 0 < len.toNat → (va.toNat ≤ addr.toNat ∧ addr.toNat < va.toNat + len.toNat) ∧
      ¬vm.Accessible pgdir perm addr.toNat ∧ ∀ a, va.toNat ≤ a → a < addr.toNat →
        vm.Accessible pgdir perm a

-- What the code does not look at makes no difference: the permissions of the directory entry, and
-- that only `PTE_U` and `PTE_W` matter.
def Agrees (vm : Pmap) (pgdir : Nat) (perm start : Word) : Prop :=
  (vm.Passes pgdir perm start →
    permits (vm.pdeAt pgdir start) (decide (perm &&& pteW ≠ 0)) (decide (perm &&& pteU ≠ 0)) =
    true) ∧ (vm.Accessible pgdir perm start.toNat → vm.pteAt pgdir start &&& perm = perm)

theorem permits_iff (pte perm : Word) :
    permits pte (decide (perm &&& pteW ≠ 0)) (decide (perm &&& pteU ≠ 0)) = true ↔
      pte &&& pteP ≠ 0 ∧ (perm &&& pteW ≠ 0 → pte &&& pteW ≠ 0) ∧
      (perm &&& pteU ≠ 0 → pte &&& pteU ≠ 0) := by
  simp only [permits, Bool.and_eq_true, Bool.or_eq_true, Bool.not_eq_true', decide_eq_true_eq,
    decide_eq_false_iff_not, and_assoc]
  tauto

theorem accessible_iff (start : Word) : vm.Accessible pgdir perm start.toNat ↔ start < ulim ∧
    permits (vm.pdeAt pgdir start) (decide (perm &&& pteW ≠ 0)) (decide (perm &&& pteU ≠ 0)) = true ∧
    permits (vm.pteAt pgdir start) (decide (perm &&& pteW ≠ 0)) (decide (perm &&& pteU ≠ 0)) = true := by
  rw [Accessible, translate, BitVec.ofNat_toNat, BitVec.setWidth_eq, BitVec.lt_def]
  refine and_congr_right fun _ => ?_
  change (if permits (vm.pdeAt pgdir start) _ _ && permits (vm.pteAt pgdir start) _ _ then some _
    else none).isSome = true ↔ _
  split
  next both => simpa using both
  next either => simpa using either

theorem bit_of_and {x m b : Word} (subset : x &&& m = m) (set : m &&& b ≠ 0) : x &&& b ≠ 0 := by
  intro clear_
  apply set
  rw [← subset, BitVec.and_assoc, BitVec.and_comm m b, ← BitVec.and_assoc, clear_]
  simp

theorem and_or_pteP {pte : Word} (present : pte &&& pteP ≠ 0) :
    pte &&& (perm ||| pteP) = perm ||| pteP ↔ pte &&& perm = perm := by
  have one : pte &&& pteP = pteP := by
    have bit : pte.getLsbD 0 = true := by
      by_contra clear_
      apply present
      ext k bound
      by_cases zero : k = 0 <;> simp_all [pteP, BitVec.getLsbD_eq_getElem]
    ext k bound
    by_cases zero : k = 0 <;> simp_all [pteP, BitVec.getLsbD_eq_getElem]
  constructor
  · intro all
    have absorb : (perm ||| pteP) &&& perm = perm := by
      ext k bound
      simp only [BitVec.getElem_and, BitVec.getElem_or]
      cases perm[k] <;> simp
    rw [← absorb, ← BitVec.and_assoc, all]
  · intro same
    rw [BitVec.and_or_distrib_left, same, one]

theorem agrees_iff (start : Word) :
    vm.Agrees pgdir perm start ↔ (vm.Passes pgdir perm start ↔ vm.Accessible pgdir perm start.toNat) := by
  have granted : vm.Passes pgdir perm start →
      permits (vm.pteAt pgdir start) (decide (perm &&& pteW ≠ 0)) (decide (perm &&& pteU ≠ 0)) =
        true := by
    rintro ⟨_, _, all⟩
    have present : vm.pteAt pgdir start &&& pteP ≠ 0 := bit_of_and all (by
      rw [BitVec.and_or_distrib_right]
      intro zero
      have bit := congrArg (BitVec.getLsbD · 0) zero
      simp [pteP] at bit)
    have subset := (and_or_pteP present).mp all
    exact (permits_iff _ _).mpr ⟨present, bit_of_and subset, bit_of_and subset⟩
  have access : vm.Accessible pgdir perm start.toNat ↔ _ := accessible_iff start
  constructor
  · rintro ⟨directory, others⟩
    constructor
    · intro passes
      exact access.mpr ⟨passes.1, directory passes, granted passes⟩
    · intro may
      obtain ⟨below, pde, pte⟩ := access.mp may
      exact ⟨below, ((permits_iff _ _).mp pde).1,
        (and_or_pteP ((permits_iff _ _).mp pte).1).mpr (others may)⟩
  · intro same
    constructor
    · intro passes
      exact (access.mp (same.mp passes)).2.1
    · intro may
      have passes := same.mpr may
      exact (and_or_pteP ((permits_iff _ _).mp (access.mp may).2.2).1).mp passes.2.2

def Honest (vm : Pmap) (pgdir : Nat) (va perm len : Word) : Prop :=
  len = 0 ∨
  (va.toNat + len.toNat ≤ 2 ^ 32 - 4096 ∧
    ∀ k, (roundDown va 4096).toNat + 4096 * k < va.toNat + len.toNat →
      (∀ j < k, vm.Passes pgdir perm (page va j)) → vm.Agrees pgdir perm (page va k)) ∨
  ((2 ^ 32 + (roundDown va 4096).toNat < va.toNat + len.toNat ∧ va.toNat < 2 ^ 32 - 4096) ∧
    ¬vm.Passes pgdir perm (roundDown va 4096) ∧ ¬vm.Accessible pgdir perm va.toNat)

theorem accessible_congr {a b : Nat} (aBound : a < 2 ^ 32) (bBound : b < 2 ^ 32)
    (same : a / 4096 = b / 4096) : vm.Accessible pgdir perm a ↔ vm.Accessible pgdir perm b := by
  have value : ∀ n, n < 2 ^ 32 → (BitVec.ofNat 32 n).toNat = n := fun n bound => by
    rw [BitVec.toNat_ofNat, Nat.mod_eq_of_lt bound]
  have directory : pdx (BitVec.ofNat 32 a) = pdx (BitVec.ofNat 32 b) := by
    apply Fin.ext
    rw [val_pdx, val_pdx, value a aBound, value b bBound]
    omega
  have table : ptx (BitVec.ofNat 32 a) = ptx (BitVec.ofNat 32 b) := by
    apply Fin.ext
    rw [val_ptx, val_ptx, value a aBound, value b bBound]
    omega
  have limit : a < ulim.toNat ↔ b < ulim.toNat := by
    rw [show ulim.toNat = 4018143232 from rfl]
    omega
  rw [Accessible, Accessible, limit, translate, translate, directory, table]

theorem toNat_page {k : Nat} (fits : (roundDown va 4096).toNat + 4096 * k < 2 ^ 32) :
    (page va k).toNat = (roundDown va 4096).toNat + 4096 * k := by
  rw [page, BitVec.toNat_add, BitVec.toNat_ofNat]
  omega

theorem accessible_pages {stop : Nat} (bound : stop ≤ 2 ^ 32) :
    (∀ a, va.toNat ≤ a → a < stop → vm.Accessible pgdir perm a) ↔
      ∀ k, va.toNat < stop → (roundDown va 4096).toNat + 4096 * k < stop →
        vm.Accessible pgdir perm (page va k).toNat := by
  have start := roundDown_toNat va
  constructor
  · intro all k some_ inside
    have here := all (max va.toNat ((roundDown va 4096).toNat + 4096 * k)) (by omega) (by omega)
    rw [toNat_page (by omega)]
    exact (accessible_congr (by omega) (by omega) (by omega)).mp here
  · intro pages a low high
    have here := pages ((a - (roundDown va 4096).toNat) / 4096) (by omega) (by omega)
    rw [toNat_page (by omega)] at here
    exact (accessible_congr (by omega) (by omega) (by omega)).mp here

theorem not_accessible_high {a : Nat} (high : 2 ^ 32 - 4096 ≤ a) : ¬vm.Accessible pgdir perm a := by
  intro ⟨below, _⟩
  rw [show ulim.toNat = 4018143232 from rfl] at below
  omega

theorem page_zero (va : Word) : page va 0 = roundDown va 4096 := by simp [page]

section Answer

variable (walkable : vm.Walkable pgdir) (some_ : 0 < len.toNat)
include walkable some_

theorem right_of_fits (fits : va.toNat + len.toNat ≤ 2 ^ 32 - 4096) :
    ∃ r, vm.userMemCheckAddr pgdir va perm len = .ok r ∧ (vm.Right pgdir va perm len r ↔
      ∀ k, (roundDown va 4096).toNat + 4096 * k < va.toNat + len.toNat →
      (∀ j < k, vm.Passes pgdir perm (page va j)) →
        vm.Agrees pgdir perm (page va k)) := by
  have start := roundDown_toNat va
  have count := (count_pages va len).1 fits
  unfold userMemCheckAddr
  rw [← page_zero va]
  dsimp only
  rw [page_zero va]
  generalize ((roundUp (va + len) 4096).toNat - (roundDown va 4096).toNat) / pgsize = n at count ⊢
  rw [← page_zero va]
  rcases checkPages_cases walkable va perm n 0 with ⟨passed, all⟩ | ⟨k, below, found, fails, before⟩
  · simp only [Nat.zero_add] at all
    refine ⟨none, passed, ?_⟩
    rw [Right, accessible_pages (by omega), page_zero]
    constructor
    · intro may k inside _
      exact (agrees_iff _).mpr (iff_of_true (all k ((count k).mpr inside)) (may k (by omega) inside))
    · intro agree k _ inside
      have here := agree k inside fun j before => all j (by have := (count k).mpr inside; omega)
      exact ((agrees_iff _).mp here).mp (all k ((count k).mpr inside))
  · simp only [Nat.zero_add] at found fails before
    refine ⟨_, found, ?_⟩
    have inside := (count k).mp below
    have place : (page va k).toNat = (roundDown va 4096).toNat + 4096 * k := toNat_page (by omega)
    have addr : (if page va k < va then va else page va k).toNat =
      max va.toNat ((roundDown va 4096).toNat + 4096 * k) := by
      split
      next less =>
        have less' : (page va k).toNat < va.toNat := less
        omega
      next more =>
        have more' : ¬(page va k).toNat < va.toNat := more
        omega
    have right : vm.Right pgdir va perm len (some (if page va k < va then va else page va k)) ↔
        ¬vm.Accessible pgdir perm (page va k).toNat ∧
          ∀ j < k, vm.Accessible pgdir perm (page va j).toNat := by
      rw [Right, addr, accessible_pages (by omega),
        accessible_congr (b := (page va k).toNat) (by omega) (by omega) (by omega)]
      constructor
      · intro holds
        obtain ⟨_, refused, earlier⟩ := holds some_
        exact ⟨refused, fun j less => earlier j (by omega) (by omega)⟩
      · intro ⟨refused, earlier⟩ _
        exact ⟨by omega, refused, fun j more less => earlier j (by omega)⟩
    rw [right, page_zero]
    constructor
    · intro ⟨refused, earlier⟩ j _ passed
      by_cases less : j < k
      · exact (agrees_iff _).mpr (iff_of_true (before j less) (earlier j less))
      · by_cases same : j = k
        · subst same
          exact (agrees_iff _).mpr (iff_of_false fails refused)
        · exact absurd (passed k (by omega)) fails
    · intro agree
      have here := (agrees_iff _).mp (agree k inside before)
      refine ⟨fun may => fails (here.mpr may), fun j less => ?_⟩
      have there := (agrees_iff _).mp (agree j (by omega) fun i smaller => before i (by omega))
      exact there.mp (before j less)

theorem right_of_wraps (wraps : 2 ^ 32 - 4096 < va.toNat + len.toNat) :
    ∃ r, vm.userMemCheckAddr pgdir va perm len = .ok r ∧ (vm.Right pgdir va perm len r ↔
      (2 ^ 32 + (roundDown va 4096).toNat < va.toNat + len.toNat ∧ va.toNat < 2 ^ 32 - 4096) ∧
        ¬vm.Passes pgdir perm (roundDown va 4096) ∧ ¬vm.Accessible pgdir perm va.toNat) := by
  have start := roundDown_toNat va
  have vaBound := va.isLt
  have wrong : ¬vm.Right pgdir va perm len none := by
    intro all
    exact not_accessible_high (by omega) (all (va.toNat + len.toNat - 1) (by omega) (by omega))
  unfold userMemCheckAddr
  dsimp only
  rw [(count_pages va len).2 wraps]
  split
  next once =>
    by_cases passes : vm.Passes pgdir perm (roundDown va 4096)
    · refine ⟨none, ?_, iff_of_false wrong fun all => all.2.1 passes⟩
      rw [checkPages, userPageOk_eq walkable, decide_eq_true passes]
      rfl
    · have low : roundDown va 4096 < va := by
        rw [BitVec.lt_def]
        have lenBound := len.isLt
        omega
      refine ⟨some va, ?_, ?_⟩
      · rw [checkPages, userPageOk_eq walkable, decide_eq_false passes, if_pos low]
        rfl
      · rw [Right]
        constructor
        · intro holds
          exact ⟨once, passes, (holds some_).2.1⟩
        · intro ⟨_, _, refused⟩ _
          exact ⟨by omega, refused, fun a low high => by omega⟩
  next never => exact ⟨none, rfl, iff_of_false wrong fun all => never all.1⟩

end Answer

theorem userMemCheckAddr_returns (walkable : vm.Walkable pgdir) (va perm len : Word) :
    ∃ r, vm.userMemCheckAddr pgdir va perm len = .ok r := by
  unfold userMemCheckAddr
  rw [← page_zero va]
  rcases checkPages_cases walkable va perm
    (((roundUp (va + len) 4096).toNat - (page va 0).toNat) / pgsize) 0 with ⟨passed, -⟩ | ⟨k, -, found, -⟩
  · exact ⟨_, passed⟩
  · exact ⟨_, found⟩

theorem user_mem_check_right_iff (walkable : vm.Walkable pgdir) (va perm len : Word) :
    ∃ r, vm.userMemCheckAddr pgdir va perm len = .ok r ∧
      (vm.Right pgdir va perm len r ↔ vm.Honest pgdir va perm len) := by
  by_cases empty : len = 0
  · have none_ : len.toNat = 0 := by rw [empty]; rfl
    obtain ⟨r, answer⟩ := userMemCheckAddr_returns walkable va perm len
    refine ⟨r, answer, iff_of_true ?_ (.inl empty)⟩
    cases r with
    | none =>
      intro a low high
      omega
    | some addr =>
      intro some_
      omega
  · have some_ : 0 < len.toNat := by
      apply Nat.pos_of_ne_zero
      intro zero
      exact empty (BitVec.eq_of_toNat_eq zero)
    by_cases fits : va.toNat + len.toNat ≤ 2 ^ 32 - 4096
    · obtain ⟨r, answer, right⟩ : ∃ r, vm.userMemCheckAddr pgdir va perm len = .ok r ∧ _ :=
        right_of_fits walkable some_ fits
      refine ⟨r, answer, right.trans ⟨fun agree => .inr (.inl ⟨fits, agree⟩), ?_⟩⟩
      rintro (none | ⟨_, agree⟩ | ⟨⟨wraps, low⟩, _⟩)
      · exact absurd none empty
      · exact agree
      · omega
    · have wraps : 2 ^ 32 - 4096 < va.toNat + len.toNat := by omega
      obtain ⟨r, answer, right⟩ : ∃ r, vm.userMemCheckAddr pgdir va perm len = .ok r ∧ _ :=
        right_of_wraps walkable some_ wraps
      refine ⟨r, answer, right.trans ⟨fun once => .inr (.inr once), ?_⟩⟩
      rintro (none | ⟨fits', _⟩ | once)
      · exact absurd none empty
      · exact absurd fits' fits
      · exact once

def smallSpace : Pmap where
  npages := 8
  pseSupport := 0
  kernPgdir := 0
  pages _ := ⟨none, 0⟩
  pageFreeList := none
  mem p k :=
    if p = 1 ∧ k = 0 then entry 2 (pteU ||| pteW)
    else if p = 1 ∧ k = pdx uvpt then entry 1 pteU
    else if p = 2 ∧ k = 5 then entry 3 (pteU ||| pteW)
    else 0

theorem smallSpace_walkable : smallSpace.Walkable 1 where
  small := by decide
  tables d present := by
    revert present
    simp only [smallSpace]
    split
    · decide
    · split
      · decide
      · simp

theorem user_mem_check_right_once : ∃ r, smallSpace.userMemCheckAddr 1 0x5010 (pteU ||| pteW) 16 = .ok r ∧
    smallSpace.Right 1 0x5010 (pteU ||| pteW) 16 r := by
  obtain ⟨r, answer, right⟩ := user_mem_check_right_iff smallSpace_walkable 0x5010 (pteU ||| pteW) 16
  refine ⟨r, answer, right.mpr (.inr (.inl ⟨by decide, fun k inside _ => ?_⟩))⟩
  have first : k = 0 := by
    change 0x5000 + 4096 * k < 0x5010 + 16 at inside
    omega
  subst first
  exact ⟨fun _ => by decide, fun _ => by decide⟩

-- A length that wraps is not checked at all, and the entry for `UVPT` is not asked whether it lets
-- the user write.
theorem user_mem_check_wrong :
    (smallSpace.userMemCheckAddr 1 0x6000 pteU 0xFFFFFFFF = .ok none ∧
    ¬smallSpace.Right 1 0x6000 pteU 0xFFFFFFFF none) ∧
    smallSpace.userMemCheckAddr 1 uvpt (pteU ||| pteW) 4 = .ok none ∧
    ¬smallSpace.Right 1 uvpt (pteU ||| pteW) 4 none := by
  refine ⟨⟨by decide, fun all => ?_⟩, by decide, fun all => ?_⟩
  · have first := all 0x6000 (by decide) (by decide)
    exact absurd first.2 (by decide)
  · have first := all uvpt.toNat (by decide) (by decide)
    exact absurd first.2 (by decide)

end Jos.Kern.Pmap
