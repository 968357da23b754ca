import Jos.Shared.Bits

namespace Jos.Kern

open Jos.Shared

abbrev Word := BitVec 32
abbrev Byte := BitVec 8

abbrev Index := Fin 1024

-- The numerals of these sizes, of the page tables and of the device rings, use one instance in
-- every module.
instance neZero1024 : NeZero 1024 := ⟨by decide⟩
instance neZero128 : NeZero 128 := ⟨by decide⟩
instance neZero64 : NeZero 64 := ⟨by decide⟩
instance neZero32 : NeZero 32 := ⟨by decide⟩

@[irreducible]
def indices : List Index := List.finRange 1024

theorem mem_indices (d : Index) : d ∈ indices := by
  unfold indices
  exact List.mem_finRange d

def pgsize : Nat := 4096

def pteP : Word := 0x001
def pteW : Word := 0x002
def pteU : Word := 0x004
def ptePS : Word := 0x080
def pteAvail : Word := 0xE00
def pteSyscall : Word := pteAvail ||| pteP ||| pteW ||| pteU

def ulim : Word := 0xEF800000
def uvpt : Word := 0xEF400000
def uenvs : Word := 0xEEC00000
def utop : Word := uenvs
def uxstacktop : Word := utop
def ustacktop : Word := 0xEEBFE000

def npdUser : Nat := 955

def pteAddr (pte : Word) : Word := pte &&& ~~~0xFFF#32
def pgnum (la : Word) : Nat := (la >>> 12).toNat
def pgoff (la : Word) : Word := la &&& 0xFFF#32
def hughPgoff (la : Word) : Word := la &&& 0x3FFFFF#32
-- `& 0x3FF` is reduction modulo 1024.
def pdx (la : Word) : Index := Fin.ofNat 1024 (la >>> 22).toNat
def ptx (la : Word) : Index := Fin.ofNat 1024 (la >>> 12).toNat
def pgaddr (d t : Index) (o : Word) : Word :=
  BitVec.ofNat 32 d <<< 22 ||| BitVec.ofNat 32 t <<< 12 ||| o

def roundDown (a n : Word) : Word := a - a % n
def roundUp (a n : Word) : Word := roundDown (a + n - 1) n

def page2pa (pp : Nat) : Word := BitVec.ofNat 32 pp <<< 12

theorem roundDown_toNat (va : Word) : (roundDown va 4096).toNat = va.toNat - va.toNat % 4096 := by
  have smaller : va % 4096 ≤ va := by
    rw [BitVec.le_def, BitVec.toNat_umod]
    exact Nat.mod_le _ _
  rw [roundDown, BitVec.toNat_sub_of_le smaller, BitVec.toNat_umod]
  rfl

theorem pgnum_lt (la : Word) : pgnum la < 2 ^ 20 := by
  have bound := la.isLt
  simp only [pgnum, BitVec.toNat_ushiftRight, Nat.shiftRight_eq_div_pow]
  omega

theorem pgnum_pteAddr (pte : Word) : pgnum (pteAddr pte) = pgnum pte := by
  have clear : (~~~0xFFF#32) >>> 12 = BitVec.allOnes 32 >>> 12 := by decide
  rw [pgnum, pteAddr, BitVec.ushiftRight_and_distrib, clear, ← BitVec.ushiftRight_and_distrib,
    BitVec.and_allOnes, pgnum]

theorem pgnum_page2pa {pp : Nat} (small : pp < 2 ^ 20) : pgnum (page2pa pp) = pp := by
  have fits : (BitVec.ofNat 32 pp).toNat < 2 ^ (32 - 12) := by simp; omega
  rw [pgnum, page2pa, shiftLeft_ushiftRight_of_small fits (by decide)]
  simp
  omega

theorem pteAddr_eq (pte : Word) : pteAddr pte = page2pa (pgnum pte) := by
  have mask : ~~~0xFFF#32 = BitVec.allOnes 32 <<< 12 := by decide
  rw [pteAddr, page2pa, pgnum, mask, BitVec.ofNat_toNat, BitVec.setWidth_eq]
  ext k bound
  simp only [BitVec.getElem_and, BitVec.getElem_shiftLeft, BitVec.getElem_allOnes]
  by_cases low : k < 12
  · simp [low]
  · simp [low, show 12 + (k - 12) = k by omega, BitVec.getLsbD_eq_getElem bound]

theorem pteAddr_eq_page2pa {pte : Word} {pp : Nat} (small : pp < 2 ^ 20) :
    pteAddr pte = page2pa pp ↔ pgnum pte = pp := by
  constructor
  · intro same
    rw [← pgnum_pteAddr, same, pgnum_page2pa small]
  · intro same
    rw [pteAddr_eq, same]

def entry (pp : Nat) (perm : Word) : Word := page2pa pp ||| perm ||| pteP

theorem pgnum_entry {pp : Nat} {perm : Word} (small : pp < 2 ^ 20) (low : perm.toNat < 2 ^ 12) :
    pgnum (entry pp perm) = pp := by
  have shifted : (page2pa pp ||| perm ||| pteP) >>> 12 = page2pa pp >>> 12 := by
    rw [BitVec.ushiftRight_or_distrib, BitVec.ushiftRight_or_distrib, ushiftRight_of_small low,
      ushiftRight_of_small (show pteP.toNat < 2 ^ 12 by decide)]
    simp
  rw [pgnum, entry, shifted]
  exact pgnum_page2pa small

theorem entry_and (pp : Nat) (perm : Word) {mask : Word} (small : mask.toNat < 2 ^ 12) :
    entry pp perm &&& mask = (perm ||| pteP) &&& mask := by
  rw [entry, page2pa, BitVec.or_assoc, BitVec.and_or_distrib_right, shiftLeft_and_of_small _ small]
  simp

theorem entry_present (pp : Nat) (perm : Word) : entry pp perm &&& pteP ≠ 0 := by
  rw [entry_and pp perm (by decide), BitVec.and_or_distrib_right]
  intro zero
  have bit := congrArg (BitVec.getLsbD · 0) zero
  simp [pteP] at bit

theorem entry_and_pteW (pp : Nat) (perm : Word) : entry pp perm &&& pteW = perm &&& pteW := by
  rw [entry_and pp perm (by decide), BitVec.and_or_distrib_right]
  have disjoint : pteP &&& pteW = 0#32 := by decide
  simp [disjoint]

theorem perm_low {perm : Word} (allowed : perm &&& ~~~pteSyscall = 0) : perm.toNat < 2 ^ 12 :=
  lt_of_le_of_lt (toNat_le_of_and_not_eq_zero allowed) (by decide)

theorem val_pdx (la : Word) : (pdx la).val = la.toNat / 2 ^ 22 := by
  have bound := la.isLt
  simp only [pdx, Fin.val_ofNat, BitVec.toNat_ushiftRight, Nat.shiftRight_eq_div_pow]
  omega

theorem val_ptx (la : Word) : (ptx la).val = la.toNat / 2 ^ 12 % 1024 := by
  simp [ptx, BitVec.toNat_ushiftRight, Nat.shiftRight_eq_div_pow]

theorem pdx_lt_npdUser {va : Word} (below : va < utop) : (pdx va).val < npdUser := by
  have bound : va.toNat < 0xEEC00000 := BitVec.lt_def.mp below
  rw [val_pdx, npdUser]
  omega

theorem pgaddr_toNat (d t : Index) : (pgaddr d t 0).toNat = d.val * 2 ^ 22 + t.val * 2 ^ 12 := by
  have dBound := d.isLt
  have tBound := t.isLt
  have high : (BitVec.ofNat 32 d.val <<< 22).toNat = d.val <<< 22 := by
    simp [BitVec.toNat_shiftLeft, Nat.shiftLeft_eq]
    omega
  have low : (BitVec.ofNat 32 t.val <<< 12).toNat = t.val * 2 ^ 12 := by
    simp [BitVec.toNat_shiftLeft, Nat.shiftLeft_eq]
    omega
  simp only [pgaddr, BitVec.toNat_or, high, low]
  rw [← Nat.shiftLeft_add_eq_or_of_lt (by omega), Nat.shiftLeft_eq]
  simp

theorem pdx_pgaddr (d t : Index) : pdx (pgaddr d t 0) = d := by
  apply Fin.ext
  rw [val_pdx, pgaddr_toNat]
  omega

theorem ptx_pgaddr (d t : Index) : ptx (pgaddr d t 0) = t := by
  apply Fin.ext
  rw [val_ptx, pgaddr_toNat]
  omega

end Jos.Kern
