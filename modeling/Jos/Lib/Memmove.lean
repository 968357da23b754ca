import Jos.Kern.Mmu

namespace Jos.Lib.Memmove

open Jos.Kern
open Function

abbrev Bytes := Word → Byte

def move (size : Nat) (edi esi : Word) (mem : Bytes) : Bytes :=
  fun a => if (a - edi).toNat < size then mem (esi + (a - edi)) else mem a

-- `rep movs` with `ecx` moves to go and the direction flag as `std` or `cld` has left it.
def rep (size : Nat) (df : Bool) : Nat → Word → Word → Bytes → Bytes
  | 0, _, _, mem => mem
  | ecx + 1, edi, esi, mem =>
    let by_ : Word := if df then -BitVec.ofNat 32 size else BitVec.ofNat 32 size
    rep size df ecx (edi + by_) (esi + by_) (move size edi esi mem)

def Aligned (p : Word) : Prop := p.toInt.tmod 4 = 0

instance (p : Word) : Decidable (Aligned p) := inferInstanceAs (Decidable (_ = _))

def memmove (dst src n : Word) (mem : Bytes) : Bytes :=
  if src < dst ∧ dst < src + n then
    let s := src + n
    let d := dst + n
    if Aligned s ∧ Aligned d ∧ n.toNat % 4 = 0 then rep 4 true (n.toNat / 4) (d - 4) (s - 4) mem
    else rep 1 true n.toNat (d - 1) (s - 1) mem
  else
    if Aligned src ∧ Aligned dst ∧ n.toNat % 4 = 0 then rep 4 false (n.toNat / 4) dst src mem
    else rep 1 false n.toNat dst src mem

def copyDown : Nat → Word → Word → Bytes → Bytes
  | 0, _, _, mem => mem
  | n + 1, d, s, mem => copyDown n (d - 1) (s - 1) (update mem (d - 1) (mem (s - 1)))

def copyUp : Nat → Word → Word → Bytes → Bytes
  | 0, _, _, mem => mem
  | n + 1, d, s, mem => copyUp n (d + 1) (s + 1) (update mem d (mem s))

-- The version that is compiled without `ASM`.
def memmoveLoop (dst src n : Word) (mem : Bytes) : Bytes :=
  if src < dst ∧ dst < src + n then copyDown n.toNat (dst + n) (src + n) mem
    else copyUp n.toNat dst src mem

def moved (n : Nat) (dst src : Word) (mem : Bytes) : Bytes :=
  fun a => if (a - dst).toNat < n then mem (src + (a - dst)) else mem a

section Ranges

variable {size n : Nat} {d s : Word} (mem : Bytes)

theorem sub_shift (a d x : Word) : a - (d + x) = a - d - x := by bv_omega

theorem add_shift (s off x : Word) : s + x + (off - x) = s + off := by bv_omega

theorem moved_up (small : size < 2 ^ 32) (source : s.toNat + (size + n) ≤ 2 ^ 32)
    (apart : d.toNat ≤ s.toNat ∨ s.toNat + (size + n) ≤ d.toNat) :
    moved n (d + BitVec.ofNat 32 size) (s + BitVec.ofNat 32 size) (move size d s mem) =
    moved (size + n) d s mem := by
  funext a
  simp only [moved, move, sub_shift, add_shift]
  generalize a - d = off
  split
  next later =>
    rw [if_neg (by bv_omega), if_pos (by bv_omega)]
  next early =>
    split
    · rw [if_pos (by bv_omega)]
    · rw [if_neg (by bv_omega)]

theorem moved_down (small : size < 2 ^ 32) (target : d.toNat + (size + n) ≤ 2 ^ 32)
    (above : s.toNat < d.toNat) :
    moved n d s (move size (d + BitVec.ofNat 32 n) (s + BitVec.ofNat 32 n) mem) =
    moved (size + n) d s mem := by
  funext a
  simp only [moved, move, sub_shift, add_shift]
  generalize a - d = off
  split
  next early =>
    rw [if_neg (by bv_omega), if_pos (by bv_omega)]
  next late =>
    split
    · rw [if_pos (by bv_omega)]
    · rw [if_neg (by bv_omega)]

theorem rep_up (size count : Nat) (small : size < 2 ^ 32) (target : d.toNat + size * count ≤ 2 ^ 32)
    (source : s.toNat + size * count ≤ 2 ^ 32)
    (apart : d.toNat ≤ s.toNat ∨ s.toNat + size * count ≤ d.toNat) :
    rep size false count d s mem = moved (size * count) d s mem := by
  induction count generalizing d s mem with
  | zero => funext a; simp [rep, moved]
  | succ count ih =>
    rw [Nat.mul_succ, Nat.add_comm (size * count)] at target source apart ⊢
    rw [← moved_up mem small source apart, rep, if_neg Bool.false_ne_true]
    generalize product : size * count = n at *
    exact ih _ (by bv_omega) (by bv_omega) (by bv_omega)

theorem rep_down (size count : Nat) (small : size < 2 ^ 32) (target : d.toNat + size * count ≤ 2 ^ 32)
    (source : s.toNat + size * count ≤ 2 ^ 32) (above : s.toNat < d.toNat) :
    rep size true count (d + BitVec.ofNat 32 (size * count) - BitVec.ofNat 32 size)
      (s + BitVec.ofNat 32 (size * count) - BitVec.ofNat 32 size) mem = moved (size * count) d s mem := by
  induction count generalizing mem with
  | zero => funext a; simp [rep, moved]
  | succ count ih =>
    have back : ∀ p : Word, p + BitVec.ofNat 32 (size * (count + 1)) - BitVec.ofNat 32 size =
        p + BitVec.ofNat 32 (size * count) := by
      intro p
      rw [Nat.mul_succ]
      bv_omega
    rw [back, back, rep, if_pos rfl, ← sub_eq_add_neg, ← sub_eq_add_neg,
      ih _ (by rw [Nat.mul_succ] at target; omega) (by rw [Nat.mul_succ] at source; omega)]
    rw [Nat.mul_succ, Nat.add_comm (size * count)] at target source ⊢
    exact moved_down mem small target above

theorem move_one : move 1 d s mem = update mem d (mem s) := by
  funext a
  by_cases here : a = d
  · simp [move, here]
  · rw [move, if_neg (by bv_omega), update_of_ne here]

theorem copyUp_eq (n : Nat) (d s : Word) (mem : Bytes) : copyUp n d s mem = rep 1 false n d s mem := by
  induction n generalizing d s mem with
  | zero => rfl
  | succ n ih =>
    simp only [copyUp, rep, move_one, ih]
    simp

theorem copyDown_eq (n : Nat) (d s : Word) (mem : Bytes) :
    copyDown n d s mem = rep 1 true n (d - 1) (s - 1) mem := by
  induction n generalizing d s mem with
  | zero => rfl
  | succ n ih =>
    simp only [copyDown, rep, move_one, ih]
    simp [sub_eq_add_neg]

end Ranges

theorem memmove_moves (dst src n : Word) (mem : Bytes) (source : src.toNat + n.toNat ≤ 2 ^ 32)
    (target : dst.toNat + n.toNat ≤ 2 ^ 32) :
    memmove dst src n mem = moved n.toNat dst src mem ∧
    memmoveLoop dst src n mem = moved n.toNat dst src mem := by
  have bytes : BitVec.ofNat 32 (1 * n.toNat) = n := by simp
  have words : n.toNat % 4 = 0 → 4 * (n.toNat / 4) = n.toNat := by omega
  unfold memmove memmoveLoop
  by_cases overlap : src < dst ∧ dst < src + n
  · have above : src.toNat < dst.toNat := overlap.1
    have byByte := rep_down mem 1 n.toNat (by decide) (by omega) (by omega) above
    rw [bytes, Nat.one_mul] at byByte
    rw [if_pos overlap, if_pos overlap, copyDown_eq]
    refine ⟨?_, byByte⟩
    dsimp only
    split
    next aligned =>
      have whole := words aligned.2.2
      have byWord := rep_down mem 4 (n.toNat / 4) (by decide) (by omega) (by omega) above
      rw [whole, BitVec.ofNat_toNat, BitVec.setWidth_eq] at byWord
      exact byWord
    · exact byByte
  · have apart : dst.toNat ≤ src.toNat ∨ src.toNat + n.toNat ≤ dst.toNat := by bv_omega
    have byByte := rep_up (d := dst) (s := src) mem 1 n.toNat (by decide) (by omega) (by omega) (by omega)
    rw [Nat.one_mul] at byByte
    rw [if_neg overlap, if_neg overlap, copyUp_eq]
    refine ⟨?_, byByte⟩
    split
    next aligned =>
      have whole := words aligned.2.2
      have byWord :=
        rep_up (d := dst)
        (s := src) mem 4 (n.toNat / 4) (by decide) (by omega) (by omega) (by omega)
      rw [whole] at byWord
      exact byWord
    · exact byByte

theorem memmove_moves_overlap : memmove 1 0 3 (fun a => a.setWidth 8) 2 = 1 := by
  rw [(memmove_moves 1 0 3 _ (by decide) (by decide)).1]
  rfl

end Jos.Lib.Memmove
