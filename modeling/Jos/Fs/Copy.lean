import Jos.Fs.Create

namespace Jos.Fs

open Jos.Shared
open Jos.Kern (Word Byte)

abbrev Serves {α β : Type} (x : BufM β α) (v : Volume) (b : β) (a : α) (v' : Volume) (b' : β) : Prop :=
  Yields (fun s : Cache × β => s.1.Live) (fun s => (s.1.volume, s.2)) x (v, b) a (v', b')

namespace BufM

variable {α β : Type} {v v' : Volume} {b b' : β}

theorem lift_serves {x : FsM α} {a : α} (does : Does x v a v') (b : β) : Serves (lift x) v b a v' b := by
  rintro ⟨s, buf⟩ live looks
  obtain ⟨rfl, rfl⟩ := Prod.mk.inj looks
  obtain ⟨s', done, live', looks'⟩ := does s live rfl
  refine ⟨(s', buf), ?_, live', congrArg (·, buf) looks'⟩
  simp only [lift, done]

def chunk (pos stop : Word) : Word := wordMin (4096 - pos.srem 4096) (stop - pos)

section Chunk

variable {pos stop : Word}

theorem sub_srem_pos (pos : Word) : 0 < (4096 - pos.srem 4096).toNat := by
  have rem : (pos.srem 4096).toInt = pos.toInt.tmod 4096 := BitVec.toInt_srem pos 4096
  have low := Int.lt_tmod_of_pos pos.toInt (show (0 : Int) < 4096 by decide)
  have high := Int.tmod_lt_of_pos pos.toInt (show (0 : Int) < 4096 by decide)
  rw [← rem, BitVec.toInt_eq_toNat_cond] at low high
  have small := (pos.srem 4096).isLt
  rw [BitVec.toNat_sub, show (4096 : Word).toNat = 4096 from rfl]
  split at low <;> omega

theorem toNat_wordMin (x y : Word) : (wordMin x y).toNat = min x.toNat y.toNat := by
  rw [wordMin]
  split
  next le =>
    have le' : x.toNat ≤ y.toNat := le
    omega
  next lt =>
    have lt' : ¬x.toNat ≤ y.toNat := lt
    omega

theorem chunk_bounds (before : pos < stop) : 0 < (chunk pos stop).toNat ∧
    pos.toNat + (chunk pos stop).toNat ≤ stop.toNat ∧
    (pos + chunk pos stop).toNat = pos.toNat + (chunk pos stop).toNat := by
  have order : pos.toNat < stop.toNat := before
  have rest : (stop - pos).toNat = stop.toNat - pos.toNat := BitVec.toNat_sub_of_le (le_of_lt order)
  have some_ := sub_srem_pos pos
  have small := stop.isLt
  have length : (chunk pos stop).toNat = min (4096 - pos.srem 4096).toNat (stop - pos).toNat :=
    toNat_wordMin _ _
  refine ⟨by omega, by omega, ?_⟩
  rw [BitVec.toNat_add, Nat.mod_eq_of_lt (by omega)]

theorem srem_of_nonneg (positive : pos.toNat < 2 ^ 31) : (pos.srem 4096).toNat = pos.toNat % 4096 := by
  have sign : pos.msb = false := by
    rw [BitVec.msb_eq_false_iff_two_mul_lt]
    omega
  rw [BitVec.srem_eq, sign, show (4096 : Word).msb = false from rfl]
  exact BitVec.toNat_umod

theorem chunk_of_nonneg (before : pos < stop) (positive : pos.toNat < 2 ^ 31) :
    (chunk pos stop).toNat = min (4096 - pos.toNat % 4096) (stop.toNat - pos.toNat) := by
  have order : pos.toNat < stop.toNat := before
  have rest : (stop - pos).toNat = stop.toNat - pos.toNat := BitVec.toNat_sub_of_le (le_of_lt order)
  have block : (4096 - pos.srem 4096).toNat = 4096 - pos.toNat % 4096 := by
    rw [BitVec.toNat_sub, srem_of_nonneg positive, show (4096 : Word).toNat = 4096 from rfl]
    omega
  rw [chunk, toNat_wordMin, rest, block]

theorem address_of_nonneg (positive : pos.toNat < 2 ^ 31) (blk : Nat) :
    address blk (pos.srem 4096) = 4096 * blk + pos.toNat % 4096 := by
  have small : (pos.srem 4096).toNat = pos.toNat % 4096 := srem_of_nonneg positive
  rw [address, BitVec.toInt_eq_toNat_of_lt (by omega), small]
  omega

end Chunk

section Loop

variable {f : FilePtr} {copy : Nat → Nat → Nat → BufM β Unit} {stop : Word}

theorem copyLoop_serves (f : FilePtr) (copy : Nat → Nat → Nat → BufM β Unit) (stop : Word)
    (inv : Word → Nat → Volume → β → Prop) (failed : Errno → Volume → β → Prop)
    (round : ∀ pos i v b, pos < stop → inv pos i v b →
      (∃ e v', Does (FsM.fileGetBlock f (pos.sdiv 4096).toNat) v (.error e) v' ∧ failed e v' b) ∨
      ∃ blk v₁ v' b', Does (FsM.fileGetBlock f (pos.sdiv 4096).toNat) v (.ok blk) v₁ ∧
        Serves (copy (address blk (pos.srem 4096)) i (chunk pos stop).toNat) v₁ b () v' b' ∧
        inv (pos + chunk pos stop) (i + (chunk pos stop).toNat) v' b')
    (fuel : Nat) (pos : Word) (i : Nat) (start : inv pos i v b) (order : pos ≤ stop)
    (enough : (stop - pos).toNat < fuel) :
    (∃ i' v' b', Serves (copyLoop f copy stop fuel pos i) v b (.ok ()) v' b' ∧ inv stop i' v' b') ∨
    ∃ e v' b', Serves (copyLoop f copy stop fuel pos i) v b (.error e) v' b' ∧ failed e v' b' := by
  induction fuel generalizing pos i v b with
  | zero => omega
  | succ fuel ih =>
    unfold copyLoop
    by_cases before : pos < stop
    · simp only [if_pos before]
      have order' : pos.toNat < stop.toNat := before
      obtain ⟨progress, inside, sum⟩ := chunk_bounds before
      rcases round pos i v b before start with ⟨e, v', got, fails⟩ | ⟨blk, v₁, v', b', got, copied, next⟩
      · exact .inr ⟨e, v', b, .bind (lift_serves got b) (.pure _ _), fails⟩
      · have order'' : pos + chunk pos stop ≤ stop := by
          show (pos + chunk pos stop).toNat ≤ stop.toNat
          omega
        have less : (stop - (pos + chunk pos stop)).toNat < fuel := by
          rw [BitVec.toNat_sub_of_le (show pos.toNat ≤ stop.toNat from order)] at enough
          rw [BitVec.toNat_sub_of_le order'', sum]
          omega
        rcases ih _ _ next order'' less with ⟨i', v'', b'', done, final⟩ | ⟨e, v'', b'', done, fails⟩
        · exact .inl ⟨i', v'', b'', .bind (lift_serves got b) (.bind copied done), final⟩
        · exact .inr ⟨e, v'', b'', .bind (lift_serves got b) (.bind copied done), fails⟩
    · simp only [if_neg before]
      have same : pos = stop := by
        have order' : pos.toNat ≤ stop.toNat := order
        have before' : ¬pos.toNat < stop.toNat := before
        exact BitVec.eq_of_toNat_eq (by omega)
      subst same
      exact .inl ⟨i, v, b, .pure _ _, start⟩

theorem copyLoop_empty {pos : Word} (behind : ¬pos < stop) (fuel i : Nat) (v : Volume) (b : β) :
    Serves (copyLoop f copy stop (fuel + 1) pos i) v b (.ok ()) v b := by
  unfold copyLoop
  simp only [if_neg behind]
  exact .pure _ _

end Loop

end BufM

namespace FsM

variable {v : Volume} {b off : Nat}

theorem loadBytes_does {n : Nat} (off : Nat) (small : v.mem.Small) (valid : v.mem.Valid b)
    (positive : 0 < n) (inside : off + n ≤ 4096) :
    Does (loadBytes (4096 * b + off) n) v ((List.range n).map fun i => byteAt (v.mem b) (off + i))
    v := by
  have pages : pagesOf (4096 * b + off) n = 1 := by
    rw [pagesOf, if_neg (by omega)]
    omega
  have block : (4096 * b + off) / 4096 = b := by omega
  have touched : Does (sweep touch 1 b) v () v := .bind (touch_does small valid) (.pure _ _)
  rw [loadBytes, pages, block]
  refine .bind touched (.get_bind fun s _ looks => ?_)
  have bytes :
    ((List.range n).map fun i => byteAt (s.content ((4096 * b + off + i) / 4096))
    ((4096 * b + off + i) % 4096)) =
      (List.range n).map fun i => byteAt (v.mem b) (off + i) := by
    refine List.map_congr_left fun i member => ?_
    have low := List.mem_range.mp member
    rw [show (4096 * b + off + i) / 4096 =
      b by omega, show (4096 * b + off + i) % 4096 = off + i by omega, ← looks]
    rfl
  rw [bytes]
  exact .pure _ _

theorem storeBytes_does (off : Nat) (bytes : List Byte) (small : v.mem.Small)
    (valid : v.mem.Valid b) (positive : 0 < bytes.length) (inside : off + bytes.length ≤ 4096) :
    Does (storeBytes (4096 * b + off) bytes) v ()
      (v.edit fun m => Function.update m b (patch (4096 * b + off) bytes b (m b))) := by
  have pages : pagesOf (4096 * b + off) bytes.length = 1 := by
    rw [pagesOf, if_neg (by omega)]
    omega
  have block : (4096 * b + off) / 4096 = b := by omega
  rw [storeBytes, pages, block]
  exact .bind (change_does small valid _) (.pure _ _)

theorem byteAt_patch {bytes : List Byte} (blk : Block) {o : Nat} (low : o < 4096) :
    byteAt (patch (4096 * b + off) bytes b blk) o = overwrite (byteAt blk) off bytes o := by
  rw [patch, byteAt_wordsOf, if_pos low]
  have range : (4096 * b + off ≤ 4096 * b + o ∧ 4096 * b + o < 4096 * b + off + bytes.length) ↔
      off ≤ o ∧ o < off + bytes.length := by omega
  simp only [overwrite, range, show 4096 * b + o - (4096 * b + off) = o - off by omega,
    show 4096 * b + o - 4096 * b = o by omega]

end FsM

end Jos.Fs
