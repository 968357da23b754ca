import Jos.Lib.MallocArena

namespace Jos.Lib

open Jos.Shared
open Jos.Kern (Word)
open Function

namespace Heap

structure InHeap (mapped : Nat → Bool) (q : Nat) : Prop where
  low : mbegin ≤ 4096 * q
  high : 4096 * q < mend
  own : mapped q = false

structure Exact (mapped : Nat → Bool) (h : Heap) (live : List (Nat × Nat)) :
    Prop extends Untouched mapped h live where
  count : ∀ q w b, InHeap mapped q → h.pages q = some ⟨false, w, b⟩ →
    w = holders live q + cursorRef h.mptr q ∧ 0 < w
  runs : ∀ q w b, InHeap mapped q → h.pages q = some ⟨true, w, b⟩ → ∃ b ∈ live, b.1 / 4096 ≤ q ∧
    q < lastPage b

namespace Exact

variable {mapped : Nat → Bool} {h h' : Heap} {live live' : List (Nat × Nat)}

theorem moveTo (exact_ : Exact mapped h live) (from_ : h.mptr % 4096 = 0) {mptr : Nat}
    (start : mptr % 4096 = 0) : Exact mapped ⟨mptr, h.pages⟩ live where
  toUntouched := exact_.toUntouched.moveTo start
  count q w b inside here := by
    have count := exact_.count q w b inside here
    simpa [cursorRef, start, from_] using count
  runs := exact_.runs

theorem init (exact_ : Exact mapped h live) : Exact mapped h.init live := by
  unfold Heap.init
  split
  next zero => exact exact_.moveTo (by rw [zero]) rfl
  · exact exact_

theorem release (exact_ : Exact mapped h live) {lo q₀ w mptr : Nat}
    (here : h.pages q₀ = some ⟨false, w, true⟩) (own : ∀ q, lo ≤ q → q ≤ q₀ → mapped q = false)
    (low : lo ≤ q₀) (cursor : mptr % 4096 ≠ 0 → mapped (mptr / 4096) = false)
    (dropped : ∀ q,
      holders live' q + cursorRef mptr q + (if q₀ = q then 1 else 0) = holders live q +
      cursorRef h.mptr q)
    (fewer : ∀ b ∈ live', b ∈ live)
    (gone : ∀ b ∈ live, b ∈ live' ∨ ∀ q, b.1 / 4096 ≤ q → q < lastPage b → lo ≤ q ∧ q < q₀) :
    Exact mapped ⟨mptr, update (unmapRange h.pages lo q₀) q₀ (Heap.release w)⟩ live' := by
  obtain ⟨⟨kept, -, blocks⟩, count, runs⟩ := exact_
  refine ⟨⟨?_, cursor, fun b member => blocks b (fewer b member)⟩, fun q x b heap => ?_,
    fun q x b heap => ?_⟩ <;> simp only [update_apply, unmapRange, Heap.release]
  · grind -ring -linarith
  · grind -ring -linarith
  · grind -ring -linarith

theorem leave (exact_ : Exact mapped h live) (good : Good h live) (mid : h.mptr % 4096 ≠ 0)
    (done : h.free h.mptr = .ok h') {mptr : Nat} (start : mptr % 4096 = 0) : Exact mapped
    { h' with mptr := mptr } live := by
  obtain ⟨w, here⟩ := good.cursor mid
  have count := good.count _ w _ here
  have one := Good.cursorRef_self mid
  have empty : ∀ q, h.mptr / 4096 ≤ q → q < h.mptr / 4096 → ∃ w, h.pages q = some ⟨true, w, true⟩ :=
    fun q low high => by omega
  rw [free_eq empty here (le_refl _) ⟨by omega, good.word _ _ here⟩ (by omega) done]
  refine exact_.release here (fun q low high => ?_) (le_refl _) (fun mid' => absurd start mid')
    (fun q => ?_) (fun _ => id) fun _ => .inl
  · rw [show q = h.mptr / 4096 by omega]
    exact exact_.cursor mid
  · have none_ : cursorRef mptr q = 0 := by simp [cursorRef, start]
    have before : cursorRef h.mptr q = if h.mptr / 4096 = q then 1 else 0 := by simp [cursorRef, mid]
    rw [none_, before, add_zero]

theorem free (exact_ : Exact mapped h live) (good : Good h live) {b : Nat × Nat} (member : b ∈ live)
    (done : h.free b.1 = .ok h') : Exact mapped h' (live.erase b) := by
  obtain ⟨nonzero, -⟩ := good.shape b member
  obtain ⟨w, here⟩ := good.last b member
  have count := good.count _ w _ here
  have held := Good.holders_pos member
  have low : b.1 / 4096 ≤ lastPage b := by unfold lastPage; omega
  rw [free_eq (good.run b member) here low ⟨by omega, good.word _ _ here⟩ nonzero done]
  refine exact_.release here (exact_.blocks b member) low exact_.cursor (fun q => ?_)
    (fun c => List.mem_of_mem_erase) fun c other => ?_
  · have erased := Good.holders_erase member q
    omega
  · by_cases same : c = b
    · subst same
      exact .inr fun q first last => ⟨first, last⟩
    · exact .inl ((List.mem_erase_of_ne same).mpr other)

theorem bump (exact_ : Exact mapped h live) (good : Good h live) {n v : Nat} (mid : h.mptr % 4096 ≠ 0)
    (bound : n < maxmalloc) (fits : h.mptr / 4096 = (h.mptr + n + 3) % 2 ^ 32 / 4096)
    (room : ∀ page, h.pages (h.mptr / 4096) = some page → page.word + 1 < 2 ^ 32)
    (done : h.bump n = .ok (v, h')) : Exact mapped h' ((h.mptr, n) :: live) := by
  obtain ⟨w, here⟩ := good.cursor mid
  obtain ⟨small, four⟩ := good.aligned
  have own := exact_.cursor mid
  unfold maxmalloc at bound
  have last : lastPage (h.mptr, n) = h.mptr / 4096 := by unfold lastPage; dsimp only; omega
  have next : (h.mptr + n) % 2 ^ 32 = h.mptr + n := by omega
  have still : (h.mptr + n) % 4096 ≠ 0 ∧ (h.mptr + n) / 4096 = h.mptr / 4096 := by omega
  have word : (w + 1) % 2 ^ 32 = w + 1 := Nat.mod_eq_of_lt (room _ here)
  have cursor : ∀ q, cursorRef (h.mptr + n) q = cursorRef h.mptr q := by
    intro q
    simp [cursorRef, still, mid]
  simp only [Heap.bump, here, next, word, Except.ok.injEq, Prod.mk.injEq] at done
  obtain ⟨-, rfl⟩ := done
  obtain ⟨⟨kept, -, blocks⟩, count, runs⟩ := exact_
  refine ⟨⟨fun q => ?_, fun _ => still.2 ▸ own, ?_⟩, fun q x b heap => ?_, fun q x b heap => ?_⟩ <;>
    simp only [update_apply, Good.holders_cons, last, cursor, List.mem_cons]
  · grind -ring -linarith
  · grind -ring -linarith
  · grind -ring -linarith
  · grind -ring -linarith

theorem fresh (exact_ : Exact mapped h live) (good : Good h live) (from_ : h.mptr % 4096 = 0) {p n : Nat}
    (start : p % 4096 = 0) (bound : n < maxmalloc) (size : n % 4 = 0)
    (free : ∀ j, j < pageCount n → h.pages (p / 4096 + j) = none) (partly : n % 4096 ≠ 0) :
    Exact mapped ⟨p + n, takeRun h.pages p n⟩ (if p = 0 then live else (p, n) :: live) := by
  have used : ∀ q page, h.pages q = some page → q < p / 4096 ∨ lastPage (p, n) < q := fun q page =>
    outside_free start free
  have own : ∀ q, p / 4096 ≤ q → q ≤ lastPage (p, n) → mapped q = false := by
    intro q first end_
    by_contra kept
    obtain ⟨page, shown⟩ := Option.isSome_iff_exists.mp (exact_.kept q (by simpa using kept))
    have apart := used q page shown
    omega
  have reach : p / 4096 ≤ lastPage (p, n) := by unfold lastPage; dsimp only; omega
  have cursor : (p + n) % 4096 ≠ 0 ∧ (p + n) / 4096 = lastPage (p, n) := by
    unfold lastPage; dsimp only; omega
  -- At address 0 the call fails after all, but that run ends below the arena.
  have below : ∀ q, InHeap mapped q → q ≤ lastPage (p, n) → p ≠ 0 := by
    rintro q heap end_ rfl
    have low := heap.low
    unfold mbegin at low
    unfold maxmalloc at bound
    unfold lastPage at end_
    dsimp only at end_
    omega
  have unheld : holders live (lastPage (p, n)) = 0 := by
    refine List.countP_eq_zero.mpr fun b member same => ?_
    obtain ⟨w, page⟩ := good.last b member
    have apart := used _ _ page
    simp only [decide_eq_true_eq] at same
    omega
  have held : ∀ q, holders (if p = 0 then live else (p, n) :: live) q =
      holders live q + if p ≠ 0 ∧ lastPage (p, n) = q then 1 else 0 := by
    intro q
    split <;> simp [Good.holders_cons, *]
  have left : ∀ q, cursorRef h.mptr q = 0 := by simp [cursorRef, from_]
  have taken : ∀ q, cursorRef (p + n) q = if lastPage (p, n) = q then 1 else 0 := by
    simp [cursorRef, cursor]
  have page := takeRun_apply h.pages n start
  obtain ⟨⟨kept, -, blocks⟩, count, runs⟩ := exact_
  refine ⟨⟨fun q => ?_, fun _ => own _ (cursor.2 ▸ reach) cursor.2.le, ?_⟩, fun q x b heap => ?_,
    fun q x b heap => ?_⟩
  · grind -ring -linarith
  · grind -ring -linarith
  · simp only [held, taken]
    grind -ring -linarith
  · grind -ring -linarith

theorem place (exact_ : Exact mapped h live) (good : Good h live) {avail n v : Nat}
    (start : h.mptr % 4096 = 0) (size : n % 4 = 0) (bound : n < maxmalloc) (partly : n % 4096 ≠ 0)
    (done : h.place avail n = .ok (v, h')) :
    Exact mapped h' (if v = 0 then live else (v, n) :: live) := by
  unfold Heap.place at done
  generalize result : search h.pages n (2 ^ 21) h.mptr 0 = r at done
  cases r with
  | none => cases done
  | some r =>
    obtain ⟨p, found⟩ := r
    obtain ⟨start', -, free⟩ := search_spec start good.aligned.1 result
    obtain ⟨rfl, rfl⟩ | ⟨rfl, -, free, rfl⟩ := allocAt_cases free bound done
    · exact exact_.moveTo start start'
    · exact exact_.fresh good start start' bound size free partly

theorem malloc (exact_ : Exact mapped h live) (good : Good h live) {avail n v : Nat}
    (room : ∀ page, h.pages (h.mptr / 4096) = some page → page.word + 1 < 2 ^ 32)
    (partly : roundUp n % 4096 = 0 → maxmalloc ≤ roundUp n ∨ roundUp n = 0 ∧ h.mptr % 4096 ≠ 0)
    (done : h.malloc avail n = .ok (v, h')) :
    Exact mapped h' (if v = 0 then live else (v, roundUp n) :: live) := by
  obtain ⟨size, -⟩ := roundUp_spec n
  have good' := good.init
  have exact' := exact_.init
  have same : h.init.mptr % 4096 ≠ 0 → h.init = h := by
    unfold Heap.init
    split
    · exact fun mid => absurd (show mbegin % 4096 = 0 from rfl) mid
    · exact fun _ => rfl
  simp only [Heap.malloc] at done
  split at done
  · obtain ⟨rfl, rfl⟩ := Prod.mk.inj (Except.ok.inj done)
    exact exact'
  next bound =>
    split at done
    next mid =>
      have same := same mid
      rw [same] at done mid
      have four := good.aligned.2
      split at done
      next fits =>
        have value := (good.bump mid size (by omega) fits room done).1
        rw [value, if_neg (by omega)]
        exact exact_.bump good mid (by omega) fits room done
      next crowded =>
        -- An empty block fits into any page, so that this one is not empty.
        have partly : roundUp n % 4096 ≠ 0 := by
          intro whole
          have empty := ((partly whole).resolve_left bound).1
          have small := good.aligned.1
          rw [empty] at crowded
          omega
        split at done
        · cases done
        next left freed =>
          have start : (left.mptr + 4096) % 2 ^ 32 / 4096 * 4096 % 4096 = 0 := Nat.mul_mod_left ..
          obtain ⟨-, after⟩ := good.leave mid freed _ start (by omega)
          exact (exact_.leave good mid freed start).place after start size (by omega) partly done
    next start =>
      have partly : roundUp n % 4096 ≠ 0 := by
        intro whole
        have mid := ((partly whole).resolve_left bound).2
        have still : h.init = h := if_neg fun zero => mid (by rw [zero])
        rw [still] at start
        exact start mid
      exact exact'.place good' (by omega) size (by omega) partly done

theorem store (exact_ : Exact mapped h live) (good : Good h live) {b : Nat × Nat}
    (member : b ∈ live) {a : Nat} (word : Nat) (low : b.1 ≤ a) (high : a < b.1 + b.2) :
    Exact mapped (HeapRun.store h a word) live := by
  have untouched := (exact_.toUntouched.store a word).2
  unfold HeapRun.store at untouched ⊢
  split
  · exact exact_
  next page shown =>
    rw [shown] at untouched
    split
    next end_ =>
      have inside : a / 4096 < lastPage b := by unfold lastPage; omega
      obtain ⟨w, run⟩ := good.run b member (a / 4096) (by omega) inside
      obtain rfl := Option.some.inj (shown.symm.trans run)
      simp only [end_, if_true] at untouched
      obtain ⟨-, count, runs⟩ := exact_
      refine ⟨untouched, fun q x b heap => ?_, fun q x b heap => ?_⟩ <;>
        simp only [update_apply] <;> grind -ring -linarith
    · exact exact_

end Exact

end Heap

namespace HeapRun

open Heap

-- The block does not fill whole pages, is too large to be granted, or is an empty one in the page
-- of the cursor.
def Reclaims (s : HeapRun) (event : HeapEvent) : Prop :=
  s.NoOverflow event ∧
    match event with
    | .malloc n _ =>
      roundUp n.toNat % 4096 = 0 → maxmalloc ≤ roundUp n.toNat ∨ roundUp n.toNat = 0 ∧
        s.heap.mptr % 4096 ≠ 0
    | _ => True

theorem start_exact (mapped writable : Nat → Bool) :
    Exact mapped (start mapped writable).heap (start mapped writable).live where
  toUntouched := (start_tidy mapped writable).untouched
  count q w b heap here := by simp [start, heap.own] at here
  runs q w b heap here := by simp [start, heap.own] at here

theorem step_exact {mapped : Nat → Bool} {s s' : HeapRun} {event : HeapEvent}
    (exact_ : Exact mapped s.heap s.live) (good : Good s.heap s.live) (allowed : s.Reclaims event)
    (next : s.step event = some s') : Exact mapped s'.heap s'.live := by
  cases event with
  | malloc n avail =>
    simp only [step] at next
    split at next
    · cases next
    next v h done =>
      obtain rfl := Option.some.inj next
      exact exact_.malloc good allowed.1 allowed.2 done
  | free v n =>
    simp only [step] at next
    split at next
    next member =>
      split at next
      · cases next
      next h done =>
        obtain rfl := Option.some.inj next
        exact exact_.free good (b := (v, n)) member done
    · cases next
  | store v n a word =>
    simp only [step] at next
    split at next
    next here =>
      obtain rfl := Option.some.inj next
      exact exact_.store good here.1 word here.2.1 here.2.2
    · cases next

theorem pages_reclaimed (mapped writable : Nat → Bool) (events : List HeapEvent) (s : HeapRun)
    (run : Run step Reclaims (start mapped writable) events s) (empty : s.live = []) (q : Nat)
    (low : mbegin ≤ 4096 * q) (high : 4096 * q < mend) (own : mapped q = false)
    (left : (s.heap.pages q).isSome) : s.heap.mptr % 4096 ≠ 0 ∧ s.heap.mptr / 4096 = q := by
  have both : Good s.heap s.live ∧ Exact mapped s.heap s.live :=
    run.invariant (motive := fun s => Good s.heap s.live ∧ Exact mapped s.heap s.live)
      ⟨start_good mapped writable, start_exact mapped writable⟩ fun _ _ _ both allowed next =>
        ⟨step_good both.1 allowed.1 next, step_exact both.2 both.1 allowed next⟩
  have exact_ := both.2
  rw [empty] at exact_
  obtain ⟨⟨cont, w, writable⟩, here⟩ := Option.isSome_iff_exists.mp left
  cases cont with
  | true =>
    obtain ⟨b, member, -⟩ := exact_.runs q w _ ⟨low, high, own⟩ here
    cases member
  | false =>
    obtain ⟨count, held⟩ := exact_.count q w _ ⟨low, high, own⟩ here
    by_contra elsewhere
    have none_ : cursorRef s.heap.mptr q = 0 := if_neg elsewhere
    simp only [holders, List.countP_nil, none_] at count
    omega

instance (s : HeapRun) (event : HeapEvent) : Decidable (s.Reclaims event) :=
  match event with
  | .malloc _ _ => inferInstanceAs (Decidable (_ ∧ (_ → _)))
  | .free _ _ | .store _ _ _ _ => inferInstanceAs (Decidable (_ ∧ True))

theorem pages_reclaimed_two : ∃ s : HeapRun,
    Run step Reclaims (start (fun q => q == 0x8001) fun _ => false)
      [.malloc 8 9, .malloc 5000 9, .free 0x08000000 8, .free 0x08002000 5000] s ∧
      s.live = [] ∧ (s.heap.pages 0x8003).isSome ∧ s.heap.mptr % 4096 ≠ 0 ∧
      s.heap.mptr / 4096 = 0x8003 := by
  refine Run.of_exec_imp (p := fun s => s.live = [] ∧ (s.heap.pages 0x8003).isSome)
    (by decide +kernel) ?_
  rintro s run ⟨empty, left⟩
  exact ⟨empty, left, pages_reclaimed _ _ _ s run empty 0x8003 (by decide) (by decide) rfl left⟩

-- A block of one page leaves the page with its count behind, each time.
theorem pages_leaked : ∃ s : HeapRun,
    Run step (fun _ _ => True) (start (fun _ => false) fun _ => false)
      [.malloc 4096 9, .free 0x08000000 4096, .malloc 4096 9, .free 0x08002000 4096] s ∧
      s.live = [] ∧ (s.heap.pages 0x8001).isSome ∧ (s.heap.pages 0x8003).isSome ∧
      s.heap.mptr % 4096 = 0 :=
  Run.of_exec_any (by decide +kernel)

end HeapRun

end Jos.Lib
