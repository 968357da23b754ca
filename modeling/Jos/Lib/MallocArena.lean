import Jos.Lib.MallocHeap

namespace Jos.Lib

open Jos.Shared
open Jos.Kern (Word)
open Function

namespace Heap

def InArena (h : Heap) : Prop := h.mptr = 0 ∨ mbegin ≤ h.mptr ∧ h.mptr < mend

def Suitable (pages : HeapPages) (n p : Nat) : Prop :=
  p % 4096 = 0 ∧ mbegin ≤ p ∧ p + 4096 * pageCount n ≤ mend ∧ ∀ j, j < pageCount n →
    pages (p / 4096 + j) = none

theorem isfree_of_suitable {pages : HeapPages} {n p : Nat} (small : n < maxmalloc)
    (suitable : Suitable pages n p) : isfree pages p (n + 4) = true := by
  obtain ⟨start, -, high, free⟩ := suitable
  unfold maxmalloc at small
  unfold mend at high
  have end_ : (p + (n + 4)) % 2 ^ 32 = p + (n + 4) := by unfold pageCount at high; omega
  have count : (p + (n + 4) - p + 4095) / 4096 = pageCount n := by unfold pageCount; omega
  rw [isfree, end_, count, List.all_eq_true]
  intro j inside
  have inside := List.mem_range.mp inside
  simp only [free j inside, Option.isNone_none, Bool.and_true, decide_eq_true_eq]
  unfold mend
  omega

theorem search_arena {pages : HeapPages} {n fuel m nwrap : Nat} (start : m % 4096 = 0)
    (low : mbegin ≤ m) (high : m < mend) (wraps : nwrap ≤ 1)
    (enough : (mend - m) / 4096 + (1 - nwrap) * 0x8000 ≤ fuel) :
    (∃ p, search pages n fuel m nwrap = some (p, true) ∧ p % 4096 = 0 ∧ mbegin ≤ p ∧ p < mend ∧
        isfree pages p (n + 4) = true) ∨
      search pages n fuel m nwrap = some (mbegin, false) ∧
        (∀ q, q % 4096 = 0 → m ≤ q → q < mend → isfree pages q (n + 4) = false) ∧
        (nwrap = 0 → ∀ q, q % 4096 = 0 → mbegin ≤ q → q < mend → isfree pages q (n + 4) = false) := by
  induction fuel generalizing m nwrap with
  | zero =>
    unfold mend at enough high
    omega
  | succ fuel ih =>
    unfold search
    split
    next free => exact .inl ⟨m, rfl, start, low, high, free⟩
    next taken =>
      have taken : isfree pages m (n + 4) = false := by simpa using taken
      have next : (m + 4096) % 2 ^ 32 = m + 4096 := by unfold mend at high; omega
      have above : ∀ q, q % 4096 = 0 → m ≤ q → q = m ∨ m + 4096 ≤ q := fun q aligned later => by omega
      simp only [next]
      split
      next end_ =>
        have last : ∀ q, q % 4096 = 0 → m ≤ q → q < mend → isfree pages q (n + 4) = false := by
          intro q aligned later before
          obtain rfl | more := above q aligned later
          · exact taken
          · omega
        split
        · exact .inr ⟨rfl, last, by omega⟩
        · obtain rfl : nwrap = 0 := by omega
          have more : (mend - mbegin) / 4096 + (1 - (0 + 1)) * 0x8000 ≤ fuel := by
            unfold mend mbegin at *
            omega
          obtain found | ⟨stops, all, -⟩ := ih rfl (le_refl mbegin) (by decide) (by decide) more
          · exact .inl found
          · exact .inr ⟨stops, last, fun _ => all⟩
      next inside =>
        have high' : m + 4096 < mend := by unfold mend at *; omega
        have more : (mend - (m + 4096)) / 4096 + (1 - nwrap) * 0x8000 ≤ fuel := by
          unfold mend at *
          omega
        obtain found | ⟨stops, rest, all⟩ := ih (m := m + 4096) (by omega) (by omega) high' wraps more
        · exact .inl found
        · refine .inr ⟨stops, fun q aligned later before => ?_, all⟩
          obtain rfl | more := above q aligned later
          · exact taken
          · exact rest q aligned more before

structure Untouched (mapped : Nat → Bool) (h : Heap) (live : List (Nat × Nat)) : Prop where
  kept : ∀ q, mapped q = true → (h.pages q).isSome
  cursor : h.mptr % 4096 ≠ 0 → mapped (h.mptr / 4096) = false
  blocks : ∀ b ∈ live, ∀ q, b.1 / 4096 ≤ q → q ≤ lastPage b → mapped q = false

/-- What a call of `malloc` may leave behind when it answers `v`. -/
structure Usable (mapped : Nat → Bool) (live : List (Nat × Nat)) (avail n v : Nat) (h : Heap) : Prop where
  block : v ≠ 0 → mbegin ≤ v ∧ v + n ≤ mend ∧ ∀ x, v ≤ x → x < v + n →
    (h.pages (x / 4096)).any HeapPage.writable
  null : v = 0 → (∀ p, ¬ Suitable h.pages n p) ∨ avail < pageCount n
  arena : h.InArena
  untouched : Untouched mapped h (if v = 0 then live else (v, n) :: live)

section Malloc

variable {mapped : Nat → Bool} {live : List (Nat × Nat)} {h : Heap}

theorem Untouched.moveTo (untouched : Untouched mapped h live) {mptr : Nat} (start : mptr % 4096 = 0) :
    Untouched mapped ⟨mptr, h.pages⟩ live :=
  ⟨untouched.kept, fun mid => absurd start mid, untouched.blocks⟩

theorem allocAt_usable {avail n p : Nat} (untouched : Untouched mapped h live)
    (start : p % 4096 = 0) (low : mbegin ≤ p) (high : p < mend) (bound : n < maxmalloc)
    (free : isfree h.pages p (n + 4) = true) :
    ∃ v h', allocAt h.pages avail n (p, true) = .ok (v, h') ∧ Usable mapped live avail n v h' := by
  have free := isfree_spec bound (by unfold mend at high; unfold utop; omega) free
  have count_pos : 0 < pageCount n := by unfold pageCount; omega
  have begin_ : mapRun h.pages p n 0 = h.pages := by
    funext q
    exact if_neg (by omega)
  have outcome := allocRun_spec n avail (pageCount n) 0 (fun _ i inside => free i (by omega)) (.inr rfl)
  rw [begin_, Nat.zero_add] at outcome
  have last := (free (pageCount n - 1) (by omega)).1
  have nonzero : p ≠ 0 := by unfold mbegin at low; omega
  obtain ⟨done, -⟩ | ⟨failed, short⟩ := outcome
  · have end_ : mapRun h.pages p n (pageCount n) (p / 4096 + pageCount n - 1) =
      some ⟨false, 0, true⟩ := by
      rw [mapRun, if_pos (by omega)]
      have none_ : ¬ 4096 * (p / 4096 + pageCount n - 1 - p / 4096 + 1) < n + 4 := by
        unfold pageCount; omega
      simp [none_]
    have room : p + n + 4 ≤ mend := by unfold pageCount at last; unfold mend at *; omega
    have sum : (p + n) % 2 ^ 32 = p + n := by unfold mend at room; omega
    have range : ∀ q, p / 4096 ≤ q → q ≤ lastPage (p, n) → p / 4096 ≤ q ∧ q < p / 4096 + pageCount n := by
      intro q first end_
      unfold lastPage at end_
      unfold pageCount
      dsimp only at end_
      omega
    have fresh : ∀ q, p / 4096 ≤ q → q ≤ lastPage (p, n) → mapped q = false := by
      intro q first end_
      have none_ := (free (q - p / 4096) (by have := range q first end_; omega)).2
      rw [show p / 4096 + (q - p / 4096) = q by omega] at none_
      have kept := untouched.kept q
      grind -ring -linarith
    have shown : ∀ q, (h.pages q).isSome ∨ p / 4096 ≤ q ∧ q < p / 4096 + pageCount n →
        (update (mapRun h.pages p n (pageCount n)) (p / 4096 + pageCount n - 1)
          (some ⟨false, 2, true⟩) q).isSome := by
      grind -ring -linarith [update_apply, mapRun]
    have writes : ∀ q, p / 4096 ≤ q ∧ q < p / 4096 + pageCount n →
        (update (mapRun h.pages p n (pageCount n)) (p / 4096 + pageCount n - 1)
          (some ⟨false, 2, true⟩) q).any HeapPage.writable := by
      grind -ring -linarith [update_apply, mapRun]
    refine ⟨p, _, by simp only [allocAt, done, end_, sum]; rfl,
      ⟨fun _ => ⟨low, by omega, fun x first before => ?_⟩, fun zero => absurd zero nonzero, ?_, ?_⟩⟩
    · exact writes _ (range _ (by omega) (by unfold lastPage; dsimp only; omega))
    · exact .inr ⟨by dsimp only; omega, by dsimp only; omega⟩
    · rw [if_neg nonzero]
      refine ⟨fun q own => shown q (.inl (untouched.kept q own)), fun _ => ?_, fun b member => ?_⟩
      · exact fresh _ (by dsimp only; omega) (by unfold lastPage; dsimp only; omega)
      · obtain rfl | member := List.mem_cons.mp member
        · exact fresh
        · exact untouched.blocks b member
  · refine ⟨0, _, by simp only [allocAt, failed]; rfl,
      ⟨fun some_ => absurd rfl some_, fun _ => .inr (short ?_), .inr ⟨low, high⟩, ?_⟩⟩
    · unfold mend at high; unfold utop; omega
    · exact untouched.moveTo start

theorem place_usable {avail n : Nat} (untouched : Untouched mapped h live) (start : h.mptr % 4096 = 0)
    (low : mbegin ≤ h.mptr) (high : h.mptr < mend) (bound : n < maxmalloc) :
    ∃ v h', h.place avail n = .ok (v, h') ∧ Usable mapped live avail n v h' := by
  have enough : (mend - h.mptr) / 4096 + (1 - 0) * 0x8000 ≤ 2 ^ 21 := by
    unfold mend mbegin at *
    omega
  unfold place
  obtain ⟨p, found, aligned, low', high', free⟩ | ⟨stops, -, all⟩ :=
    search_arena (n := n) start low high (by decide) enough
  · rw [found]
    exact allocAt_usable untouched aligned low' high' bound free
  · rw [stops]
    refine ⟨0, ⟨mbegin, h.pages⟩, rfl, ⟨fun some_ => absurd rfl some_, fun _ => .inl fun p suitable => ?_,
      .inr ⟨le_refl mbegin, show mbegin < mend by decide⟩, ?_⟩⟩
    · have below : p < mend := by
        obtain ⟨-, -, inside, -⟩ := suitable
        unfold pageCount at inside
        omega
      have taken := all rfl p suitable.1 suitable.2.1 below
      rw [isfree_of_suitable bound suitable] at taken
      cases taken
    · exact untouched.moveTo rfl

theorem leave_done (good : Good h live) (arena : h.InArena) (mid : h.mptr % 4096 ≠ 0) :
    ∃ word, h.free h.mptr = .ok ⟨h.mptr, update h.pages (h.mptr / 4096) word⟩ := by
  obtain ⟨w, here⟩ := good.cursor mid
  have nonzero : h.mptr ≠ 0 := by omega
  have inside := arena.resolve_left nonzero
  have run : freeRun (2 ^ 16) h.pages (h.mptr / 4096) = .ok (h.pages, h.mptr / 4096) := by
    rw [show 2 ^ 16 = 65535 + 1 from rfl, freeRun, here]
    rfl
  unfold free
  rw [if_neg nonzero, if_pos inside, run]
  simp only [here]
  exact ⟨_, rfl⟩

theorem init_arena (arena : h.InArena) : mbegin ≤ h.init.mptr ∧ h.init.mptr < mend := by
  unfold init
  split
  · exact ⟨le_refl mbegin, show mbegin < mend by decide⟩
  next nonzero => exact arena.resolve_left nonzero

theorem Untouched.init (untouched : Untouched mapped h live) : Untouched mapped h.init live := by
  unfold Heap.init
  split
  · exact untouched.moveTo rfl
  · exact untouched

theorem bump_usable {avail n : Nat} (good : Good h live) (untouched : Untouched mapped h live)
    (mid : h.mptr % 4096 ≠ 0) (low : mbegin ≤ h.mptr) (high : h.mptr < mend) (bound : n < maxmalloc)
    (size : n % 4 = 0) (fits : h.mptr / 4096 = (h.mptr + n + 3) % 2 ^ 32 / 4096) :
    ∃ v h', h.bump n = .ok (v, h') ∧ Usable mapped live avail n v h' := by
  obtain ⟨w, here⟩ := good.cursor mid
  obtain ⟨-, four⟩ := good.aligned
  have nonzero : h.mptr ≠ 0 := by omega
  have page : (h.mptr + n + 3) / 4096 = h.mptr / 4096 := by unfold maxmalloc mend at *; omega
  have sum : (h.mptr + n) % 2 ^ 32 = h.mptr + n := by unfold mend at high; omega
  have own : ∀ q, h.mptr / 4096 ≤ q → q ≤ lastPage (h.mptr, n) → mapped q = false := by
    intro q first last
    obtain rfl : q = h.mptr / 4096 := by
      unfold lastPage at last
      dsimp only at last
      omega
    exact untouched.cursor mid
  have shown : ∀ q word, (h.pages q).isSome → (update h.pages (h.mptr / 4096) (some word) q).isSome := by
    grind -ring -linarith [update_apply]
  unfold bump
  rw [here]
  refine ⟨_, _, rfl, ⟨fun _ => ⟨low, by unfold mend at *; omega, fun x first before => ?_⟩,
    fun zero => absurd zero nonzero, ?_, ?_⟩⟩
  · dsimp only
    rw [show x / 4096 = h.mptr / 4096 by omega, update_self]
    rfl
  · exact .inr (by dsimp only; rw [sum]; unfold mend at *; omega)
  · rw [if_neg nonzero]
    refine ⟨fun q kept => shown q _ (untouched.kept q kept), fun _ => ?_, fun b member => ?_⟩
    · dsimp only
      rw [sum, show (h.mptr + n) / 4096 = h.mptr / 4096 by omega]
      exact untouched.cursor mid
    · obtain rfl | member := List.mem_cons.mp member
      · exact own
      · exact untouched.blocks b member

theorem leave_usable {n : Nat} (avail : Nat) (good : Good h live)
    (untouched : Untouched mapped h live) (mid : h.mptr % 4096 ≠ 0) (low : mbegin ≤ h.mptr)
    (high : h.mptr + 4096 < mend) (bound : n < maxmalloc) : ∃ left, h.free h.mptr = .ok left ∧
      ∃ v h', { left with mptr := (left.mptr + 4096) % 2 ^ 32 / 4096 * 4096 }.place avail n =
      .ok (v, h') ∧
        Usable mapped live avail n v h' := by
  obtain ⟨word, done⟩ := leave_done good (.inr ⟨low, by omega⟩) mid
  refine ⟨_, done, ?_⟩
  have next : (h.mptr + 4096) % 2 ^ 32 = h.mptr + 4096 := by unfold mend at high; omega
  dsimp only
  rw [next]
  refine place_usable ⟨fun q own => ?_, fun mid => ?_, untouched.blocks⟩ ?_ ?_ ?_ bound
  · have kept := untouched.kept q own
    have cursor := untouched.cursor mid
    grind -ring -linarith [update_apply]
  · dsimp only at mid
    omega
  · exact Nat.mul_mod_left ..
  · dsimp only; omega
  · dsimp only; omega

end Malloc

theorem Untouched.free {mapped : Nat → Bool} {live : List (Nat × Nat)} {h h' : Heap} {b : Nat × Nat}
    (untouched : Untouched mapped h live) (good : Good h live) (member : b ∈ live)
    (done : h.free b.1 = .ok h') : h'.mptr = h.mptr ∧ Untouched mapped h' (live.erase b) := by
  obtain ⟨nonzero, -⟩ := good.shape b member
  obtain ⟨w, here⟩ := good.last b member
  have count := good.count _ w _ here
  have held := Good.holders_pos member
  have low : b.1 / 4096 ≤ lastPage b := by unfold lastPage; omega
  rw [free_eq (good.run b member) here low ⟨by omega, good.word _ _ here⟩ nonzero done]
  refine ⟨rfl, fun q own => ?_, untouched.cursor,
    fun c inside => untouched.blocks c (List.mem_of_mem_erase inside)⟩
  have kept := untouched.kept q own
  have blocks := untouched.blocks b member q
  grind -ring -linarith [update_apply, unmapRange]

theorem Untouched.store {mapped : Nat → Bool} {live : List (Nat × Nat)} {h : Heap}
    (untouched : Untouched mapped h live) (a word : Nat) : (HeapRun.store h a word).mptr = h.mptr ∧
    Untouched mapped (HeapRun.store h a word) live := by
  unfold HeapRun.store
  split
  · exact ⟨rfl, untouched⟩
  next page shown =>
    split
    · refine ⟨rfl, fun q own => ?_, untouched.cursor, untouched.blocks⟩
      have kept := untouched.kept q own
      grind -ring -linarith [update_apply]
    · exact ⟨rfl, untouched⟩

-- The request is not one of the sizes that rounding carries over `MAXMALLOC` or around to 0, and
-- the cursor is not in the last page of the arena with too little room for it.
def Fair (h : Heap) (n : Nat) : Prop :=
  (n + 4 ≤ maxmalloc ∨ maxmalloc ≤ n ∧ n + 4 ≤ 2 ^ 32) ∧
    (n < maxmalloc → h.mptr % 4096 ≠ 0 → h.mptr / 4096 = mend / 4096 - 1 → h.mptr + roundUp n + 4 ≤ mend)

theorem malloc_usable {mapped : Nat → Bool} {live : List (Nat × Nat)} {h : Heap} {n : Nat} (avail : Nat)
    (good : Good h live) (arena : h.InArena) (untouched : Untouched mapped h live) (fair : h.Fair n) :
    ∃ v h', h.malloc avail n = .ok (v, h') ∧ n ≤ roundUp n ∧ h'.InArena ∧
      (v = 0 ∧ maxmalloc ≤ n ∧ Untouched mapped h' live ∨ Usable mapped live avail (roundUp n) v h') := by
  obtain ⟨size, room⟩ := fair
  obtain ⟨four, -⟩ := roundUp_spec n
  obtain ⟨low, high⟩ := init_arena arena
  have rounded : n ≤ roundUp n ∧ roundUp n ≤ n + 3 := by
    unfold roundUp maxmalloc at *
    omega
  have good' := good.init
  have untouched' := untouched.init
  suffices h.malloc avail n = .ok (0, h.init) ∧ maxmalloc ≤ n ∨
      ∃ v h', h.malloc avail n = .ok (v, h') ∧ Usable mapped live avail (roundUp n) v h' by
    obtain ⟨done, large⟩ | ⟨v, h', done, usable⟩ := this
    · exact ⟨0, _, done, rounded.1, .inr ⟨low, high⟩, .inl ⟨rfl, large, untouched'⟩⟩
    · exact ⟨v, h', done, rounded.1, usable.arena, .inr usable⟩
  simp only [malloc]
  split
  next large => exact .inl ⟨rfl, by unfold maxmalloc at *; omega⟩
  next bound =>
    refine .inr ?_
    split
    next mid =>
      have same : h.init.mptr = h.mptr := by
        unfold init at mid ⊢
        split at mid
        · exact absurd (show mbegin % 4096 = 0 from rfl) mid
        next nonzero => rw [if_neg nonzero]
      split
      next fits => exact bump_usable good' untouched' mid low high (by omega) four fits
      next crowded =>
        have room := room (by omega) (same ▸ mid)
        have before : h.init.mptr + 4096 < mend := by
          rw [same] at crowded mid high low ⊢
          unfold mend maxmalloc at *
          omega
        obtain ⟨left, freed, v, h', done, usable⟩ :=
          leave_usable avail good' untouched' mid low before (not_le.mp bound)
        rw [freed]
        exact ⟨v, h', done, usable⟩
    next start => exact place_usable untouched' (by omega) low high (by omega)

end Heap

namespace HeapRun

open Heap

def Fair (s : HeapRun) (event : HeapEvent) : Prop :=
  s.NoOverflow event ∧
    match event with
    | .malloc n _ => s.heap.Fair n.toNat
    | _ => True

structure Tidy (mapped : Nat → Bool) (s : HeapRun) : Prop where
  good : Good s.heap s.live
  arena : s.heap.InArena
  untouched : Untouched mapped s.heap s.live

theorem start_tidy (mapped writable : Nat → Bool) : Tidy mapped (start mapped writable) where
  good := start_good mapped writable
  arena := .inl rfl
  untouched := ⟨fun q own => by simp [start, own], fun mid => absurd rfl mid, nofun⟩

theorem step_tidy {mapped : Nat → Bool} {s s' : HeapRun} {event : HeapEvent} (tidy : Tidy mapped s)
    (fair : s.Fair event) (next : s.step event = some s') : Tidy mapped s' := by
  have good := step_good tidy.good fair.1 next
  cases event with
  | malloc n avail =>
    obtain ⟨v, h, done, -, arena, result⟩ :=
      malloc_usable avail tidy.good tidy.arena tidy.untouched fair.2
    simp only [step, done, Option.some.injEq] at next
    obtain rfl := next
    refine ⟨good, arena, ?_⟩
    obtain ⟨rfl, -, untouched⟩ | usable := result
    · exact untouched
    · exact usable.untouched
  | free v n =>
    simp only [step] at next
    split at next
    next member =>
      split at next
      · cases next
      next h done =>
        obtain rfl := Option.some.inj next
        obtain ⟨same, untouched⟩ := tidy.untouched.free (b := (v, n)) tidy.good member done
        exact ⟨good, by unfold InArena; dsimp only; rw [same]; exact tidy.arena, untouched⟩
    · cases next
  | store v n a word =>
    simp only [step] at next
    split at next
    next here =>
      obtain rfl := Option.some.inj next
      obtain ⟨same, untouched⟩ := tidy.untouched.store a word
      exact ⟨good, by unfold InArena; dsimp only; rw [same]; exact tidy.arena, untouched⟩
    · cases next

theorem results_usable (mapped writable : Nat → Bool) (events : List HeapEvent) (s : HeapRun)
    (run : Run step Fair (start mapped writable) events s) (n : Word) (avail : Nat)
    (fair : s.Fair (.malloc n avail)) : ∃ v h, s.heap.malloc avail n.toNat = .ok (v, h) ∧
      (v ≠ 0 → mbegin ≤ v ∧ v + n.toNat ≤ mend ∧
        ∀ x, v ≤ x → x < v + n.toNat → (h.pages (x / 4096)).any HeapPage.writable ∧
        mapped (x / 4096) = false) ∧
      (v = 0 → (∀ p, ¬ Suitable h.pages (roundUp n.toNat) p) ∨ maxmalloc ≤ n.toNat ∨
      avail < pageCount (roundUp n.toNat)) := by
  have tidy : Tidy mapped s :=
    run.invariant (motive := Tidy mapped) (start_tidy mapped writable) fun _ _ _ tidy fair next =>
      step_tidy tidy fair next
  obtain ⟨v, h, done, rounded, -, result⟩ :=
    malloc_usable avail tidy.good tidy.arena tidy.untouched fair.2
  refine ⟨v, h, done, ?_⟩
  obtain ⟨rfl, large, -⟩ | usable := result
  · exact ⟨fun some_ => absurd rfl some_, fun _ => .inr (.inl large)⟩
  · refine ⟨fun some_ => ?_, fun zero => (usable.null zero).imp_right .inr⟩
    obtain ⟨low, high, shown⟩ := usable.block some_
    refine ⟨low, by omega, fun x first before => ⟨shown x first (by omega), ?_⟩⟩
    have untouched := usable.untouched
    rw [if_neg some_] at untouched
    exact untouched.blocks _ List.mem_cons_self _ (by dsimp only; omega)
      (by unfold lastPage; dsimp only; omega)

instance (s : HeapRun) (event : HeapEvent) : Decidable (s.Fair event) :=
  match event with
  | .malloc _ _ => inferInstanceAs (Decidable (_ ∧ (_ ∧ _)))
  | .free _ _ | .store _ _ _ _ => inferInstanceAs (Decidable (_ ∧ True))

theorem results_usable_third : ∃ s : HeapRun,
    Run step Fair (start (fun q => q == 0x8001) fun _ => false) [.malloc 8 9, .malloc 5000 9] s ∧
      ∃ v h, s.heap.malloc 9 100 = .ok (v, h) ∧ v = 0x08003388 ∧ v + 100 ≤ mend ∧
        ∀ x, v ≤ x → x < v + 100 → (h.pages (x / 4096)).any HeapPage.writable ∧
        (x / 4096 == 0x8001) = false := by
  refine Run.of_exec_imp
    (p := fun s => s.Fair (.malloc 100 9) ∧
    (s.heap.malloc 9 100).toOption.map Prod.fst = some 0x08003388) (by decide +kernel) ?_
  rintro s run ⟨fair, value⟩
  obtain ⟨v, h, done, block, -⟩ := results_usable _ _ _ s run 100 9 fair
  have done : s.heap.malloc 9 100 = .ok (v, h) := done
  rw [done] at value
  obtain rfl : v = 0x08003388 := Option.some.inj value
  obtain ⟨-, high, shown⟩ := block (by decide)
  exact ⟨_, h, done, rfl, high, shown⟩

-- A request for all but one byte of the address space rounds to 0 and is granted.
theorem size_wraps :
    ((start (fun _ => false) fun _ => false).heap.malloc 9 0xFFFFFFFF).toOption.map Prod.fst =
    some mbegin ∧ mend < mbegin + 0xFFFFFFFF := by
  decide +kernel

end HeapRun

end Jos.Lib
