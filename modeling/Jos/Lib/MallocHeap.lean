import Jos.Lib.Malloc

namespace Jos.Lib

open Jos.Shared
open Function

def lastPage (b : Nat × Nat) : Nat := (b.1 + b.2 + 3) / 4096

def holders (live : List (Nat × Nat)) (q : Nat) : Nat := live.countP fun b => lastPage b = q

namespace Heap

def cursorRef (mptr q : Nat) : Nat := if mptr % 4096 ≠ 0 ∧ mptr / 4096 = q then 1 else 0

structure Good (h : Heap) (live : List (Nat × Nat)) : Prop where
  shape : ∀ b ∈ live, b.1 ≠ 0 ∧ b.1 % 4 = 0 ∧ b.2 % 4 = 0 ∧ (b.1 / 4096 < lastPage b → b.1 % 4096 = 0)
  run : ∀ b ∈ live, ∀ q, b.1 / 4096 ≤ q → q < lastPage b → ∃ w, h.pages q = some ⟨true, w, true⟩
  last : ∀ b ∈ live, ∃ w, h.pages (lastPage b) = some ⟨false, w, true⟩
  -- References may have been lost, so that the count can be too large.
  count : ∀ q w b, h.pages q = some ⟨false, w, b⟩ → holders live q + cursorRef h.mptr q ≤ w
  word : ∀ q page, h.pages q = some page → page.word < 2 ^ 32
  apart : live.Pairwise fun a b => a.1 + a.2 ≤ b.1 ∨ b.1 + b.2 ≤ a.1
  cursor : h.mptr % 4096 ≠ 0 → ∃ w, h.pages (h.mptr / 4096) = some ⟨false, w, true⟩
  above : h.mptr % 4096 ≠ 0 → ∀ b ∈ live, b.1 + b.2 ≤ h.mptr ∨ h.mptr / 4096 < b.1 / 4096
  aligned : h.mptr < 2 ^ 32 ∧ h.mptr % 4 = 0

theorem roundUp_spec (n : Nat) : roundUp n % 4 = 0 ∧ roundUp n < 2 ^ 32 := by
  unfold roundUp
  omega

namespace Good

variable {h h' : Heap} {live : List (Nat × Nat)}

theorem moveTo (good : Good h live) (mptr : Nat) (start : mptr % 4096 = 0) (small : mptr < 2 ^ 32) :
    Good { h with mptr := mptr } live :=
  { good with
    count := fun q w b here => by
      have count := good.count q w b here
      have none_ : cursorRef mptr q = 0 := by simp [cursorRef, start]
      show holders live q + cursorRef mptr q ≤ w
      omega
    cursor := fun mid => absurd start mid
    above := fun mid => absurd start mid
    aligned := ⟨small, by show mptr % 4 = 0; omega⟩ }

theorem init (good : Good h live) : Good h.init live := by
  unfold Heap.init
  split
  · exact good.moveTo mbegin rfl (by decide)
  · exact good

theorem cursorRef_self {mptr : Nat} (mid : mptr % 4096 ≠ 0) : cursorRef mptr (mptr / 4096) = 1 := by
  simp [cursorRef, mid]

theorem holders_cons (b : Nat × Nat) (q : Nat) :
    holders (b :: live) q = holders live q + if lastPage b = q then 1 else 0 := by
  simp [holders, List.countP_cons]

theorem holders_pos {b : Nat × Nat} (member : b ∈ live) : 0 < holders live (lastPage b) :=
  List.countP_pos_iff.mpr ⟨b, member, by simp⟩

theorem holders_erase {b : Nat × Nat} (member : b ∈ live) (q : Nat) :
    holders (live.erase b) q + (if lastPage b = q then 1 else 0) = holders live q := by
  have perm := (List.perm_cons_erase member).countP_eq fun c => decide (lastPage c = q)
  rw [List.countP_cons] at perm
  simpa [holders] using perm.symm

theorem bump (good : Good h live) {n v : Nat} (mid : h.mptr % 4096 ≠ 0) (size : n % 4 = 0)
    (bound : n < maxmalloc) (fits : h.mptr / 4096 = (h.mptr + n + 3) % 2 ^ 32 / 4096)
    (room : ∀ page, h.pages (h.mptr / 4096) = some page → page.word + 1 < 2 ^ 32)
    (done : h.bump n = .ok (v, h')) : v = h.mptr ∧ Good h' ((v, n) :: live) := by
  obtain ⟨w, here⟩ := good.cursor mid
  have most := room _ here
  have count := good.count _ w _ here
  have one := cursorRef_self mid
  unfold maxmalloc at bound
  obtain ⟨shape, runs, last, counts, words, apart, cursor, above, small, four⟩ := good
  have same : lastPage (h.mptr, n) = h.mptr / 4096 := by unfold lastPage; omega
  have after : (h.mptr + n) / 4096 = h.mptr / 4096 := by omega
  simp only [Heap.bump, here, Except.ok.injEq, Prod.mk.injEq] at done
  obtain ⟨rfl, rfl⟩ := done
  rw [Nat.mod_eq_of_lt (show h.mptr + n < 2 ^ 32 by omega), Nat.mod_eq_of_lt most]
  refine ⟨rfl, ?_, ?_, ?_, ?_, ?_, ?_, ?_, ?_, by dsimp only; omega, by dsimp only; omega⟩
  all_goals simp only [update_apply, holders_cons, List.pairwise_cons, List.mem_cons, same, after]
  case refine_4 => grind -ring -linarith [cursorRef]
  all_goals grind -ring -linarith [lastPage]

end Good

def unmapRange (pages : HeapPages) (lo hi : Nat) : HeapPages :=
  fun q => if lo ≤ q ∧ q < hi then none else pages q

def release (w : Nat) : Option HeapPage := if w = 1 then none else some ⟨false, w - 1, true⟩

theorem freeRun_eq {fuel c last w : Nat} {pages : HeapPages} {r : HeapPages × Nat}
    (run : ∀ q, c ≤ q → q < last → ∃ w, pages q = some ⟨true, w, true⟩)
    (here : pages last = some ⟨false, w, true⟩) (low : c ≤ last)
    (done : freeRun fuel pages c = .ok r) : r = (unmapRange pages c last, last) := by
  induction fuel generalizing pages c with
  | zero => cases done
  | succ fuel ih =>
    obtain rfl | more := Nat.eq_or_lt_of_le low
    · simp only [freeRun, here, Bool.false_eq_true, if_false, Except.ok.injEq] at done
      rw [← done]
      have none_ : unmapRange pages c c = pages := by
        funext q
        exact if_neg (by omega)
      rw [none_]
    · obtain ⟨x, first⟩ := run c (le_refl c) more
      simp only [freeRun, first, if_true] at done
      split at done
      · have rest : ∀ q, c + 1 ≤ q → q < last → ∃ w, update pages c none q = some ⟨true, w, true⟩ := by
          intro q above below
          rw [update_of_ne (by omega)]
          exact run q (by omega) below
        have end_ : update pages c none last = some ⟨false, w, true⟩ := by
          rw [update_of_ne (by omega)]
          exact here
        rw [ih rest end_ more done]
        have same : unmapRange (update pages c none) (c + 1) last = unmapRange pages c last := by
          funext q
          unfold unmapRange
          by_cases this : q = c
          · simp [this, more]
          · rw [update_of_ne this]
            have iff_ : c + 1 ≤ q ∧ q < last ↔ c ≤ q ∧ q < last := by omega
            simp only [iff_]
        rw [same]
      · cases done

theorem free_eq {h h' : Heap} {v last w : Nat}
    (run : ∀ q, v / 4096 ≤ q → q < last → ∃ w, h.pages q = some ⟨true, w, true⟩)
    (here : h.pages last = some ⟨false, w, true⟩) (low : v / 4096 ≤ last)
    (word : 0 < w ∧ w < 2 ^ 32) (nonzero : v ≠ 0) (done : h.free v = .ok h') :
    h' = ⟨h.mptr, update (unmapRange h.pages (v / 4096) last) last (release w)⟩ := by
  simp only [free, nonzero, if_false] at done
  split at done
  · split at done
    · cases done
    next pages c found =>
      obtain ⟨rfl, rfl⟩ := Prod.mk.inj (freeRun_eq run here low found)
      have at_ : unmapRange h.pages (v / 4096) c c = some ⟨false, w, true⟩ := by
        rw [← here]
        exact if_neg (by omega)
      have less : (w + (2 ^ 32 - 1)) % 2 ^ 32 = w - 1 := by omega
      simp only [at_, less, Except.ok.injEq] at done
      rw [← done, release]
      have iff_ : w - 1 = 0 ↔ w = 1 := by omega
      simp only [iff_]
  · cases done

namespace Good

variable {h h' : Heap} {live live' : List (Nat × Nat)}

theorem release (good : Good h live) {lo q₀ w mptr : Nat}
    (here : h.pages q₀ = some ⟨false, w, true⟩) (sub : live'.Sublist live)
    (unused : ∀ b ∈ live', ∀ q, b.1 / 4096 ≤ q → q ≤ lastPage b → q < lo ∨ q₀ ≤ q)
    (spare : holders live' q₀ + cursorRef mptr q₀ + 1 ≤ w) (stay : mptr = h.mptr ∨ mptr % 4096 = 0)
    (outside : mptr % 4096 ≠ 0 → mptr / 4096 < lo ∨ q₀ ≤ mptr / 4096)
    (aligned : mptr < 2 ^ 32 ∧ mptr % 4 = 0) :
    Good ⟨mptr, update (unmapRange h.pages lo q₀) q₀ (Heap.release w)⟩ live' := by
  have pages : ∀ q, update (unmapRange h.pages lo q₀) q₀ (Heap.release w) q =
      if q = q₀ then Heap.release w else if lo ≤ q ∧ q < q₀ then none else h.pages q := fun q =>
    update_apply ..
  have fewer : ∀ q, holders live' q ≤ holders live q := fun q => sub.countP_le
  have held : ∀ b ∈ live', 0 < holders live' (lastPage b) := fun b => holders_pos
  have order : ∀ b : Nat × Nat, b.1 / 4096 ≤ lastPage b := fun b => by unfold lastPage; omega
  have sub' : ∀ b ∈ live', b ∈ live := fun b member => sub.subset member
  have start : mptr % 4096 = 0 → ∀ q, cursorRef mptr q = 0 := fun start q => by simp [cursorRef, start]
  have mine : ∀ q, mptr % 4096 ≠ 0 → mptr / 4096 = q → cursorRef mptr q = 1 :=
    fun q mid same => if_pos ⟨mid, same⟩
  obtain ⟨shape, runs, last, counts, words, apart, cursor, above, -⟩ := good
  refine ⟨fun b member => shape b (sub' b member), ?_, ?_, ?_, ?_, apart.sublist sub, ?_, ?_, aligned⟩
  all_goals simp only [pages]
  · intro b member q low high
    have run := runs b (sub' b member) q low high
    have apart := unused b member q low (by omega)
    grind -ring -linarith
  all_goals grind -ring -linarith [Heap.release]

theorem leave (good : Good h live) (mid : h.mptr % 4096 ≠ 0) (done : h.free h.mptr = .ok h') (mptr : Nat)
    (start : mptr % 4096 = 0) (small : mptr < 2 ^ 32) : h'.mptr = h.mptr ∧
    Good { h' with mptr := mptr } live := by
  obtain ⟨w, here⟩ := good.cursor mid
  have count := good.count _ w _ here
  have word := good.word _ _ here
  have one := cursorRef_self mid
  have none_ : cursorRef mptr (h.mptr / 4096) = 0 := by simp [cursorRef, start]
  have empty : ∀ q, h.mptr / 4096 ≤ q → q < h.mptr / 4096 → ∃ w, h.pages q = some ⟨true, w, true⟩ :=
    fun q low high => by omega
  have after := free_eq empty here (le_refl _) ⟨by omega, word⟩ (by omega) done
  rw [after]
  refine ⟨rfl,
    good.release here (List.Sublist.refl live) ?_ (by omega) (.inr start)
    (fun mid => absurd start mid) ?_⟩
  · exact fun _ _ q _ _ => by omega
  · exact ⟨small, by omega⟩

theorem free (good : Good h live) {b : Nat × Nat} (member : b ∈ live) (done : h.free b.1 = .ok h') :
    Good h' (live.erase b) := by
  obtain ⟨nonzero, four, size, start⟩ := good.shape b member
  obtain ⟨w, here⟩ := good.last b member
  have count := good.count _ w _ here
  have word := good.word _ _ here
  have held := holders_pos member
  have low : b.1 / 4096 ≤ lastPage b := by unfold lastPage; omega
  have less := holders_erase member (lastPage b)
  rw [if_pos rfl] at less
  have apart : ∀ c ∈ live.erase b, b.1 + b.2 ≤ c.1 ∨ c.1 + c.2 ≤ b.1 := by
    have sym : ∀ x y : Nat × Nat, x.1 + x.2 ≤ y.1 ∨ y.1 + y.2 ≤ x.1 → y.1 + y.2 ≤ x.1 ∨ x.1 + x.2 ≤ y.1 :=
      fun _ _ => Or.symm
    have pairs := good.apart.perm (List.perm_cons_erase member) (fun {x y} => sym x y)
    exact (List.pairwise_cons.mp pairs).1
  rw [free_eq (good.run b member) here low ⟨by omega, word⟩ nonzero done]
  refine good.release here List.erase_sublist ?_ (by omega) (.inl rfl) ?_ good.aligned
  · intro c inside q first last
    by_contra within
    obtain ⟨x, run⟩ := good.run b member q (by omega) (by omega)
    have other := List.mem_of_mem_erase inside
    obtain ⟨-, four', size', start'⟩ := good.shape c other
    obtain ⟨y, end_⟩ := good.last c other
    have differ : q ≠ lastPage c := by
      rintro rfl
      exact absurd (end_.symm.trans run) (by simp)
    have start := start (by omega)
    have start' := start' (by omega)
    have apart := apart c inside
    unfold lastPage at within last differ
    omega
  · intro mid
    by_contra within
    obtain ⟨x, run⟩ := good.run b member (h.mptr / 4096) (by omega) (by omega)
    obtain ⟨y, page⟩ := good.cursor mid
    exact absurd (page.symm.trans run) (by simp)

end Good

theorem isfree_spec {pages : HeapPages} {p n : Nat} (small : n < maxmalloc) (low : p < utop)
    (free : isfree pages p (n + 4) = true) :
    ∀ j, j < pageCount n → p + 4096 * j < mend ∧ pages (p / 4096 + j) = none := by
  intro j bound
  unfold maxmalloc at small
  unfold utop at low
  have end_ : (p + (n + 4)) % 2 ^ 32 = p + (n + 4) := by omega
  have count : (p + (n + 4) - p + 4095) / 4096 = pageCount n := by unfold pageCount; omega
  rw [isfree, end_, count, List.all_eq_true] at free
  simpa using free j (List.mem_range.mpr bound)

theorem search_spec {pages : HeapPages} {n fuel mptr nwrap p : Nat} {found : Bool}
    (start : mptr % 4096 = 0) (small : mptr < 2 ^ 32)
    (done : search pages n fuel mptr nwrap = some (p, found)) : p % 4096 = 0 ∧ p < 2 ^ 32 ∧
    (found = true → isfree pages p (n + 4) = true) := by
  induction fuel generalizing mptr nwrap with
  | zero => cases done
  | succ fuel ih =>
    simp only [search] at done
    split at done
    next free =>
      obtain ⟨rfl, rfl⟩ := Prod.mk.inj (Option.some.inj done)
      exact ⟨start, small, fun _ => free⟩
    · split at done
      · split at done
        · obtain ⟨rfl, rfl⟩ := Prod.mk.inj (Option.some.inj done)
          exact ⟨rfl, by decide, nofun⟩
        · exact ih rfl (by decide) done
      · exact ih (by omega) (Nat.mod_lt _ (by decide)) done

def mapRun (pages : HeapPages) (p n j : Nat) : HeapPages := fun q =>
  if p / 4096 ≤ q ∧ q < p / 4096 + j then some ⟨4096 * (q - p / 4096 + 1) < n + 4, 0, true⟩ else pages q

theorem mapRun_succ (pages : HeapPages) (p n j : Nat) :
    update (mapRun pages p n j) (p / 4096 + j) (some ⟨4096 * (j + 1) < n + 4, 0, true⟩) =
    mapRun pages p n (j + 1) := by
  funext q
  by_cases this : q = p / 4096 + j
  · subst this
    rw [update_self, mapRun, if_pos (by omega), show p / 4096 + j - p / 4096 = j by omega]
  · rw [update_of_ne this]
    unfold mapRun
    have iff_ : p / 4096 ≤ q ∧ q < p / 4096 + j ↔ p / 4096 ≤ q ∧ q < p / 4096 + (j + 1) := by omega
    simp only [iff_]

theorem unmapDown_eq {p j : Nat} (pages : HeapPages) (low : p + 4096 * j < utop) :
    unmapDown p j pages = unmapRange pages (p / 4096) (p / 4096 + (j + 1)) := by
  induction j generalizing pages with
  | zero =>
    rw [unmapDown, if_pos (by omega)]
    funext q
    unfold unmapRange
    by_cases this : q = p / 4096
    · simp [this]
    · rw [update_of_ne this]
      exact (if_neg (by omega)).symm
  | succ j ih =>
    rw [unmapDown, if_pos low, ih _ (by omega)]
    funext q
    unfold unmapRange
    by_cases this : q = p / 4096 + (j + 1)
    · simp [this]
    · rw [update_of_ne this]
      have iff_ : p / 4096 ≤ q ∧ q < p / 4096 + (j + 1) ↔ p / 4096 ≤ q ∧
        q < p / 4096 + (j + 1 + 1) := by omega
      simp only [iff_]

theorem allocRun_spec {pages : HeapPages} {p : Nat} (n avail left j : Nat)
    (free : p < utop → ∀ i, i < j + left → p + 4096 * i < mend ∧ pages (p / 4096 + i) = none)
    (begin_ : p < utop ∨ j = 0) :
    allocRun p n avail left j (mapRun pages p n j) = .ok (mapRun pages p n (j + left)) ∧
    (0 < left → p < utop ∧ j + left ≤ avail) ∨
      allocRun p n avail left j (mapRun pages p n j) = .error pages ∧ (p < utop → avail < j + left) := by
  induction left generalizing j with
  | zero => exact .inl ⟨rfl, nofun⟩
  | succ left ih =>
    unfold allocRun
    split
    next stops =>
      refine .inr ⟨?_, fun low => ?_⟩
      · by_cases low : p < utop
        · have inside := (free low j (by omega)).1
          rw [unmapDown_eq _ (by unfold mend at inside; unfold utop; omega)]
          congr 1
          funext q
          unfold unmapRange mapRun
          split
          next range =>
            have none_ := (free low (q - p / 4096) (by omega)).2
            rw [show p / 4096 + (q - p / 4096) = q by omega] at none_
            exact none_.symm
          · exact if_neg (by omega)
        · obtain rfl : j = 0 := begin_.resolve_left low
          rw [unmapDown, if_neg low]
          congr 1
          funext q
          exact if_neg (by omega)
      · have inside := (free low j (by omega)).1
        unfold mend at inside
        unfold utop at stops
        omega
    next goes =>
      have low : p < utop := by
        unfold utop at goes ⊢
        omega
      rw [mapRun_succ]
      obtain ⟨done, enough⟩ | ⟨failed, short⟩ :=
        ih (j + 1) (fun low i bound => free low i (by omega)) (.inl low)
      · refine .inl ⟨by rw [done, show j + 1 + left = j + (left + 1) by omega], fun _ => ⟨low, ?_⟩⟩
        cases left with
        | zero => omega
        | succ left => exact (enough (by omega)).2.trans' (by omega)
      · exact .inr ⟨failed, fun low => (short low).trans_eq (by omega)⟩

def takeRun (pages : HeapPages) (p n : Nat) : HeapPages :=
  update (mapRun pages p n (pageCount n)) (p / 4096 + pageCount n - 1) (some ⟨false, 2, true⟩)

section TakeRun

variable {pages : HeapPages} {p n : Nat}

theorem lastPage_start (start : p % 4096 = 0) : lastPage (p, n) = p / 4096 + pageCount n - 1 := by
  unfold lastPage pageCount
  dsimp only
  omega

theorem takeRun_apply (pages : HeapPages) (n : Nat) (start : p % 4096 = 0) (q : Nat) :
    takeRun pages p n q = if q = lastPage (p, n) then some ⟨false, 2, true⟩
      else if p / 4096 ≤ q ∧ q < lastPage (p, n) then some ⟨true, 0, true⟩ else pages q := by
  have more : p / 4096 ≤ q → (4096 * (q - p / 4096 + 1) < n + 4 ↔ q < lastPage (p, n)) := by
    unfold lastPage
    dsimp only
    omega
  have count_pos : 0 < pageCount n := by unfold pageCount; omega
  have last := lastPage_start (n := n) start
  simp only [takeRun, mapRun, update_apply, ← last]
  grind -ring -linarith

theorem outside_free (start : p % 4096 = 0)
    (free : ∀ j, j < pageCount n → pages (p / 4096 + j) = none) {q : Nat} {page : HeapPage}
    (shown : pages q = some page) : q < p / 4096 ∨ lastPage (p, n) < q := by
  by_contra within
  have count_pos : 0 < pageCount n := by unfold pageCount; omega
  rw [lastPage_start start] at within
  have none_ := free (q - p / 4096) (by omega)
  rw [show p / 4096 + (q - p / 4096) = q by omega] at none_
  exact absurd (none_.symm.trans shown) nofun

end TakeRun

theorem allocAt_cases {pages : HeapPages} {avail n v p : Nat} {found : Bool} {h' : Heap}
    (free : found = true → isfree pages p (n + 4) = true) (bound : n < maxmalloc)
    (done : allocAt pages avail n (p, found) = .ok (v, h')) :
    v = 0 ∧ h' = ⟨p, pages⟩ ∨
    v = p ∧ p < mend ∧ (∀ j, j < pageCount n → pages (p / 4096 + j) = none) ∧
      h' = ⟨p + n, takeRun pages p n⟩ := by
  cases found with
  | false =>
    obtain ⟨rfl, rfl⟩ := Prod.mk.inj (Except.ok.inj done)
    exact .inl ⟨rfl, rfl⟩
  | true =>
    have free' : p < utop → ∀ j, j < pageCount n → p + 4096 * j < mend ∧
      pages (p / 4096 + j) = none := fun low =>
      isfree_spec bound low (free rfl)
    have count_pos : 0 < pageCount n := by unfold pageCount; omega
    have begin_ : mapRun pages p n 0 = pages := by
      funext q
      exact if_neg (by omega)
    have outcome :=
      allocRun_spec n avail (pageCount n) 0 (fun low i inside => free' low i (by omega)) (.inr rfl)
    rw [begin_, Nat.zero_add] at outcome
    obtain ⟨mapped, enough⟩ | ⟨failed, -⟩ := outcome
    · have free := free' (enough count_pos).1
      have low := (free 0 count_pos).1
      have last : mapRun pages p n (pageCount n) (p / 4096 + pageCount n - 1) =
        some ⟨false, 0, true⟩ := by
        rw [mapRun, if_pos (by omega)]
        have none_ : ¬ 4096 * (p / 4096 + pageCount n - 1 - p / 4096 + 1) < n + 4 := by
          unfold pageCount; omega
        simp [none_]
      have sum : (p + n) % 2 ^ 32 = p + n := by unfold maxmalloc at bound; unfold mend at low; omega
      simp only [allocAt, mapped, last, sum] at done
      obtain ⟨rfl, rfl⟩ := Prod.mk.inj (Except.ok.inj done)
      exact .inr ⟨rfl, by omega, fun j inside => (free j inside).2, rfl⟩
    · simp only [allocAt, failed] at done
      obtain ⟨rfl, rfl⟩ := Prod.mk.inj (Except.ok.inj done)
      exact .inl ⟨rfl, rfl⟩

namespace Good

variable {h h' : Heap} {live live' : List (Nat × Nat)}

theorem fresh (good : Good h live) {p n : Nat} (start : p % 4096 = 0) (size : n % 4 = 0)
    (bound : n < maxmalloc) (low : p < mend)
    (free : ∀ j, j < pageCount n → h.pages (p / 4096 + j) = none)
    (blocks : live' = live ∨ p ≠ 0 ∧ live' = (p, n) :: live) :
    Good ⟨p + n, takeRun h.pages p n⟩ live' := by
  unfold maxmalloc at bound
  unfold mend at low
  have used : ∀ q page, h.pages q = some page → q < p / 4096 ∨ lastPage (p, n) < q :=
    fun q page => outside_free start free
  have pages := takeRun_apply h.pages n start
  have page_of : (p + n) / 4096 = lastPage (p, n) := by unfold lastPage; dsimp only; omega
  have cursor : ∀ q, cursorRef (p + n) q ≤ if q = lastPage (p, n) then 1 else 0 := by
    grind -ring -linarith [cursorRef]
  obtain ⟨shape, runs, ends, counts, words, apart, -, -, -⟩ := good
  -- All pages of a block in use are mapped, so it lies before or after the new ones.
  have before : ∀ b ∈ live, b.1 + b.2 ≤ p ∨ lastPage (p, n) < b.1 / 4096 := by
    intro b member
    have mapped : ∀ q, b.1 / 4096 ≤ q → q ≤ lastPage b → q < p / 4096 ∨ lastPage (p, n) < q := by
      grind -ring -linarith
    have range : b.1 / 4096 ≤ lastPage b := by unfold lastPage; omega
    by_contra overlap
    have common := mapped (max (b.1 / 4096) (p / 4096)) (by omega) (by unfold lastPage at range ⊢; omega)
    omega
  have old : ∀ b ∈ live', b = (p, n) ∧ p ≠ 0 ∨ b ∈ live := by grind -ring -linarith
  have none_ : holders live (lastPage (p, n)) = 0 := by
    refine List.countP_eq_zero.mpr fun b member same => ?_
    grind -ring -linarith
  have few : ∀ q, holders live' q ≤ holders live q + if lastPage (p, n) = q then 1 else 0 := by
    intro q
    obtain rfl | ⟨-, rfl⟩ := blocks
    · omega
    · rw [holders_cons]
  refine ⟨?_, ?_, ?_, ?_, ?_, ?_, fun _ => ⟨2, by dsimp only; rw [page_of, pages, if_pos rfl]⟩, ?_,
    by dsimp only; omega, by dsimp only; omega⟩
  case refine_6 => grind -ring -linarith [List.pairwise_cons]
  all_goals grind -ring -linarith

theorem allocAt (good : Good h live) {avail n v p : Nat} {found : Bool} (start : p % 4096 = 0)
    (small : p < 2 ^ 32) (free : found = true → isfree h.pages p (n + 4) = true) (size : n % 4 = 0)
    (bound : n < maxmalloc) (done : Heap.allocAt h.pages avail n (p, found) = .ok (v, h')) :
    Good h' (if v = 0 then live else (v, n) :: live) := by
  obtain ⟨rfl, rfl⟩ | ⟨rfl, low, free, rfl⟩ := allocAt_cases free bound done
  · exact good.moveTo p start small
  · refine good.fresh start size bound low free ?_
    split
    · exact .inl rfl
    next nonzero => exact .inr ⟨nonzero, rfl⟩

theorem place (good : Good h live) {avail n v : Nat} (start : h.mptr % 4096 = 0) (size : n % 4 = 0)
    (bound : n < maxmalloc) (done : h.place avail n = .ok (v, h')) :
    Good h' (if v = 0 then live else (v, n) :: live) := by
  unfold Heap.place at done
  generalize result : search h.pages n (2 ^ 21) h.mptr 0 = r at done
  cases r with
  | none => cases done
  | some r =>
    obtain ⟨p, found⟩ := r
    obtain ⟨start', small, free⟩ := search_spec start good.aligned.1 result
    exact good.allocAt start' small free size bound done

theorem malloc (good : Good h live) {avail n v : Nat}
    (room : ∀ page, h.pages (h.mptr / 4096) = some page → page.word + 1 < 2 ^ 32)
    (done : h.malloc avail n = .ok (v, h')) :
    Good h' (if v = 0 then live else (v, roundUp n) :: live) := by
  obtain ⟨size, -⟩ := roundUp_spec n
  have good' := good.init
  have room' : h.init.mptr % 4096 ≠ 0 → ∀ page, h.init.pages (h.init.mptr / 4096) = some page →
    page.word + 1 < 2 ^ 32 := by
    unfold Heap.init
    split
    · exact fun mid => absurd (show mbegin % 4096 = 0 from rfl) mid
    · exact fun _ => room
  simp only [Heap.malloc] at done
  split at done
  · obtain ⟨rfl, rfl⟩ := Prod.mk.inj (Except.ok.inj done)
    exact good'
  next bound =>
    split at done
    next mid =>
      split at done
      next fits =>
        obtain ⟨rfl, after⟩ := good'.bump mid size (by omega) fits (room' mid) done
        rw [if_neg (by omega)]
        exact after
      · split at done
        · cases done
        next left freed =>
          obtain ⟨same, after⟩ :=
            good'.leave mid freed ((left.mptr + 4096) % 2 ^ 32 / 4096 * 4096) (by omega) (by omega)
          exact after.place (by dsimp only; omega) size (by omega) done
    next start => exact good'.place (by omega) size (by omega) done

theorem store (good : Good h live) {b : Nat × Nat} (member : b ∈ live) {a : Nat} (word : Nat)
    (low : b.1 ≤ a) (high : a < b.1 + b.2) : Good (HeapRun.store h a word) live := by
  unfold HeapRun.store
  split
  · exact good
  next page shown =>
    split
    next end_ =>
      have inside : a / 4096 < lastPage b := by unfold lastPage; omega
      obtain ⟨w, run⟩ := good.run b member (a / 4096) (by omega) inside
      obtain rfl := Option.some.inj (shown.symm.trans run)
      have small : word % 2 ^ 32 < 2 ^ 32 := Nat.mod_lt _ (by decide)
      obtain ⟨shape, runs, last, count, words, apart, cursor, above, aligned⟩ := good
      refine ⟨shape, ?_, ?_, ?_, ?_, apart, ?_, above, aligned⟩ <;> simp only [update_apply] <;>
        grind -ring -linarith
    · exact good

end Good

end Heap

namespace HeapRun

open Heap

def NoOverflow (s : HeapRun) : HeapEvent → Prop
  | .malloc _ _ => ∀ page, s.heap.pages (s.heap.mptr / 4096) = some page → page.word + 1 < 2 ^ 32
  | _ => True

theorem start_good (mapped writable : Nat → Bool) :
    Good (start mapped writable).heap (start mapped writable).live where
  shape _ := nofun
  run _ := nofun
  last _ := nofun
  count _ _ _ _ := by simp [start, holders, cursorRef]
  word q page here := by
    have here : (if mapped q then some (⟨false, 0, writable q⟩ : HeapPage) else none) = some page := here
    split at here
    · rw [← Option.some.inj here]
      show 0 < 2 ^ 32
      decide
    · cases here
  apart := .nil
  cursor mid := absurd rfl mid
  above mid := absurd rfl mid
  aligned := ⟨Nat.two_pow_pos 32, rfl⟩

theorem step_good {s s' : HeapRun} {event : HeapEvent} (good : Good s.heap s.live)
    (room : s.NoOverflow event) (next : s.step event = some s') : Good s'.heap s'.live := by
  cases event with
  | malloc n avail =>
    simp only [step] at next
    split at next
    · cases next
    next v h done =>
      obtain rfl := Option.some.inj next
      exact good.malloc room done
  | free v n =>
    simp only [step] at next
    split at next
    next member =>
      split at next
      · cases next
      next h done =>
        obtain rfl := Option.some.inj next
        exact good.free (b := (v, n)) member done
    · cases next
  | store v n a word =>
    simp only [step] at next
    split at next
    next here =>
      obtain rfl := Option.some.inj next
      exact good.store here.1 word here.2.1 here.2.2
    · cases next

theorem blocks_disjoint (mapped writable : Nat → Bool) (events : List HeapEvent) (s : HeapRun)
    (run : Run step NoOverflow (start mapped writable) events s) :
    (s.live.Pairwise fun a b => ∀ x, ¬ (a.1 ≤ x ∧ x < a.1 + a.2 ∧ b.1 ≤ x ∧ x < b.1 + b.2)) ∧
      ∀ b ∈ s.live,
        (∀ q w c, s.heap.pages q = some ⟨false, w, c⟩ →
          ∀ x, b.1 ≤ x → x < b.1 + b.2 → x < 4096 * q + 4092 ∨ 4096 * (q + 1) ≤ x) ∧
        ∀ x, b.1 ≤ x → x < b.1 + b.2 + 4 → (s.heap.pages (x / 4096)).isSome := by
  have good : Good s.heap s.live :=
    run.invariant
      (motive := fun s => Good s.heap s.live) (start_good mapped writable) fun _ _ _ good
      room next =>
      step_good good room next
  refine ⟨good.apart.imp fun apart x both => by omega,
    fun b member => ⟨fun q w c here x low high => ?_, fun x low high => ?_⟩⟩
  · by_contra within
    have last : x / 4096 < lastPage b := by unfold lastPage; omega
    obtain ⟨y, page⟩ := good.run b member (x / 4096) (by omega) last
    rw [show x / 4096 = q by omega] at page
    exact absurd (page.symm.trans here) (by simp)
  · have range : b.1 / 4096 ≤ x / 4096 ∧ x / 4096 ≤ lastPage b := by unfold lastPage; omega
    obtain same | less := Nat.eq_or_lt_of_le range.2
    · obtain ⟨w, page⟩ := good.last b member
      rw [same, page]
      rfl
    · obtain ⟨w, page⟩ := good.run b member _ range.1 less
      rw [page]
      rfl

instance (s : HeapRun) (event : HeapEvent) : Decidable (s.NoOverflow event) :=
  match event with
  | .malloc _ _ =>
    decidable_of_iff ((s.heap.pages (s.heap.mptr / 4096)).all fun page => page.word + 1 < 2 ^ 32)
      (by
        unfold NoOverflow
        cases s.heap.pages (s.heap.mptr / 4096) <;> simp)
  | .free _ _ | .store _ _ _ _ => .isTrue trivial

theorem blocks_disjoint_three : ∃ s : HeapRun,
    Run step NoOverflow (start (fun _ => false) fun _ => false)
      [.malloc 8 9, .malloc 5000 9, .malloc 0 9, .store 0x08001000 5000 0x08001fff 1,
      .free 0x08000000 8] s ∧ s.live = [(0x08002388, 0), (0x08001000, 5000)] ∧
      s.heap.pages 0x8000 = none ∧ ∀ x, 0x08001000 ≤ x → x < 0x08001000 + 5000 + 4 →
      (s.heap.pages (x / 4096)).isSome := by
  refine Run.of_exec_imp (p := fun s => s.live = [(0x08002388, 0), (0x08001000, 5000)] ∧
    s.heap.pages 0x8000 = none) (by decide +kernel) ?_
  rintro s run ⟨live, gone⟩
  have block : (0x08001000, 5000) ∈ s.live := by
    rw [live]
    simp
  exact ⟨live, gone, ((blocks_disjoint _ _ _ s run).2 _ block).2⟩

def Crowded (s : HeapRun) (w : Nat) (live : List (Nat × Nat)) : Prop :=
  s.heap.mptr = mbegin + 8 ∧ s.heap.pages (mbegin / 4096) = some ⟨false, w, true⟩ ∧ s.live = live

theorem Crowded.more {s : HeapRun} {w : Nat} {live : List (Nat × Nat)} (crowded : s.Crowded w live) :
    ∃ s', s.step (.malloc 0 0) = some s' ∧ s'.Crowded ((w + 1) % 2 ^ 32) ((mbegin + 8, 0) :: live) := by
  obtain ⟨mptr, page, rfl⟩ := crowded
  have cursor : (mbegin + 8) / 4096 = mbegin / 4096 := by decide
  refine ⟨⟨⟨mbegin + 8, update s.heap.pages (mbegin / 4096) (some ⟨false, (w + 1) % 2 ^ 32, true⟩)⟩,
    (mbegin + 8, 0) :: s.live⟩, ?_, rfl, by simp, rfl⟩
  have init : s.heap.init = s.heap := if_neg (by rw [mptr]; decide)
  have done : s.heap.malloc 0 0 =
      .ok (mbegin + 8,
        ⟨mbegin + 8,
        update s.heap.pages (mbegin / 4096) (some ⟨false, (w + 1) % 2 ^ 32, true⟩)⟩) := by
    simp only [malloc, init, mptr]
    rw [if_neg (by decide), if_pos (by decide), if_pos (by decide)]
    simp only [bump, mptr, cursor, page]
    rfl
  rw [step, show BitVec.toNat 0 = 0 from rfl, done]
  rfl

theorem Crowded.many {s : HeapRun} {w : Nat} {live : List (Nat × Nat)} (crowded : s.Crowded w live)
    (small : w < 2 ^ 32) (k : Nat) : ∃ events s', Run step (fun _ _ => True) s events s' ∧
      s'.Crowded ((w + k) % 2 ^ 32) (List.replicate k (mbegin + 8, 0) ++ live) := by
  induction k with
  | zero => exact ⟨[], s, .nil s, by rw [Nat.add_zero, Nat.mod_eq_of_lt small]; exact crowded⟩
  | succ k ih =>
    obtain ⟨events, t, run, after⟩ := ih
    obtain ⟨u, next, last⟩ := after.more
    refine ⟨_, u, .snoc run trivial next, ?_⟩
    rw [show (w + (k + 1)) % 2 ^ 32 = ((w + k) % 2 ^ 32 + 1) % 2 ^ 32 by omega]
    exact last

theorem Crowded.free {s : HeapRun} {live : List (Nat × Nat)} (crowded : s.Crowded 1 live)
    (member : (mbegin + 8, 0) ∈ live) : ∃ s', s.step (.free (mbegin + 8) 0) = some s' ∧
    s'.heap.pages (mbegin / 4096) = none ∧
      s'.live = live.erase (mbegin + 8, 0) := by
  obtain ⟨mptr, page, rfl⟩ := crowded
  have cursor : (mbegin + 8) / 4096 = mbegin / 4096 := by decide
  have run : freeRun (2 ^ 16) s.heap.pages (mbegin / 4096) = .ok (s.heap.pages, mbegin / 4096) := by
    rw [show 2 ^ 16 = 65535 + 1 from rfl, freeRun, page]
    rfl
  refine ⟨⟨⟨s.heap.mptr, update s.heap.pages (mbegin / 4096) none⟩, s.live.erase (mbegin + 8, 0)⟩,
    ?_, by simp, rfl⟩
  have done : s.heap.free (mbegin + 8) = .ok ⟨s.heap.mptr, update s.heap.pages (mbegin / 4096) none⟩ := by
    unfold Heap.free
    rw [if_neg (by decide), if_pos (by decide), cursor, run]
    simp only [page]
    rfl
  simp only [step, if_pos member, done]

-- After 2^32 - 1 empty blocks the count has come round to 1, and freeing one of them takes the page
-- away.
theorem block_unmapped :
    ∃ events s, Run step (fun _ _ => True) (start (fun _ => false) fun _ => false) events s ∧
    (mbegin, 8) ∈ s.live ∧ s.heap.pages (mbegin / 4096) = none := by
  have first : ∃ s : HeapRun,
    Run step (fun _ _ => True) (start (fun _ => false) fun _ => false) [.malloc 8 1] s ∧
      (s.heap.mptr = mbegin + 8 ∧ s.heap.pages (mbegin / 4096) = some ⟨false, 2, true⟩ ∧
        s.live = [(mbegin, 8)]) :=
    Run.of_exec_any (by decide +kernel)
  obtain ⟨s, run, crowded⟩ := first
  obtain ⟨k, number⟩ : ∃ k, k = 2 ^ 32 - 1 := ⟨_, rfl⟩
  obtain ⟨events, t, more, full⟩ := Crowded.many crowded (by decide) k
  rw [show (2 + k) % 2 ^ 32 = 1 by omega] at full
  have member : (mbegin + 8, 0) ∈ List.replicate k (mbegin + 8, 0) :=
    List.mem_replicate.mpr ⟨by omega, rfl⟩
  obtain ⟨u, last, gone, live⟩ := full.free (List.mem_append_left _ member)
  refine ⟨_, u, .snoc (run.trans more) trivial last, ?_, gone⟩
  rw [live, List.erase_append_left _ member]
  exact List.mem_append_right _ (List.mem_singleton_self _)

end HeapRun

end Jos.Lib
