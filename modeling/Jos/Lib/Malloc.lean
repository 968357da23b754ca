import Jos.Shared.Run
import Jos.Kern.Mmu

namespace Jos.Lib

open Jos.Shared
open Jos.Kern (Word)
open Function

/-- A mapped page: its `PTE_CONTINUED` bit, the word at its end, which counts references if the bit
is clear, and its `PTE_W` bit. -/
structure HeapPage where
  cont : Bool
  word : Nat
  writable : Bool
  deriving DecidableEq

abbrev HeapPages := Nat → Option HeapPage

structure Heap where
  mptr : Nat
  pages : HeapPages

inductive Stop where
  | assertion
  | fault
  | loops
  deriving DecidableEq

namespace Heap

def mbegin : Nat := 0x08000000

def mend : Nat := 0x10000000

def maxmalloc : Nat := 1024 * 1024

def utop : Nat := 0xEEC00000

def roundUp (n : Nat) : Nat := (n + 3) % 2 ^ 32 / 4 * 4

def isfree (pages : HeapPages) (v n : Nat) : Bool :=
  let endVa := (v + n) % 2 ^ 32
  (List.range ((endVa - v + 4095) / 4096)).all fun j =>
    v + 4096 * j < mend && (pages (v / 4096 + j)).isNone

def freeRun : Nat → HeapPages → Nat → Except Stop (HeapPages × Nat)
  | 0, _, _ => .error .loops
  | fuel + 1, pages, c =>
    match pages c with
    | none => .ok (pages, c)
    | some page =>
      if page.cont then
        if mbegin ≤ (c + 1) * 4096 ∧ (c + 1) * 4096 < mend then freeRun fuel (update pages c none) (c + 1)
        else .error .assertion
      else .ok (pages, c)

def free (h : Heap) (v : Nat) : Except Stop Heap :=
  if v = 0 then .ok h
  else if mbegin ≤ v ∧ v < mend then
    match freeRun (2 ^ 16) h.pages (v / 4096) with
    | .error stop => .error stop
    | .ok (pages, c) =>
      match pages c with
      | some ⟨cont, word, true⟩ =>
        let word := (word + (2 ^ 32 - 1)) % 2 ^ 32
        .ok { h with pages := update pages c (if word = 0 then none else some ⟨cont, word, true⟩) }
      | _ => .error .fault
  else .error .assertion

-- The loop of `malloc` that looks for address space. It ends at a free run, or after `mend` has
-- been met twice.
def search (pages : HeapPages) (n : Nat) : Nat → Nat → Nat → Option (Nat × Bool)
  | 0, _, _ => none
  | fuel + 1, mptr, nwrap =>
    if isfree pages mptr (n + 4) then some (mptr, true)
    else
      let mptr := (mptr + 4096) % 2 ^ 32
      if mptr = mend then
        if nwrap + 1 = 2 then some (mbegin, false) else search pages n fuel mbegin (nwrap + 1)
      else search pages n fuel mptr nwrap

def unmapDown (mptr : Nat) : Nat → HeapPages → HeapPages
  | 0, pages => if mptr < utop then update pages (mptr / 4096) none else pages
  | j + 1, pages =>
    unmapDown mptr j
      (if mptr + 4096 * (j + 1) < utop then update pages (mptr / 4096 + (j + 1)) none else pages)

def allocRun (mptr n avail : Nat) : Nat → Nat → HeapPages → Except HeapPages HeapPages
  | 0, _, pages => .ok pages
  | left + 1, j, pages =>
    if avail ≤ j ∨ utop ≤ mptr + 4096 * j then .error (unmapDown mptr j pages)
    else
      allocRun mptr n avail left (j + 1)
        (update pages (mptr / 4096 + j) (some ⟨4096 * (j + 1) < n + 4, 0, true⟩))

def pageCount (n : Nat) : Nat := (n + 3) / 4096 + 1

def allocAt (pages : HeapPages) (avail n : Nat) : Nat × Bool → Except Stop (Nat × Heap)
  | (mptr, false) => .ok (0, ⟨mptr, pages⟩)
  | (mptr, true) =>
    match allocRun mptr n avail (pageCount n) 0 pages with
    | .error pages => .ok (0, ⟨mptr, pages⟩)
    | .ok pages =>
      let last := mptr / 4096 + pageCount n - 1
      match pages last with
      | some ⟨cont, _, true⟩ =>
        .ok (mptr, ⟨(mptr + n) % 2 ^ 32, update pages last (some ⟨cont, 2, true⟩)⟩)
      | _ => .error .fault

def place (h : Heap) (avail n : Nat) : Except Stop (Nat × Heap) :=
  match search h.pages n (2 ^ 21) h.mptr 0 with
  | none => .error .loops
  | some found => allocAt h.pages avail n found

def bump (h : Heap) (n : Nat) : Except Stop (Nat × Heap) :=
  match h.pages (h.mptr / 4096) with
  | some ⟨cont, word, true⟩ =>
    let page := ⟨cont, (word + 1) % 2 ^ 32, true⟩
    .ok (h.mptr, ⟨(h.mptr + n) % 2 ^ 32, update h.pages (h.mptr / 4096) (some page)⟩)
  | _ => .error .fault

def init (h : Heap) : Heap := if h.mptr = 0 then { h with mptr := mbegin } else h

def malloc (h : Heap) (avail n : Nat) : Except Stop (Nat × Heap) :=
  let h := h.init
  let n := roundUp n
  if maxmalloc ≤ n then .ok (0, h)
  else if h.mptr % 4096 ≠ 0 then
    if h.mptr / 4096 = (h.mptr + n + 3) % 2 ^ 32 / 4096 then h.bump n
    else
      match h.free h.mptr with
      | .error stop => .error stop
      | .ok h => { h with mptr := (h.mptr + 4096) % 2 ^ 32 / 4096 * 4096 }.place avail n
  else h.place avail n

end Heap

structure HeapRun where
  heap : Heap
  live : List (Nat × Nat)

inductive HeapEvent where
  | malloc (n : Word) (avail : Nat)
  | free (v n : Nat)
  -- The program stores into a block; only the last word of a page matters here.
  | store (v n a word : Nat)

namespace HeapRun

-- The program may have mapped pages of its own, writable or not.
def start (mapped writable : Nat → Bool) : HeapRun :=
  ⟨⟨0, fun q => if mapped q then some ⟨false, 0, writable q⟩ else none⟩, []⟩

def store (h : Heap) (a word : Nat) : Heap :=
  match h.pages (a / 4096) with
  | none => h
  | some page =>
    if 4092 ≤ a % 4096 then
      { h with pages := update h.pages (a / 4096) (some { page with word := word % 2 ^ 32 }) }
    else h

def step (s : HeapRun) : HeapEvent → Option HeapRun
  | .malloc n avail =>
    match s.heap.malloc avail n.toNat with
    | .error _ => none
    | .ok (v, h) => some ⟨h, if v = 0 then s.live else (v, Heap.roundUp n.toNat) :: s.live⟩
  | .free v n =>
    if (v, n) ∈ s.live then
      match s.heap.free v with
      | .error _ => none
      | .ok h => some ⟨h, s.live.erase (v, n)⟩
    else none
  | .store v n a word =>
    if (v, n) ∈ s.live ∧ v ≤ a ∧ a < v + n then some ⟨store s.heap a word, s.live⟩ else none

end HeapRun

end Jos.Lib
