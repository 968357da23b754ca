import Jos.Kern.Pmap
import Jos.Shared.Run

namespace Jos.Kern.Showmap

open Jos.Shared

structure Line where
  va : Word
  entry : Option (Word × Word)

variable (vm : Pmap) (pgdir : Nat)

def report (begin_ : Word) (pte : Option Pmap.Ptr) : Line :=
  ⟨begin_, pte.map fun pte => (pteAddr (vm.load pte), pgoff (vm.load pte))⟩

def isLarge (pte : Option Pmap.Ptr) : Bool := pte.all fun pte => vm.load pte &&& ptePS ≠ 0

def advance (begin_ : Word) (pte : Option Pmap.Ptr) : Word :=
  begin_ + if isLarge vm pte then 0x400000 else 0x1000

def loop (last begin_ : Word) : Except Panic (List Line) :=
  if begin_ ≤ last then do
    let (_, pte) ← vm.pgdirWalk pgdir begin_ false
    let rest ← if _more : begin_ < advance vm begin_ pte then loop last (advance vm begin_ pte)
      else .ok []
    .ok (report vm begin_ pte :: rest)
  else .ok []
termination_by 2 ^ 32 - begin_.toNat
decreasing_by
  have bound := (advance vm begin_ pte).isLt
  have up : begin_.toNat < (advance vm begin_ pte).toNat := _more
  omega

def monShowmap (begin_ last : Word) : Except Panic (List Line) :=
  loop vm pgdir last (roundDown begin_ 0x1000)

def va (page : Nat) : Word := BitVec.ofNat 32 (page * 4096)

def Walks (page : Nat) : Prop := ∃ found, vm.pgdirWalk pgdir (va page) false = .ok found

def pteOf (page : Nat) : Option Pmap.Ptr := ((vm.pgdirWalk pgdir (va page) false).toOption.bind Prod.snd)

def Present (page : Nat) (pte : Pmap.Ptr) : Prop :=
  (∃ vm', vm.pgdirWalk pgdir (va page) false = .ok (vm', some pte)) ∧ vm.load pte &&& pteP ≠ 0

def about (page : Nat) (line : Line) : Bool :=
  if vm.pseSupport = 1 ∧ vm.load (pgdir, pdx (va page)) &&& ptePS ≠ 0 then pdx line.va = pdx (va page)
  else line.va = va page

def Complete (first final : Nat) (lines : List Line) : Prop :=
  ∀ page pte, first ≤ page → page ≤ final → Present vm pgdir page pte →
    ∃ a, lines.filter (about vm pgdir page) = [report vm a (some pte)]

def stride (page : Nat) : Nat := if isLarge vm (pteOf vm pgdir page) then 1024 else 1

-- Pages that a step of 4MB passes, if it begins at a page that is not passed itself.
def Skipped (first page : Nat) : Prop :=
  ∃ a, ∃ _ : a < page, first ≤ a ∧ page < a + stride vm pgdir a ∧ ¬Skipped first a
termination_by page

structure Sound (first final : Nat) : Prop where
  walks : ∀ page, first ≤ page → page ≤ final → ¬Skipped vm pgdir first page → Walks vm pgdir page
  found : ∀ page pte, first ≤ page → page ≤ final → Present vm pgdir page pte →
    ∃ a, first ≤ a ∧ a ≤ final ∧ ¬Skipped vm pgdir first a ∧ about vm pgdir page (report vm (va a) none)

structure Reached (first page : Nat) : Prop where
  start : first ≤ page
  open_ : ¬Skipped vm pgdir first page
  before : ∀ a, first ≤ a → a < page → ¬Skipped vm pgdir first a → a + stride vm pgdir a ≤ page

structure Listed (first final page : Nat) (lines : List Line) : Prop where
  walks : ∀ y, page ≤ y → y ≤ final → ¬Skipped vm pgdir first y → Walks vm pgdir y
  sorted : lines.Pairwise fun l m => l.va < m.va
  mem : ∀ l, l ∈ lines ↔ ∃ y, page ≤ y ∧ y ≤ final ∧ ¬Skipped vm pgdir first y ∧
    l = report vm (va y) (pteOf vm pgdir y)

section Walk

variable {vm pgdir} {first final page : Nat} {last : Word}

theorem stride_pos (vm : Pmap) (pgdir page : Nat) : 0 < stride vm pgdir page := by
  unfold stride
  split <;> decide

theorem Reached.skips (reached : Reached vm pgdir first page) {a : Nat} (after : page < a)
    (near : a < page + stride vm pgdir page) : Skipped vm pgdir first a := by
  rw [Skipped]
  exact ⟨page, after, reached.start, near, reached.open_⟩

theorem Reached.next (reached : Reached vm pgdir first page) :
    Reached vm pgdir first (page + stride vm pgdir page) where
  start := Nat.le_add_right_of_le reached.start
  open_ skipped := by
    rw [Skipped] at skipped
    obtain ⟨a, below, start, near, open_⟩ := skipped
    obtain earlier | rfl | later := Nat.lt_trichotomy a page
    · have past := reached.before a start earlier open_
      omega
    · omega
    · exact open_ (reached.skips later below)
  before a start below open_ := by
    obtain earlier | rfl | later := Nat.lt_trichotomy a page
    · exact (reached.before a start earlier open_).trans (Nat.le_add_right ..)
    · exact Nat.le_refl _
    · exact absurd (reached.skips later below) open_

theorem reached_first : Reached vm pgdir first first where
  start := Nat.le_refl _
  open_ skipped := by
    rw [Skipped] at skipped
    obtain ⟨a, below, start, -⟩ := skipped
    omega
  before a start below := by omega

theorem va_toNat (small : page < 2 ^ 20) : (va page).toNat = page * 4096 := by
  rw [va, BitVec.toNat_ofNat, Nat.mod_eq_of_lt (by omega)]

theorem va_le_iff (small : page < 2 ^ 20) : va page ≤ last ↔ page ≤ last.toNat / 4096 := by
  rw [BitVec.le_def, va_toNat small]
  omega

theorem advance_va (page : Nat) :
    advance vm (va page) (pteOf vm pgdir page) = va (page + stride vm pgdir page) := by
  unfold advance va stride
  split <;> bv_omega

theorem lt_advance_iff (small : page < 2 ^ 20) :
    va page < va (page + stride vm pgdir page) ↔ page + stride vm pgdir page < 2 ^ 20 := by
  have low := stride_pos vm pgdir page
  have high : stride vm pgdir page ≤ 1024 := by
    unfold stride
    split <;> decide
  rw [BitVec.lt_def, va_toNat small, va, BitVec.toNat_ofNat]
  omega

theorem Listed.cons {rest : List Line} (reached : Reached vm pgdir first page) (inside : page ≤ final)
    (small : final < 2 ^ 20) (walks : Walks vm pgdir page)
    (listed : Listed vm pgdir first final (page + stride vm pgdir page) rest) :
    Listed vm pgdir first final page (report vm (va page) (pteOf vm pgdir page) :: rest) := by
  have next := stride_pos vm pgdir page
  have split : ∀ y, page ≤ y → ¬Skipped vm pgdir first y → y = page ∨
    page + stride vm pgdir page ≤ y := by
    intro y start open_
    by_contra other
    exact open_ (reached.skips (by omega) (by omega))
  refine ⟨fun y start below open_ => ?_, List.pairwise_cons.mpr ⟨fun m member => ?_, listed.sorted⟩,
    fun l => ?_⟩
  · obtain rfl | later := split y start open_
    · exact walks
    · exact listed.walks y later below open_
  · obtain ⟨y, later, below, -, rfl⟩ := (listed.mem m).mp member
    rw [report, report, BitVec.lt_def, va_toNat (by omega), va_toNat (by omega)]
    omega
  · rw [List.mem_cons, listed.mem]
    constructor
    · rintro (rfl | ⟨y, later, rest⟩)
      · exact ⟨page, Nat.le_refl _, inside, reached.open_, rfl⟩
      · exact ⟨y, by omega, rest⟩
    · rintro ⟨y, start, below, open_, rfl⟩
      obtain rfl | later := split y start open_
      · exact .inl rfl
      · exact .inr ⟨y, later, below, open_, rfl⟩

theorem listed_nil (past : final < page) : Listed vm pgdir first final page [] :=
  ⟨by omega, .nil, fun l => ⟨nofun, fun ⟨y, _⟩ => by omega⟩⟩

theorem loop_listed (reached : Reached vm pgdir first page) (small : page < 2 ^ 20) :
    Ends (loop vm pgdir last (va page))
      (fun _ => ∃ y, page ≤ y ∧ y ≤ last.toNat / 4096 ∧ ¬Skipped vm pgdir first y ∧ ¬Walks vm pgdir y)
      (Listed vm pgdir first (last.toNat / 4096) page) := by
  induction left : 2 ^ 20 - page using Nat.strong_induction_on generalizing page with
  | _ left ih =>
    have high : last.toNat / 4096 < 2 ^ 20 := by have := last.isLt; omega
    rw [loop]
    by_cases inside : page ≤ last.toNat / 4096
    · rw [if_pos ((va_le_iff small).mpr inside)]
      cases walked : vm.pgdirWalk pgdir (va page) false with
      | error panic =>
        exact ⟨page, Nat.le_refl _, inside, reached.open_, fun ⟨found, walks⟩ => by simp_all⟩
      | ok found =>
        obtain ⟨vm', pte⟩ := found
        obtain rfl : pteOf vm pgdir page = pte := by simp [pteOf, walked, Except.toOption]
        have more := Nat.lt_add_of_pos_right (n := page) (stride_pos vm pgdir page)
        refine Ends.bind_ok rfl ?_
        dsimp only
        rw [advance_va]
        by_cases room : page + stride vm pgdir page < 2 ^ 20
        · rw [dif_pos ((lt_advance_iff small).mpr room)]
          have rest := ih _ (by omega) reached.next room rfl
          refine (rest.mono ?_ fun _ => id).bind fun lines listed =>
            listed.cons reached inside high ⟨_, walked⟩
          exact fun _ ⟨y, later, open_⟩ => ⟨y, by omega, open_⟩
        · rw [dif_neg (mt (lt_advance_iff small).mp room)]
          exact (listed_nil (by omega)).cons reached inside high ⟨_, walked⟩
    · rw [if_neg (mt (va_le_iff small).mp inside)]
      exact listed_nil (by omega)

theorem filter_single {lines : List Line} {p : Line → Bool} {l : Line}
    (sorted : lines.Pairwise fun l m => l.va < m.va) (only : ∀ m, m ∈ lines ∧ p m ↔ m = l) :
    lines.filter p = [l] := by
  have nodup : lines.Nodup :=
    sorted.imp fun {a b} below same => absurd (same ▸ below) (BitVec.lt_irrefl b.va)
  apply List.perm_singleton.mp
  rw [List.perm_ext_iff_of_nodup (nodup.filter p) (List.nodup_singleton l)]
  intro m
  rw [List.mem_filter, List.mem_singleton]
  exact only m

theorem slot_eq {a : Nat} (small : page < 2 ^ 20) (small' : a < 2 ^ 20)
    (same : pdx (va a) = pdx (va page)) : a / 1024 = page / 1024 := by
  have slots := congrArg Fin.val same
  rw [val_pdx, val_pdx, va_toNat small, va_toNat small'] at slots
  omega

theorem stride_large {a : Nat} (large : vm.pseSupport = 1 ∧ vm.load (pgdir, pdx (va a)) &&& ptePS ≠ 0) :
    pteOf vm pgdir a = some (pgdir, pdx (va a)) ∧ stride vm pgdir a = 1024 := by
  have entry : pteOf vm pgdir a = some (pgdir, pdx (va a)) := by
    rw [pteOf, Pmap.pgdirWalk, if_pos large]
    rfl
  refine ⟨entry, ?_⟩
  rw [stride, entry, if_pos (by simpa [isLarge] using large.2)]

theorem about_large {l : Line}
    (large : vm.pseSupport = 1 ∧ vm.load (pgdir, pdx (va page)) &&& ptePS ≠ 0) :
    about vm pgdir page l ↔ pdx l.va = pdx (va page) := by
  rw [about, if_pos large]
  exact decide_eq_true_iff

theorem about_small {l : Line}
    (small : ¬(vm.pseSupport = 1 ∧ vm.load (pgdir, pdx (va page)) &&& ptePS ≠ 0)) :
    about vm pgdir page l ↔ l.va = va page := by
  rw [about, if_neg small]
  exact decide_eq_true_iff

theorem line_unique {pte : Pmap.Ptr} {a : Nat} (small : page < 2 ^ 20)
    (present : Present vm pgdir page pte) (low : a < 2 ^ 20) (start : first ≤ a)
    (open_ : ¬Skipped vm pgdir first a) (here : about vm pgdir page (report vm (va a) none)) :
    pteOf vm pgdir a = some pte ∧ ∀ y, y < 2 ^ 20 → first ≤ y → ¬Skipped vm pgdir first y →
      about vm pgdir page (report vm (va y) none) → y = a := by
  obtain ⟨⟨vm', walked⟩, -⟩ := present
  by_cases large : vm.pseSupport = 1 ∧ vm.load (pgdir, pdx (va page)) &&& ptePS ≠ 0
  · simp only [about_large large] at here ⊢
    have entry : pte = (pgdir, pdx (va page)) := by
      rw [Pmap.pgdirWalk, if_pos large] at walked
      injection walked with pair
      exact (Option.some.inj (congrArg Prod.snd pair)).symm
    have far : ∀ b, pdx (va b) = pdx (va page) →
        pteOf vm pgdir b = some (pgdir, pdx (va b)) ∧ stride vm pgdir b = 1024 := fun b same =>
      stride_large (by rwa [same])
    have slot := slot_eq small low here
    refine ⟨?_, fun y high begins unskipped there => ?_⟩
    · rw [(far a here).1, entry, show pdx (va a) = pdx (va page) from here]
    · have slot' := slot_eq small high there
      obtain before | same | after := Nat.lt_trichotomy y a
      · refine absurd ?_ open_
        rw [Skipped]
        exact ⟨y, before, begins, by rw [(far y there).2]; omega, unskipped⟩
      · exact same
      · refine absurd ?_ unskipped
        rw [Skipped]
        exact ⟨a, after, start, by rw [(far a here).2]; omega, open_⟩
  · have only : ∀ b, b < 2 ^ 20 → about vm pgdir page (report vm (va b) none) → b = page := by
      intro b below there
      have values : (va b).toNat = (va page).toNat := congrArg BitVec.toNat ((about_small large).mp there)
      rw [va_toNat below, va_toNat small] at values
      omega
    obtain rfl := only a low here
    refine ⟨by simp [pteOf, walked, Except.toOption], fun y high _ _ there => only y high there⟩

theorem Listed.complete_iff {lines : List Line} (small : final < 2 ^ 20)
    (listed : Listed vm pgdir first final first lines) : Complete vm pgdir first final lines ↔
    Sound vm pgdir first final := by
  constructor
  · refine fun complete => ⟨listed.walks, fun page pte start below present => ?_⟩
    obtain ⟨a, one⟩ := complete page pte start below present
    have member : report vm a (some pte) ∈ lines.filter (about vm pgdir page) :=
      one ▸ List.mem_singleton_self _
    obtain ⟨member, here⟩ := List.mem_filter.mp member
    obtain ⟨y, start', below', open_, same⟩ := (listed.mem _).mp member
    obtain rfl : a = va y := congrArg Line.va same
    exact ⟨y, start', below', open_, here⟩
  · intro sound page pte start below present
    obtain ⟨a, start', below', open_, here⟩ := sound.found page pte start below present
    obtain ⟨entry, unique⟩ := line_unique (by omega) present (by omega) start' open_ here
    refine ⟨va a, filter_single listed.sorted fun m => ?_⟩
    rw [listed.mem, ← entry]
    constructor
    · rintro ⟨⟨y, begins, ends, unskipped, rfl⟩, there⟩
      rw [unique y (by omega) begins unskipped there]
    · rintro rfl
      exact ⟨⟨a, start', below', open_, rfl⟩, here⟩

end Walk

theorem monShowmap_complete_iff (begin_ last : Word) :
    (∃ lines, monShowmap vm pgdir begin_ last = .ok lines ∧
      Complete vm pgdir (begin_.toNat / 4096) (last.toNat / 4096) lines) ↔
    Sound vm pgdir (begin_.toNat / 4096) (last.toNat / 4096) := by
  have high : begin_.toNat / 4096 < 2 ^ 20 := by have := begin_.isLt; omega
  have start : roundDown begin_ 0x1000 = va (begin_.toNat / 4096) := by
    apply BitVec.eq_of_toNat_eq
    rw [va_toNat high, roundDown_toNat]
    omega
  have listed := @loop_listed vm pgdir _ _ last reached_first high
  rw [monShowmap, start]
  cases ran : loop vm pgdir last (va (begin_.toNat / 4096)) with
  | error panic =>
    rw [ran] at listed
    obtain ⟨y, start, below, open_, panics⟩ := listed
    exact ⟨nofun, fun sound => absurd (sound.walks y start below open_) panics⟩
  | ok lines =>
    rw [ran] at listed
    have top : last.toNat / 4096 < 2 ^ 20 := by have := last.isLt; omega
    rw [← Listed.complete_iff top listed]
    exact ⟨fun ⟨lines', same, complete⟩ => Except.ok.inj same ▸ complete,
      fun complete => ⟨lines, rfl, complete⟩⟩

def oneMapping : Pmap where
  npages := 4
  pseSupport := 0
  kernPgdir := 1
  pages _ := ⟨none, 0⟩
  pageFreeList := none
  mem page i := if page = 1 ∧ i = 1 then 0x2007 else if page = 2 ∧ i = 0 then 0x3007 else 0

-- From `0x1000` on the loop steps over the mapping of `0x400000`.
theorem monShowmap_skips : ∃ lines, monShowmap oneMapping 1 0x1000 0x400000 = .ok lines ∧
    ¬Complete oneMapping 1 1 1024 lines := by
  refine ⟨[⟨0x1000, none⟩], ?_, fun complete => ?_⟩
  · have walked : oneMapping.pgdirWalk 1 0x1000 false = .ok (oneMapping, none) := rfl
    have past : loop oneMapping 1 0x400000 0x401000 = .ok [] := by
      rw [loop, if_neg (by decide)]
    have next : advance oneMapping 0x1000 none = 0x401000 := by decide
    rw [monShowmap, show roundDown 0x1000 0x1000 = 0x1000 by decide, loop, if_pos (by decide), walked]
    simp only [bind, Except.bind]
    rw [next, dif_pos (by decide), past]
    rfl
  · obtain ⟨a, one⟩ := complete 1024 (2, 0) (by decide) (by decide) ⟨⟨oneMapping, rfl⟩, by decide⟩
    have none : [⟨0x1000, none⟩].filter (about oneMapping 1 1024) = [] := by decide
    exact absurd (none.symm.trans one) (List.cons_ne_nil _ _).symm

end Jos.Kern.Showmap
