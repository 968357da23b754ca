import Jos.Kern.Mmu

namespace Jos.Kern.Cga

open Function

abbrev crtRows : Nat := 25
abbrev crtCols : Nat := 80
abbrev crtSize : Nat := crtRows * crtCols

abbrev Cell := BitVec 16

def blank : Cell := 0x0700 ||| 0x20

structure Crt where
  crtBuf : Nat → Cell
  crtPos : BitVec 16
  -- The indices into `crtBuf` that have been stored to.
  stores : List Nat

def start (buf : Nat → Cell) (pos : BitVec 16) : Crt := ⟨buf, pos, []⟩

def Crt.store (s : Crt) (i : Nat) (v : Cell) : Crt :=
  { s with crtBuf := update s.crtBuf i v, stores := s.stores ++ [i] }

def Crt.fill (s : Crt) (value : Crt → Nat → Cell) (first : Nat) : Nat → Crt
  | 0 => s
  | n + 1 => (s.fill value first n).store (first + n) (value (s.fill value first n) (first + n))

-- `memmove` copies upwards here because the target lies below the source.
def Crt.scroll (s : Crt) : Crt :=
  if crtSize ≤ s.crtPos.toNat then
    let s := s.fill (fun s i => s.crtBuf (crtCols + i)) 0 (crtSize - crtCols)
    let s := s.fill (fun _ _ => blank) (crtSize - crtCols) crtCols
    { s with crtPos := s.crtPos - BitVec.ofNat 16 crtCols }
  else s

def attributed (c : Word) : Word := if c &&& ~~~0xFF = 0 then c ||| 0x0700 else c

def char (c : Word) : BitVec 8 := c.setWidth 8

def tab (c : Word) : Nat := if char c = 9 then 1 else 0

theorem tab_blank : tab 0x20 = 0 := by decide

theorem char_attributed (c : Word) : char (attributed c) = char c := by
  unfold attributed char
  split
  · ext i small
    simp
  · rfl

def Crt.carriage (s : Crt) : Crt := { s with crtPos := s.crtPos - s.crtPos % BitVec.ofNat 16 crtCols }

mutual

def cgaPutc (s : Crt) (c : Word) : Crt :=
  Crt.scroll <|
    if char (attributed c) = 8 then
      if 0 < s.crtPos then
        let s := { s with crtPos := s.crtPos - 1 }
        s.store s.crtPos.toNat ((attributed c &&& ~~~0xFF ||| 0x20).setWidth 16)
      else s
    else if char (attributed c) = 10 then { s with crtPos := s.crtPos + BitVec.ofNat 16 crtCols }.carriage
    else if char (attributed c) = 13 then s.carriage
    else if char (attributed c) = 9 then
      consPutc (consPutc (consPutc (consPutc (consPutc s 0x20) 0x20) 0x20) 0x20) 0x20
    else
      let s := s.store s.crtPos.toNat ((attributed c).setWidth 16)
      { s with crtPos := s.crtPos + 1 }
termination_by 2 * tab c
decreasing_by all_goals
  rename_i is
  rw [char_attributed] at is
  rw [tab_blank, tab, if_pos is]
  decide

def consPutc (s : Crt) (c : Word) : Crt := cgaPutc s c
termination_by 2 * tab c + 1
decreasing_by omega

end

/-- A terminal that keeps all its lines and shows the last `crtRows` of them. -/
structure Terminal where
  line : Nat → Fin crtCols → Cell
  top : Nat
  row : Fin crtRows
  col : Fin crtCols

namespace Terminal

def start (buf : Nat → Cell) (pos : Nat) : Terminal where
  line r c := buf (crtCols * r + c)
  top := 0
  row := Fin.ofNat _ (pos / crtCols)
  col := Fin.ofNat _ (pos % crtCols)

def shown (t : Terminal) (r : Fin crtRows) (c : Fin crtCols) : Cell := t.line (t.top + r) c

def set (t : Terminal) (v : Cell) : Terminal :=
  { t with line := update t.line (t.top + t.row) (update (t.line (t.top + t.row)) t.col v) }

def feed (t : Terminal) : Terminal :=
  if next : t.row + 1 < crtRows then { t with row := ⟨t.row + 1, next⟩, col := 0 }
  else { t with line := update t.line (t.top + crtRows) fun _ => blank, top := t.top + 1, col := 0 }

def advance (t : Terminal) : Terminal :=
  if next : t.col + 1 < crtCols then { t with col := ⟨t.col + 1, next⟩ } else t.feed

def write (t : Terminal) (v : Cell) : Terminal := (t.set v).advance

def erase (t : Terminal) (v : Cell) : Terminal :=
  if 0 < t.col.val then { t with col := ⟨t.col - 1, by omega⟩ }.set v
  else if 0 < t.row.val then { t with row := ⟨t.row - 1, by omega⟩, col := 79 }.set v
  else t

def putc (t : Terminal) (c : Word) : Terminal :=
  let colours : Cell := (attributed c &&& ~~~0xFF).setWidth 16
  if char c = 8 then t.erase (colours ||| 0x20)
  else if char c = 10 then t.feed
  else if char c = 13 then { t with col := 0 }
  else if char c = 9 then ((((t.write blank).write blank).write blank).write blank).write blank
  else t.write (colours ||| (char c).setWidth 16)

end Terminal

def Crt.screen (s : Crt) (r : Fin crtRows) (c : Fin crtCols) : Cell := s.crtBuf (crtCols * r + c)

structure Shows (t : Terminal) (s : Crt) : Prop where
  pos : s.crtPos.toNat = crtCols * t.row + t.col
  cells : s.screen = t.shown
  inside : ∀ i ∈ s.stores, i < crtSize

variable {t : Terminal} {s : Crt}

theorem store_inside (inside : ∀ i ∈ s.stores, i < crtSize) {i : Nat} (small : i < crtSize) (v : Cell) :
    ∀ j ∈ (s.store i v).stores, j < crtSize := by
  intro j member
  obtain member | same := List.mem_append.mp member
  · exact inside j member
  · rwa [List.mem_singleton.mp same]

theorem fill_eq (s : Crt) (value : Crt → Nat → Cell) (g : Nat → Cell)
    (values : ∀ s' i, (∀ j, i ≤ j → s'.crtBuf j = s.crtBuf j) → value s' i = g i) (first n : Nat) :
    (s.fill value first n).crtPos = s.crtPos ∧
    (s.fill value first n).stores = s.stores ++ List.range' first n ∧
      ∀ i, (s.fill value first n).crtBuf i = if first ≤ i ∧ i < first + n then g i else s.crtBuf i := by
  induction n with
  | zero =>
    refine ⟨rfl, by simp [Crt.fill], fun i => ?_⟩
    rw [if_neg (by omega), Crt.fill]
  | succ n ih =>
    obtain ⟨pos, stores, cells⟩ := ih
    have stored := values (s.fill value first n) (first + n) fun j above => by
      rw [cells, if_neg (by omega)]
    refine ⟨pos, ?_, ?_⟩
    · simp only [Crt.fill, Crt.store, stores, List.range'_concat, List.append_assoc, Nat.one_mul]
    · intro i
      simp only [Crt.fill, Crt.store, stored, update_apply, cells]
      grind

theorem pos_lt (t : Terminal) : crtCols * t.row + t.col < crtSize := by
  have row := t.row.isLt
  have col := t.col.isLt
  simp only [crtSize, crtRows, crtCols] at *
  omega

theorem scroll_of_lt (small : s.crtPos.toNat < crtSize) : s.scroll = s := if_neg (not_le.mpr small)

theorem scroll_last (pos : s.crtPos.toNat = crtSize) :
    s.scroll.crtPos.toNat = crtSize - crtCols ∧
      s.scroll.stores = s.stores ++ List.range' 0 (crtSize - crtCols) ++
      List.range' (crtSize - crtCols) crtCols ∧ ∀ i < crtSize,
      s.scroll.crtBuf i = if i < crtSize - crtCols then s.crtBuf (crtCols + i) else blank := by
  obtain ⟨pos₁, stores₁, copied⟩ :=
    fill_eq s (fun s i => s.crtBuf (crtCols + i)) (fun i => s.crtBuf (crtCols + i))
    (fun s' i same => same _ (Nat.le_add_left ..)) 0 (crtSize - crtCols)
  obtain ⟨pos₂, stores₂, cleared⟩ :=
    fill_eq (s.fill (fun s i => s.crtBuf (crtCols + i)) 0 (crtSize - crtCols)) (fun _ _ => blank)
    (fun _ => blank) (fun _ _ _ => rfl) (crtSize - crtCols) crtCols
  rw [Crt.scroll, if_pos pos.ge]
  refine ⟨?_, ?_, ?_⟩
  · simp only [pos₂, pos₁]
    simp only [crtSize, crtRows, crtCols] at *
    bv_omega
  · simp only [stores₂, stores₁]
  · intro i small
    simp only [cleared, copied]
    simp only [crtSize, crtRows, crtCols] at *
    grind

theorem feed_shows (pos : s.crtPos.toNat = crtCols * (t.row + 1)) (cells : s.screen = t.shown)
    (inside : ∀ i ∈ s.stores, i < crtSize) : Shows t.feed s.scroll := by
  have row := t.row.isLt
  unfold Terminal.feed
  split
  · rename_i next
    rw [scroll_of_lt (by simp only [crtSize, crtRows, crtCols] at *; omega)]
    exact ⟨pos, cells, inside⟩
  · rename_i last
    have here : t.row.val = 24 := by simp only [crtRows] at *; omega
    obtain ⟨moved, stores, shifted⟩ := scroll_last (pos.trans (by rw [here]; rfl))
    refine ⟨?_, ?_, ?_⟩
    · rw [moved, here]
      rfl
    · funext r c
      have bound := r.isLt
      have column := c.isLt
      simp only [Crt.screen, shifted _ (pos_lt ⟨t.line, 0, r, c⟩), Terminal.shown]
      by_cases below : r.val < 24
      · have line := congrFun (congrFun cells ⟨r + 1, Nat.succ_lt_succ below⟩) c
        rw [if_pos (by simp only [crtSize, crtRows, crtCols] at *; omega),
          update_of_ne (by simp only [crtRows]; omega)]
        simp only [Crt.screen, Terminal.shown] at line
        rw [show t.top + 1 + r.val = t.top + (r + 1) by omega, ← line]
        congr 1
        simp only [crtCols]
        omega
      · rw [if_neg (by simp only [crtSize, crtRows, crtCols] at *; omega),
          show t.top + 1 + r.val = t.top + crtRows by simp only [crtRows] at *; omega, update_self]
    · intro i member
      rw [stores, List.mem_append, List.mem_append, List.mem_range'_1, List.mem_range'_1] at member
      simp only [crtSize, crtRows, crtCols] at *
      grind

theorem set_shows (pos : s.crtPos.toNat = crtCols * t.row + t.col) (cells : s.screen = t.shown)
    (v : Cell) : (s.store s.crtPos.toNat v).screen = (t.set v).shown := by
  funext r c
  have cell := congrFun (congrFun cells r) c
  have column := c.isLt
  have cursor := t.col.isLt
  simp only [Crt.screen, Terminal.shown, Crt.store, Terminal.set, update_apply, pos] at *
  simp only [crtCols] at *
  by_cases there : r = t.row
  · subst there
    rw [if_pos rfl, update_apply]
    grind
  · have apart : r.val ≠ t.row.val := fun same => there (Fin.ext same)
    rw [if_neg (by omega), if_neg (by omega), cell]

theorem write_shows (shows : Shows t s) (v : Cell) :
    Shows (t.write v) { s.store s.crtPos.toNat v with crtPos := s.crtPos + 1 }.scroll := by
  have small := shows.pos ▸ pos_lt t
  have next : (s.crtPos + 1).toNat = s.crtPos.toNat + 1 := by
    simp only [crtSize, crtRows, crtCols] at small
    bv_omega
  have cells := set_shows shows.pos shows.cells v
  have inside := store_inside shows.inside small v
  unfold Terminal.write Terminal.advance
  split
  · rename_i more
    have row := t.row.isLt
    rw [scroll_of_lt (by
      simp only [Terminal.set, next, shows.pos, crtSize, crtRows, crtCols] at *
      omega)]
    exact ⟨by simp only [next, shows.pos, Terminal.set, Nat.add_assoc], cells, inside⟩
  · rename_i last
    refine feed_shows ?_ cells inside
    have col := t.col.isLt
    simp only [Terminal.set, next, shows.pos, crtCols] at *
    omega

theorem erase_shows (shows : Shows t s) (some : 0 < s.crtPos) (v : Cell) :
    Shows (t.erase v) ({ s with crtPos := s.crtPos - 1 }.store (s.crtPos - 1).toNat v) := by
  have pos := shows.pos
  have before : (s.crtPos - 1).toNat = s.crtPos.toNat - 1 := by bv_omega
  have inside := store_inside (s := { s with crtPos := s.crtPos - 1 }) shows.inside
    (before ▸ (Nat.sub_le ..).trans_lt (pos ▸ pos_lt t)) v
  have moved {t' : Terminal} (lines : t'.shown = t.shown)
    (back : crtCols * t.row + t.col - 1 = crtCols * t'.row + t'.col) :
      Shows (t'.set v) ({ s with crtPos := s.crtPos - 1 }.store (s.crtPos - 1).toNat v) := by
    have there : (s.crtPos - 1).toNat = crtCols * t'.row + t'.col := by rw [before, pos, back]
    exact ⟨there,
      set_shows (s := { s with crtPos := s.crtPos - 1 }) there (shows.cells.trans lines.symm) v,
      inside⟩
  have positive : 0 < s.crtPos.toNat := some
  unfold Terminal.erase
  split
  · exact moved rfl (by simp only [crtCols]; omega)
  · split
    · exact moved rfl (by simp only [crtCols]; omega)
    · simp only [crtCols] at *
      omega

theorem attributed_cell (c : Word) :
    ((attributed c &&& ~~~0xFF).setWidth 16 ||| (char c).setWidth 16 : Cell) =
    (attributed c).setWidth 16 := by
  rw [← char_attributed, char]
  generalize attributed c = c
  have colours : ∀ i (small : i < 16), (65280#16)[i] = decide (8 ≤ i) := by decide
  ext i small
  simp [colours]
  grind

theorem carriage_pos (s : Crt) : s.carriage.crtPos.toNat = s.crtPos.toNat - s.crtPos.toNat % 80 := by
  have below := Nat.mod_le s.crtPos.toNat 80
  have left : (s.crtPos % BitVec.ofNat 16 crtCols).toNat = s.crtPos.toNat % 80 := BitVec.toNat_umod
  rw [Crt.carriage, BitVec.toNat_sub_of_le (BitVec.le_def.mpr (left ▸ below)), left]

theorem consPutc_blank (shows : Shows t s) : Shows (t.write blank) (consPutc s 0x20) := by
  have written := write_shows shows blank
  rw [consPutc, cgaPutc, if_neg (by decide), if_neg (by decide), if_neg (by decide), if_neg (by decide)]
  exact written

theorem putc_shows (shows : Shows t s) (c : Word) : Shows (t.putc c) (cgaPutc s c) := by
  have small := shows.pos ▸ pos_lt t
  have row := t.row.isLt
  have col := t.col.isLt
  rw [cgaPutc, Terminal.putc, char_attributed]
  by_cases back : char c = 8
  · rw [if_pos back, if_pos back]
    by_cases some : 0 < s.crtPos
    · have erased := erase_shows shows some ((attributed c &&& ~~~0xFF ||| 0x20).setWidth 16)
      rw [if_pos some, scroll_of_lt (erased.pos ▸ pos_lt _)]
      rw [BitVec.setWidth_or] at erased ⊢
      exact erased
    · have first : s.crtPos.toNat = 0 := by bv_omega
      have pos := shows.pos
      simp only [crtCols] at pos
      rw [if_neg some, scroll_of_lt small, Terminal.erase, if_neg (by omega), if_neg (by omega)]
      exact shows
  rw [if_neg back, if_neg back]
  by_cases newline : char c = 10
  · rw [if_pos newline, if_pos newline]
    refine feed_shows ?_ shows.cells shows.inside
    have pos := shows.pos
    have next : (s.crtPos + BitVec.ofNat 16 crtCols).toNat = s.crtPos.toNat + 80 := by
      simp only [crtSize, crtRows, crtCols] at *
      bv_omega
    rw [carriage_pos, next]
    simp only [crtCols] at *
    omega
  rw [if_neg newline, if_neg newline]
  by_cases carriage : char c = 13
  · rw [if_pos carriage, if_pos carriage]
    have pos := shows.pos
    have moved : s.carriage.crtPos.toNat = crtCols * t.row := by
      rw [carriage_pos]
      simp only [crtCols] at *
      omega
    rw [scroll_of_lt (by simp only [crtSize, crtRows, crtCols] at *; omega)]
    exact ⟨moved, shows.cells, shows.inside⟩
  rw [if_neg carriage, if_neg carriage]
  by_cases tabbed : char c = 9
  · rw [if_pos tabbed, if_pos tabbed]
    have five := consPutc_blank (consPutc_blank (consPutc_blank (consPutc_blank (consPutc_blank shows))))
    rwa [scroll_of_lt (five.pos ▸ pos_lt _)]
  · rw [if_neg tabbed, if_neg tabbed, attributed_cell]
    exact write_shows shows _

theorem start_shows (buf : Nat → Cell) {pos : BitVec 16} (small : pos.toNat < crtSize) :
    Shows (.start buf pos.toNat) (start buf pos) := by
  refine ⟨?_, ?_, List.forall_mem_nil _⟩
  · simp only [start, Terminal.start, Fin.val_ofNat, crtSize, crtRows, crtCols] at *
    omega
  · funext r c
    simp [Crt.screen, Terminal.shown, start, Terminal.start]

theorem run_shows (shows : Shows t s) (cs : List Word) :
    Shows (cs.foldl .putc t) (cs.foldl cgaPutc s) := by
  induction cs generalizing t s with
  | nil => exact shows
  | cons c cs ih => exact ih (putc_shows shows c)

theorem cga_is_terminal (buf : Nat → Cell) (pos : BitVec 16) (small : pos.toNat < crtSize)
    (cs : List Word) : let s := cs.foldl cgaPutc (start buf pos)
    let t := cs.foldl .putc (Terminal.start buf pos.toNat)
    s.crtPos.toNat < crtSize ∧ (∀ i ∈ s.stores, i < crtSize) ∧
      s.crtPos.toNat = crtCols * t.row + t.col ∧ s.screen = t.shown := by
  have shows := run_shows (start_shows buf small) cs
  exact ⟨shows.pos ▸ pos_lt _, shows.inside, shows.pos, shows.cells⟩

theorem cga_is_terminal_tab :
    let s := [0x09].foldl cgaPutc (start (fun _ => blank) 1998)
    let t := [0x09].foldl .putc (Terminal.start (fun _ => blank) 1998)
    s.crtPos.toNat < crtSize ∧ (∀ i ∈ s.stores, i < crtSize) ∧
      s.crtPos.toNat = crtCols * t.row + t.col ∧ s.screen = t.shown :=
  cga_is_terminal (fun _ => blank) 1998 (by decide) [0x09]

end Jos.Kern.Cga
