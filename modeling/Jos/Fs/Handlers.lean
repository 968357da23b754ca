import Jos.Fs.Server

namespace Jos.Fs

open Jos.Shared
open Jos.Kern (Word Byte)

namespace BufM

variable {α β : Type}

structure Frame (R : Cache × β → Cache × β → Prop) : Prop where
  refl : ∀ s, R s s
  trans : ∀ s t u, R s t → R t u → R s u
  cache : ∀ s s' b, R (s, b) (s', b)

theorem loadBytes_length {a n : Nat} {s s' : Cache × β} {bytes : List Byte}
    (ran : (lift (FsM.loadBytes a n) : BufM β (List Byte)) s = .ok bytes s') : bytes.length = n := by
  obtain ⟨s, b⟩ := s
  simp only [lift, FsM.loadBytes, bind, EStateM.bind] at ran
  cases swept : sweep FsM.touch (FsM.pagesOf a n) (a / 4096) s with
  | error why t =>
    simp only [swept] at ran
    cases ran
  | ok u t =>
    simp only [swept] at ran
    cases ran
    simp

variable {R : Cache × β → Cache × β → Prop} (frame : Frame R)
include frame

theorem lift_moves (x : FsM α) : Moves R (lift x : BufM β α) := by
  rintro ⟨s, b⟩
  unfold lift
  cases ran : x s with
  | ok a s' =>
    simp only [ran]
    exact frame.cache s s' b
  | error why s' =>
    simp only [ran]
    exact frame.cache s s' b

theorem copyLoop_moves (limit : Nat) {f : FilePtr} {copy : Nat → Nat → Nat → BufM β Unit} {stop : Word}
    (copies : ∀ a i n, i + n ≤ limit → Moves R (copy a i n)) (fuel : Nat) (pos : Word) (i : Nat)
    (inside : i + (stop - pos).toNat ≤ limit) : Moves R (copyLoop f copy stop fuel pos i) := by
  induction fuel generalizing pos i with
  | zero => exact .throw frame.refl _
  | succ fuel ih =>
    unfold copyLoop
    by_cases before : pos < stop
    · rw [if_pos before]
      refine .bind frame.trans (lift_moves frame _) fun r => ?_
      cases r with
      | error e => exact .pure frame.refl _
      | ok blk =>
        obtain ⟨-, fits, sum⟩ := chunk_bounds before
        have order : pos.toNat ≤ stop.toNat := le_of_lt (show pos.toNat < stop.toNat from before)
        rw [BitVec.toNat_sub_of_le order] at inside
        refine .bind frame.trans (copies _ _ _ ?_) fun _ => ih _ _ ?_
        · show i + (chunk pos stop).toNat ≤ limit
          omega
        · have order' : pos + chunk pos stop ≤ stop := by
            show (pos + chunk pos stop).toNat ≤ stop.toNat
            omega
          show i + (chunk pos stop).toNat + (stop - (pos + chunk pos stop)).toNat ≤ limit
          rw [BitVec.toNat_sub_of_le order']
          omega
    · rw [if_neg before]
      exact .pure frame.refl _

theorem fileRead_moves {put : Nat → List Byte → BufM β Unit} {f : FilePtr} {count offset : Word}
    {limit : Nat} (puts : ∀ i bytes, i + bytes.length ≤ limit → Moves R (put i bytes))
    (few : count.toNat ≤ limit) : Moves R (fileRead put f count offset) := by
  refine .bind frame.trans (lift_moves frame _) fun size => ?_
  split
  · exact .pure frame.refl _
  · refine .bind frame.trans (copyLoop_moves frame limit (fun a i n room => ?_) _ _ _ ?_) fun r => ?_
    · refine .bind_of frame.trans (lift_moves frame _) fun s bytes s' ran => puts i bytes ?_
      rw [loadBytes_length ran]
      exact room
    · rw [Nat.zero_add, add_sub_cancel_left, toNat_wordMin]
      omega
    · cases r <;> exact .pure frame.refl _

theorem fileWrite_moves (limit : Nat) {fetch : Nat → Nat → BufM β (List Byte)} {f : FilePtr}
    {count offset : Word} (fetches : ∀ i n, i + n ≤ limit → Moves R (fetch i n))
    (few : count.toNat ≤ limit) : Moves R (fileWrite fetch f count offset) := by
  refine .bind frame.trans (lift_moves frame _) fun _ => ?_
  refine .bind frame.trans (copyLoop_moves frame limit (fun a i n room => ?_) _ _ _ ?_) fun r => ?_
  · exact .bind frame.trans (fetches i n room) fun bytes => lift_moves frame _
  · rw [Nat.zero_add, add_sub_cancel_left]
    exact few
  · cases r <;> exact .pure frame.refl _

end BufM

def OpenFile.private_ (o : OpenFile) : Word × Option FilePtr × Word × Option (List Nat) :=
  (o.fileid, o.file, o.mode, o.fd.map (·.clients))

namespace Desk

variable {d d' d'' : Desk}

def SameTable (d d' : Desk) : Prop :=
  d'.source = d.source ∧ ∀ i, (d'.opentab i).private_ = (d.opentab i).private_

theorem SameTable.trans (first : d.SameTable d') (second : d'.SameTable d'') : d.SameTable d'' :=
  ⟨second.1.trans first.1, fun i => (second.2 i).trans (first.2 i)⟩

theorem setFd_same (d : Desk) (i : Nat) (data : Block) : d.SameTable (d.setFd i data) := by
  unfold setFd
  split
  · exact ⟨rfl, fun _ => rfl⟩
  next page here =>
    refine ⟨rfl, fun j => ?_⟩
    by_cases same : j = i
    · subst same
      simp [setFile, OpenFile.private_, here]
    · simp [setFile, same]

theorem setWords_same (d : Desk) (data : Block) : d.SameTable (d.setWords data) := by
  unfold setWords
  split
  · exact ⟨rfl, fun _ => rfl⟩
  next i _ => exact d.setFd_same i data

theorem reach_same (d : Desk) (top : Nat) : d.SameTable (d.reach top) := ⟨rfl, fun _ => rfl⟩

structure Light (limit : Nat) (R : Desk → Desk → Prop) : Prop where
  refl : ∀ d, R d d
  trans : ∀ d d' d'', R d d' → R d' d'' → R d d''
  setFd : ∀ d i data, R d (d.setFd i data)
  setWords : ∀ d data, R d (d.setWords data)
  reach : ∀ d top, top ≤ limit → R d (d.reach top)

theorem sameTable_light (limit : Nat) : Light limit SameTable :=
  ⟨fun _ => ⟨rfl, fun _ => rfl⟩, fun _ _ _ => SameTable.trans, setFd_same, setWords_same,
    fun d top _ => d.reach_same top⟩

theorem Light.frame {limit : Nat} {R : Desk → Desk → Prop} (light : Light limit R) :
    BufM.Frame fun s t : Cache × Desk => R s.2 t.2 :=
  ⟨fun s => light.refl s.2, fun s t u => light.trans s.2 t.2 u.2, fun _ _ d => light.refl d⟩

end Desk

namespace ServM

open Desk (Light SameTable)

section Moves

variable {limit : Nat} {R : Desk → Desk → Prop}

abbrev Shifts {α : Type} (R : Desk → Desk → Prop) (x : ServM α) : Prop := Moves (fun s t => R s.2 t.2) x

theorem update_shifts {change : Desk → Desk} (changes : ∀ d, R d (change d)) : Shifts R (update change) :=
  fun s => changes s.2

variable (light : Light limit R)
include light

theorem desk_bind {α : Type} {run : Desk → ServM α} (runs : ∀ d, Shifts R (run d)) :
    Shifts R (desk >>= run) :=
  .bind light.frame.trans (fun s => light.refl s.2) runs

theorem putReply_shifts (i : Nat) (bytes : List Byte) (room : i + bytes.length ≤ limit) :
    Shifts R (putReply i bytes) := by
  refine .bind light.frame.trans (update_shifts fun d => ?_) fun _ => ?_
  · exact light.trans _ _ _ (light.setWords d _) (light.reach _ _ room)
  · split
    · exact .pure light.frame.refl _
    · exact BufM.lift_moves light.frame _

theorem fetchData_shifts (i n : Nat) (room : 8 + i + n ≤ limit) : Shifts R (fetchData i n) := by
  refine desk_bind light fun d =>
    .bind light.frame.trans (update_shifts fun d => light.reach d _ room) fun _ => ?_
  dsimp only
  split
  · exact .pure light.frame.refl _
  · exact .bind light.frame.trans (BufM.lift_moves light.frame _) fun _ => .pure light.frame.refl _

theorem advance_shifts (i : Nat) (r : Except Errno Word) : Shifts R (advance i r) := by
  cases r with
  | error e => exact .pure light.frame.refl _
  | ok r =>
    dsimp only [advance]
    split
    · exact .pure light.frame.refl _
    · exact .bind light.frame.trans (update_shifts fun d => light.setFd d i _) fun _ =>
        .pure light.frame.refl _

theorem withFile_shifts {run : Nat → FilePtr → ServM Word} (runs : ∀ i f, Shifts R (run i f)) :
    Shifts R (withFile run) := by
  refine desk_bind light fun d => ?_
  split
  · exact .pure light.frame.refl _
  next i found =>
    split
    · exact .throw light.frame.refl _
    next f _ => exact runs i f

theorem read_shifts (i : Nat) (f : FilePtr) {count : Word} (offset : Word) (few : count.toNat ≤ limit) :
    Shifts R (BufM.fileRead putReply f count offset >>= advance i) :=
  .bind light.frame.trans (BufM.fileRead_moves light.frame (putReply_shifts light) few)
    (advance_shifts light i)

theorem write_shifts (i : Nat) (f : FilePtr) {count : Word} (offset : Word)
    (few : 8 + count.toNat ≤ limit) :
    Shifts R (BufM.fileWrite fetchData f count offset >>= advance i) :=
  .bind light.frame.trans (BufM.fileWrite_moves light.frame (limit - 8)
    (fun i n room => fetchData_shifts light i n (by omega)) (by omega)) (advance_shifts light i)

end Moves

section Handlers

theorem serveStat_same : Shifts SameTable serveStat := by
  refine withFile_shifts (Desk.sameTable_light 0) fun i f => ?_
  have frame := (Desk.sameTable_light 0).frame
  refine .bind frame.trans (BufM.lift_moves frame _) fun name => ?_
  refine .bind frame.trans (putReply_shifts (Desk.sameTable_light _) 0 name (le_refl _)) fun _ => ?_
  refine .bind frame.trans (BufM.lift_moves frame _) fun size =>
    .bind frame.trans (BufM.lift_moves frame _) fun type => ?_
  exact .bind frame.trans (update_shifts fun d => d.setWords_same _) fun _ => .pure frame.refl _

theorem dispatch_same (req : Word) : Shifts SameTable (dispatch req) := by
  obtain ⟨limit, large⟩ : ∃ limit, limit = 2 ^ 32 + 8 := ⟨_, rfl⟩
  have light := Desk.sameTable_light limit
  have frame := light.frame
  unfold dispatch handlers
  split
  · exact .pure frame.refl _
  next handler found =>
    split at found <;> cases found
    · exact withFile_shifts light fun i f => desk_bind light fun d =>
        .bind frame.trans (BufM.lift_moves frame _) fun _ => .pure frame.refl _
    · refine withFile_shifts light fun i f => desk_bind light fun d => read_shifts light i f _ ?_
      have small := (d.words 1).isLt
      omega
    · refine withFile_shifts light fun i f => desk_bind light fun d => write_shifts light i f _ ?_
      have small := (d.words 1).isLt
      omega
    · exact serveStat_same
    · exact withFile_shifts light fun i f => .bind frame.trans (BufM.lift_moves frame _) fun _ =>
        .pure frame.refl _
    · exact .bind frame.trans (BufM.lift_moves frame _) fun _ => .pure frame.refl _

theorem handle_other {req : Word} (other : req ≠ 1) {memory : Bool} {s s' : Cache × Desk} {r : Word}
    {sent : Option Nat} (done : handle req memory s = .ok (r, sent) s') : sent = none ∧
    dispatch req s = .ok r s' := by
  unfold handle at done
  rw [if_neg other] at done
  simp only [bind, EStateM.bind] at done
  cases ran : dispatch req s with
  | error why t =>
    rw [ran] at done
    cases done
  | ok r' t =>
    rw [ran] at done
    cases done
    exact ⟨rfl, rfl⟩

end Handlers

section Open

variable {s s' : Cache} {d d' : Desk} {memory : Bool} {r : Word} {sent : Option Nat}

theorem openfileAlloc_cases (d : Desk) (memory : Bool) :
    (∃ r, openfileAlloc memory d = (.error r, d)) ∨ ∃ i, (i < maxopen ∧ d.pageref i ≤ 1) ∧
      ((∃ r, openfileAlloc memory d = (.error r, d.claim i)) ∨
      openfileAlloc memory d = (.ok i, d.claim i)) := by
  unfold openfileAlloc
  split
  · exact .inl ⟨_, rfl⟩
  next i found =>
    have free : i < maxopen ∧ d.pageref i ≤ 1 := by
      unfold freeEntry at found
      exact ⟨List.mem_range.mp (List.mem_of_find?_eq_some found), by simpa using List.find?_some found⟩
    split
    · exact .inl ⟨_, rfl⟩
    · refine .inr ⟨i, free, ?_⟩
      dsimp only
      split
      · exact .inl ⟨_, rfl⟩
      · exact .inr rfl

theorem openAs_cases {i : Nat} {path : List Byte} {omode : Word}
    (done : openAs i path omode (s, d) = .ok (r, sent) (s', d')) : sent = none ∧ d' = d ∨
    ∃ f, sent = some i ∧ d' = occupy i f omode d := by
  simp only [openAs, bind, EStateM.bind, BufM.lift] at done
  cases ran : openFile path omode s with
  | error why t =>
    simp only [ran] at done
    cases done
  | ok found t =>
    simp only [ran] at done
    cases found with
    | error e =>
      cases done
      exact .inl ⟨rfl, rfl⟩
    | ok f =>
      cases done
      exact .inr ⟨f, rfl, rfl⟩

theorem openfileLookup_some {id : Word} {i : Nat} (found : openfileLookup d id = some i) :
    (i = id.toNat % maxopen ∧ (d.opentab i).fileid = id) ∧
    ((d.opentab i).clients ≠ [] ∨ d.source = some i) := by
  unfold openfileLookup at found
  dsimp only at found
  split at found
  · cases found
  next used =>
    cases found
    push Not at used
    obtain ⟨count, same⟩ := used
    refine ⟨⟨rfl, same⟩, ?_⟩
    by_contra neither
    push Not at neither
    obtain ⟨none_, other⟩ := neither
    unfold Desk.pageref at count
    split at count
    · omega
    next page here =>
      have empty : page.clients = [] := by
        rw [OpenFile.clients, here] at none_
        exact none_
      rw [empty, if_neg other] at count
      simp at count

def openWith (path : List Byte) (omode : Word) : Except Word Nat → ServM (Word × Option Nat)
  | .error r => pure (r, none)
  | .ok i => openAs i path omode

theorem serveOpen_eq (s : Cache) (d : Desk) (memory : Bool) : serveOpen memory (s, d) =
    openWith (reqPath d.words) (reqOmode d.words) (openfileAlloc memory d).1 (s,
    (openfileAlloc memory d).2) := rfl

theorem serveOpen_cases (done : serveOpen memory (s, d) = .ok (r, sent) (s', d')) :
    sent = none ∧ d' = d ∨ ∃ i, (i < maxopen ∧ d.pageref i ≤ 1) ∧
      (sent = none ∧ d' = d.claim i ∨ ∃ f, sent = some i ∧
      d' = occupy i f (reqOmode d.words) (d.claim i)) := by
  rw [serveOpen_eq] at done
  obtain ⟨r', taken⟩ | ⟨i, free, ⟨r', taken⟩ | taken⟩ :=
    openfileAlloc_cases d memory <;> rw [taken] at done
  · cases done
    exact .inl ⟨rfl, rfl⟩
  · cases done
    exact .inr ⟨i, free, .inl ⟨rfl, rfl⟩⟩
  · exact .inr ⟨i, free, openAs_cases done⟩

end Open

end ServM

end Jos.Fs
