import Jos.Shared.Ring
import Jos.Kern.MouseOverlay

namespace Jos.Kern

open Jos.Shared

def consbufsize : Nat := 512

instance : NeZero consbufsize := ⟨by decide⟩

variable {α : Type}

structure InputRing (α : Type) where
  buf : Fin consbufsize → α
  rpos : Fin consbufsize
  wpos : Fin consbufsize

namespace InputRing

variable (ring : InputRing α)

def stash (x : α) : InputRing α :=
  { ring with buf := Function.update ring.buf ring.wpos x, wpos := ring.wpos + 1 }

def take : Option (α × InputRing α) :=
  if ring.rpos ≠ ring.wpos then some (ring.buf ring.rpos, { ring with rpos := ring.rpos + 1 }) else none

def readable : List α := segment ring.buf ring.rpos ring.wpos

end InputRing

def consIntr (ring : InputRing Byte) (proc : List Byte) : InputRing Byte :=
  proc.foldl (fun ring c => if c = 0 then ring else ring.stash c) ring

def consGetc (ring : InputRing Byte) (serial kbd : List Byte) : Byte × InputRing Byte :=
  let ring := consIntr (consIntr ring serial) kbd
  ring.take.getD (0, ring)

theorem consGetc_eq (ring : InputRing Byte) (serial kbd : List Byte) :
    let polled := ((serial ++ kbd).filter (· ≠ 0)).foldl InputRing.stash ring
    consGetc ring serial kbd = polled.take.getD (0, polled) := by
  have intr : ∀ (proc : List Byte) (ring : InputRing Byte),
      consIntr ring proc = (proc.filter (· ≠ 0)).foldl InputRing.stash ring := by
    intro proc
    induction proc with
    | nil => exact fun _ => rfl
    | cons c proc ih =>
      intro ring
      rw [consIntr, List.foldl_cons, ← consIntr, ih, List.filter_cons]
      by_cases zero : c = 0
      · simp [zero]
      · simp only [if_false, ne_eq, zero, not_false_eq_true, decide_true, if_true, List.foldl_cons]
  simp only [consGetc, intr, List.filter_append, List.foldl_append]

def mouseGetp (ring : InputRing α) (poll : List α) : Option α × InputRing α :=
  let ring := poll.foldl InputRing.stash ring
  ring.take.elim (none, ring) fun (pkt, ring) => (some pkt, ring)

theorem click_stash (s : Mouse.Driver) (p : Mouse.Packet) (ring : InputRing (Option Mouse.MouseUPkt))
    (pressed : p.lBtn || p.rBtn || p.mBtn) (pos : s.wpos = ring.wpos.val)
    (same : ∀ i : Fin consbufsize, s.buf i = ring.buf i) :
    ∃ pkt, (s.click p).wpos = (ring.stash pkt).wpos.val ∧
      ∀ i : Fin consbufsize, (s.click p).buf i = (ring.stash pkt).buf i := by
  have kept : (if p.mBtn then s.middle else s).buf = s.buf ∧
    (if p.mBtn then s.middle else s).wpos = s.wpos := by
    split <;> simp [Mouse.Driver.middle, Mouse.Driver.drawMouse_true, Mouse.Driver.drawMouse_false,
      Mouse.Driver.withScreen]
  simp only [Mouse.Driver.click, if_pos pressed, kept.1, kept.2, InputRing.stash, pos]
  generalize (some _ : Option Mouse.MouseUPkt) = pkt
  refine ⟨pkt, ?_, fun i => ?_⟩
  · have below : ring.wpos.val < 512 := ring.wpos.isLt
    have wrap : (ring.wpos + 1).val = (ring.wpos.val + 1) % 512 := Fin.val_add ..
    rw [wrap, Mouse.bufsize]
    split <;> omega
  · simp only [Function.update_apply, same, Fin.val_inj]

structure Input (α : Type) where
  ring : InputRing α
  stashed : List α
  returned : List α

namespace Input

def init (buf : Fin consbufsize → α) : Input α := ⟨⟨buf, 0, 0⟩, [], []⟩

inductive Event (α : Type) where
  | stash (x : α)
  | read

def stash (s : Input α) (x : α) : Input α :=
  { s with ring := s.ring.stash x, stashed := s.stashed ++ [x] }

def read (s : Input α) : Input α :=
  match s.ring.take with
  | some (x, ring) => { s with ring := ring, returned := s.returned ++ [x] }
  | none => s

def step (s : Input α) : Event α → Option (Input α)
  | .stash x => some (s.stash x)
  | .read => some s.read

def unread (s : Input α) : Nat := s.stashed.length - s.returned.length

structure Keeps (s : Input α) : Prop where
  order : s.returned.Sublist s.stashed
  all : s.unread ≤ 511 → s.returned ++ s.ring.readable = s.stashed
  most : 511 < s.unread → 511 ≤ s.ring.readable.length

def Room (s : Input α) : Event α → Prop
  | .stash _ => s.unread < 511
  | .read => True

variable {s t : Input α}

theorem step_stash {x : α} (next : s.step (.stash x) = some t) : t = s.stash x :=
  (Option.some.inj next).symm

theorem step_read (next : s.step .read = some t) : t = s.read :=
  (Option.some.inj next).symm

-- Polling and then reading is what `mouse_getp` does, as it is what `cons_getc` does.
theorem mouseGetp_eq (s : Input α) (poll : List α) :
    let t := (poll.foldl stash s).read
    (mouseGetp s.ring poll).2 = t.ring ∧ t.returned = s.returned ++ (mouseGetp s.ring poll).1.toList := by
  have polled : (poll.foldl stash s).ring = poll.foldl InputRing.stash s.ring ∧
      (poll.foldl stash s).returned = s.returned := by
    induction poll generalizing s with
    | nil => exact ⟨rfl, rfl⟩
    | cons x poll ih => exact ih (s.stash x)
  simp only [mouseGetp, read, polled.1]
  cases (poll.foldl InputRing.stash s.ring).take with
  | none => simp [polled]
  | some got => simp [polled]

theorem readable_length_le : s.ring.readable.length ≤ 511 := by
  have below := (s.ring.wpos - s.ring.rpos).isLt
  simp only [InputRing.readable, Shared.segment, List.length_map, List.length_range]
  exact Nat.le_of_lt_succ below

theorem readable_stash (x : α) :
    (s.ring.stash x).readable = if s.ring.wpos + 1 = s.ring.rpos then [] else s.ring.readable ++ [x] := by
  split
  next full => simp [InputRing.stash, InputRing.readable, full]
  next room => exact segment_push s.ring.buf room x

theorem read_readable : s.read.returned ++ s.read.ring.readable = s.returned ++ s.ring.readable := by
  unfold read InputRing.take
  by_cases empty : s.ring.rpos = s.ring.wpos
  · simp [empty]
  · simp [empty, InputRing.readable, segment_pop s.ring.buf empty]

theorem read_stashed : s.read.stashed = s.stashed := by
  unfold read
  split <;> rfl

theorem full_iff (whole : s.returned ++ s.ring.readable = s.stashed) :
    s.ring.wpos + 1 = s.ring.rpos ↔ ¬s.unread < 511 := by
  have count : s.unread = (s.ring.wpos - s.ring.rpos).val := by
    simp [unread, ← whole, InputRing.readable, Shared.segment]
  rw [count]
  generalize s.ring.wpos = hi, s.ring.rpos = lo
  have top : (hi - lo).val < 512 := (hi - lo).isLt
  constructor
  · rintro rfl
    have last : (hi - (hi + 1)).val = 511 := by
      rw [sub_add_cancel_left]
      decide
    omega
  · intro many
    have minus : (-1 : Fin consbufsize).val = 511 := by decide
    have last : hi - lo = -1 := Fin.ext (by omega)
    rw [sub_eq_iff_eq_add.mp last, add_right_comm, neg_add_cancel, zero_add]

theorem step_sublist {e : Event α} (sub : (s.returned ++ s.ring.readable).Sublist s.stashed)
    (next : s.step e = some t) : (t.returned ++ t.ring.readable).Sublist t.stashed := by
  cases e with
  | stash x =>
    rw [step_stash next]
    simp only [stash, readable_stash]
    split
    · exact ((List.append_nil s.returned).symm ▸ (List.sublist_append_left _ _).trans sub).trans
        (List.sublist_append_left _ _)
    · exact List.append_assoc .. ▸ sub.append (.refl [x])
  | read =>
    rw [step_read next, read_readable, read_stashed]
    exact sub

theorem step_whole {e : Event α} (whole : s.returned ++ s.ring.readable = s.stashed) (room : s.Room e)
    (next : s.step e = some t) : t.returned ++ t.ring.readable = t.stashed := by
  cases e with
  | stash x =>
    have free := mt (full_iff whole).mp (not_not.mpr room)
    rw [step_stash next]
    simp [stash, readable_stash, free, ← whole]
  | read =>
    rw [step_read next, read_readable, read_stashed]
    exact whole

theorem keeps_of_whole (whole : s.returned ++ s.ring.readable = s.stashed) : s.Keeps := by
  have few := readable_length_le (s := s)
  refine ⟨whole ▸ List.sublist_append_left _ _, fun _ => whole, fun many => ?_⟩
  rw [unread, ← whole, List.length_append] at many
  omega

theorem not_keeps_full {x : α} (whole : s.returned ++ s.ring.readable = s.stashed)
    (full : ¬s.unread < 511) : ¬(s.stash x).Keeps := by
  intro keeps
  have empty : (s.ring.stash x).readable = [] := by
    rw [readable_stash, if_pos ((full_iff whole).mpr full)]
  have many : 511 < (s.stash x).unread := by
    simp only [unread, stash, List.length_append, List.length_singleton] at full ⊢
    omega
  have some := keeps.most many
  rw [stash, empty] at some
  contradiction

theorem input_keeps_iff (buf : Fin consbufsize → α) :
    (∀ es s, Run step (fun _ _ => True) (init buf) es s → s.returned.Sublist s.stashed) ∧
    ∀ es s, Run step Room (init buf) es s → s.Keeps ∧ ∀ e t, s.step e = some t →
    (t.Keeps ↔ s.Room e) := by
  refine ⟨fun es s run => ?_, fun es s run => ?_⟩
  · have sub := run.invariant (motive := fun s => (s.returned ++ s.ring.readable).Sublist s.stashed)
      (by simp [init, InputRing.readable]) fun _ _ _ sub _ next => step_sublist sub next
    exact (List.sublist_append_left _ _).trans sub
  · have whole := run.invariant (motive := fun s => s.returned ++ s.ring.readable = s.stashed)
      (by simp [init, InputRing.readable]) fun _ _ _ whole room next => step_whole whole room next
    refine ⟨keeps_of_whole whole, fun e t next => ⟨fun keeps => ?_, fun room => ?_⟩⟩
    · cases e with
      | stash x =>
        by_contra full
        exact not_keeps_full whole full (step_stash next ▸ keeps)
      | read => trivial
    · exact keeps_of_whole (step_whole whole room next)

instance (s : Input α) (e : Event α) : Decidable (s.Room e) :=
  match e with
  | .stash _ => inferInstanceAs (Decidable (_ < _))
  | .read => isTrue trivial

theorem input_keeps_two :
    ∃ s, Run step Room (init fun _ => (0 : Byte)) [.stash 7, .stash 8, .read, .read] s ∧
    s.returned = [7, 8] ∧ s.Keeps := by
  refine Run.of_exec_imp (p := fun s => s.returned = [7, 8])
    (by decide +kernel) fun s run returned => ?_
  exact ⟨returned, ((input_keeps_iff fun _ => 0).2 _ _ run).1⟩

-- After 512 characters nothing can be read.
theorem input_loses_all :
    ∃ es s, Run step (fun _ _ => True) (init fun _ => (0 : Byte)) es s ∧ s.stashed.length = 512 ∧
      s.read.returned = [] ∧ ¬s.Keeps := by
  have ran : ∃ s,
    Run step (fun _ _ => True) (init fun _ => (0 : Byte)) (List.replicate 512 (.stash 1)) s ∧
      (s.stashed.length = 512 ∧ s.returned = [] ∧ s.read.returned = [] ∧ s.ring.rpos = s.ring.wpos) :=
    Run.of_exec_any (by decide +kernel)
  obtain ⟨s, run, count, none, nothing, same⟩ := ran
  refine ⟨_, s, run, count, nothing, fun keeps => ?_⟩
  have some := keeps.most (by simp [unread, count, none])
  simp [InputRing.readable, same] at some

end Input

end Jos.Kern
