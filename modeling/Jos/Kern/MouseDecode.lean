import Jos.Kern.Mouse

namespace Jos.Kern.Mouse

structure Report where
  first : Byte
  x : Byte
  y : Byte
  wellFormed : first.getLsbD 3 = true
  deriving DecidableEq

namespace Report

variable {r : Report}

def bytes (r : Report) : List Byte := [r.first, r.x, r.y]

def stream (reports : List Report) : List Byte := reports.flatMap bytes

structure Agrees (r : Report) (p : Packet) : Prop where
  buttons : p.lBtn = r.first.getLsbD 0 ∧ p.rBtn = r.first.getLsbD 1 ∧ p.mBtn = r.first.getLsbD 2
  overflow : p.xOverflow = r.first.getLsbD 6 ∧ p.yOverflow = r.first.getLsbD 7
  xMov : p.xMov = (BitVec.ofBool (r.first.getLsbD 4) ++ r.x).toInt
  yMov : p.yMov = (BitVec.ofBool (r.first.getLsbD 5) ++ r.y).toInt

-- The middle button and no movement: these bytes are taken for the sign that the mouse has been
-- started again.
def Mistaken (r : Report) : Prop := r.bytes = [12, 0, 0]

instance (r : Report) : Decidable r.Mistaken := inferInstanceAs (Decidable (_ = _))

theorem first_ne_zero (r : Report) : r.first ≠ 0 := by
  intro zero
  have set := r.wellFormed
  rw [zero] at set
  cases set

theorem length_stream (reports : List Report) : (stream reports).length = 3 * reports.length := by
  induction reports with
  | nil => rfl
  | cons r rest ih =>
    simp only [stream, List.flatMap_cons, List.length_append, List.length_cons] at ih ⊢
    rw [ih]
    simp only [bytes, List.length_cons, List.length_nil]
    omega

end Report

namespace Decoder

variable {d : Decoder} {a : Reading}

section Count

theorem round_count (d : Decoder) (a : Reading) :
    3 * (d.round a).1.length + (d.round a).2.count ≤ d.count + 1 := by
  unfold round
  dsimp only
  have stored : ∀ e : Decoder, (e.store a).count ≤ e.count := by
    intro e
    unfold store
    split
    · split <;> simp
    all_goals simp
  have bound := stored { d with count := d.count + 1, recovery := recover d.recovery a.data }
  dsimp only at bound
  split
  · simp
  · split
    next three =>
      simp only [List.length_cons, List.length_nil]
      omega
    · simp only [List.length_nil]
      omega

theorem rounds_count (d : Decoder) (readings : List Reading) :
    3 * (d.rounds readings).1.length + (d.rounds readings).2.count ≤ d.count + readings.length := by
  induction readings generalizing d with
  | nil => simp [rounds]
  | cons a rest ih =>
    have first := round_count d a
    have later := ih (d.round a).2
    simp only [rounds, List.length_append, List.length_cons]
    omega

end Count

structure Begun (d : Decoder) (first : Byte) : Prop where
  firstByte : d.firstByte = first
  buttons : d.packet.lBtn = first.getLsbD 0 ∧ d.packet.rBtn = first.getLsbD 1 ∧
    d.packet.mBtn = first.getLsbD 2
  overflow : d.packet.xOverflow = first.getLsbD 6 ∧ d.packet.yOverflow = first.getLsbD 7

theorem round_first (ready : d.count = 0) (set : a.data.getLsbD 3 = true) (some_ : a.data ≠ 0) :
    (d.round a).1 = [] ∧ (d.round a).2.count = 1 ∧ (d.round a).2.Begun a.data ∧
      (d.round a).2.recovery = if a.data = 12 then 0 else -1 := by
  have kept : recover d.recovery a.data = if a.data = 12 then 0 else -1 := by
    rw [recover, if_neg fun both => some_ both.2, if_neg fun both => some_ both.2]
  have fine : ¬recover d.recovery a.data = 2 := by
    rw [kept]
    split <;> decide
  have result : d.round a =
    ([], { d with count := 1, recovery := recover d.recovery a.data }.store a) := by
    simp [round, store, ready, set, fine]
  rw [result]
  simp only [store, set, if_true]
  exact ⟨trivial, trivial, ⟨rfl, ⟨rfl, rfl, rfl⟩, rfl, rfl⟩, kept⟩

theorem round_second {first : Byte} (second : d.count = 1) (begun : d.Begun first)
    (away : d.recovery ≠ 1) : (d.round a).1 = [] ∧ (d.round a).2.count = 2 ∧
    (d.round a).2.Begun first ∧
      (d.round a).2.packet.xMov = a.data.toNat - (if first.getLsbD 4 then 256 else 0) ∧
      (d.round a).2.recovery = recover d.recovery a.data := by
  have fine : ¬recover d.recovery a.data = 2 := by
    unfold recover
    split
    · decide
    · rw [if_neg fun both => away both.1]
      split <;> decide
  have result : d.round a =
    ([], { d with count := 2, recovery := recover d.recovery a.data }.store a) := by
    simp [round, store, second, fine]
  rw [result]
  simp only [store]
  obtain ⟨same, buttons, overflow⟩ := begun
  exact ⟨trivial, trivial, ⟨same, buttons, overflow⟩, by rw [same], trivial⟩

theorem round_third {first : Byte} (third : d.count = 2) (begun : d.Begun first) :
    (d.round a).2.count = 0 ∧
      (recover d.recovery a.data = 2 → (d.round a).1 = []) ∧
      (¬recover d.recovery a.data = 2 → ∃ p : Packet, (d.round a).1 = [p] ∧ p.xMov = d.packet.xMov ∧
        p.yMov = a.data.toNat - (if first.getLsbD 5 then 256 else 0) ∧
        (p.lBtn = first.getLsbD 0 ∧ p.rBtn = first.getLsbD 1 ∧ p.mBtn = first.getLsbD 2) ∧
        p.xOverflow = first.getLsbD 6 ∧ p.yOverflow = first.getLsbD 7) := by
  obtain ⟨same, buttons, overflow⟩ := begun
  by_cases restarted : recover d.recovery a.data = 2
  · have result : (d.round a).1 = [] ∧ (d.round a).2.count = 0 := by simp [round, store, third, restarted]
    exact ⟨result.2, fun _ => result.1, fun fine => absurd restarted fine⟩
  · have result : d.round a = ([{ d.packet with
        yMov := a.data.toNat - (if d.firstByte.getLsbD 5 then 256 else 0), tick := d.ticks }],
        { { d with count := 3, recovery := recover d.recovery a.data }.store a with count := 0 }) := by
      simp [round, store, third, restarted]
    rw [result]
    exact ⟨rfl, fun failed => absurd failed restarted,
      fun _ => ⟨_, rfl, rfl, by rw [same], buttons, overflow⟩⟩

end Decoder

theorem toInt_movement (sign : Bool) (data : Byte) :
    (data.toNat : Int) - (if sign then 256 else 0) = (BitVec.ofBool sign ++ data).toInt := by
  have bound := data.isLt
  rw [BitVec.toInt_eq_toNat_cond, BitVec.toNat_append]
  cases sign
  · simp
    omega
  · simp [Nat.shiftLeft_eq, ← Nat.two_pow_add_eq_or_of_lt (i := 8) bound 1]
    omega

section Reports

variable {d : Decoder} {r : Report} {a b c : Reading}

theorem recover_report (r : Report) :
    recover (recover (if r.first = 12 then 0 else -1) r.x) r.y = 2 ↔ r.Mistaken := by
  have shape : r.Mistaken ↔ r.first = 12 ∧ r.x = 0 ∧ r.y = 0 := by simp [Report.Mistaken, Report.bytes]
  rw [shape]
  by_cases twelve : r.first = 12 <;> by_cases x : r.x = 0 <;> by_cases y : r.y = 0 <;>
    by_cases x' : r.x = 12 <;> by_cases y' : r.y = 12 <;> simp_all [recover]

def heard (reports : List Report) : List Report := reports.filter fun r => ¬r.Mistaken

theorem rounds_report (ready : d.count = 0) (r : Report) (first : a.data = r.first)
    (second : b.data = r.x) (third : c.data = r.y) (rest : List Reading) :
    ∃ (e : Decoder) (called : List Packet), e.count = 0 ∧ List.Forall₂ Report.Agrees (heard [r]) called ∧
      (d.rounds (a :: b :: c :: rest)).1 = called ++ (e.rounds rest).1 := by
  obtain ⟨none₁, count₁, begun₁, recovery₁⟩ :=
    Decoder.round_first
      (a := a) ready (by rw [first]; exact r.wellFormed) (by rw [first]; exact r.first_ne_zero)
  have away : (d.round a).2.recovery ≠ 1 := by
    rw [recovery₁]
    split <;> decide
  obtain ⟨none₂, count₂, begun₂, xMov, recovery₂⟩ := Decoder.round_second (a := b) count₁ begun₁ away
  obtain ⟨count₃, restarted, told⟩ := Decoder.round_third (a := c) count₂ begun₂
  rw [recovery₂, recovery₁, first, second, third, recover_report r] at restarted told
  refine ⟨_, (((d.round a).2.round b).2.round c).1, count₃,
    ?_, by simp only [Decoder.rounds, none₁, none₂, List.nil_append]⟩
  by_cases mistaken : r.Mistaken
  · rw [restarted mistaken]
    simp [heard, mistaken]
  · obtain ⟨p, called, xSame, yMov, buttons, overflow⟩ := told mistaken
    rw [called]
    have agrees : r.Agrees p := by
      refine ⟨buttons, overflow, ?_, ?_⟩
      · rw [xSame, xMov, first, second, toInt_movement]
      · rw [yMov, toInt_movement]
    simpa [heard, mistaken] using agrees

theorem rounds_reports (ready : d.count = 0) (reports : List Report) (readings : List Reading)
    (same : readings.map Reading.data = Report.stream reports) :
    List.Forall₂ Report.Agrees (heard reports) (d.rounds readings).1 := by
  induction reports generalizing d readings with
  | nil =>
    obtain rfl : readings = [] := List.map_eq_nil_iff.mp same
    exact .nil
  | cons r reports ih =>
    match readings, same with
    | [_], same => simp [Report.stream, Report.bytes] at same
    | [_, _], same => simp [Report.stream, Report.bytes] at same
    | a :: b :: c :: rest, same =>
      simp only [Report.stream, Report.bytes, List.flatMap_cons, List.map_cons, List.cons_append,
        List.nil_append, List.cons.injEq] at same
      obtain ⟨first, second, third, same⟩ := same
      obtain ⟨e, called, ready', agrees, result⟩ := rounds_report ready r first second third rest
      rw [result, heard, ← List.singleton_append, List.filter_append]
      exact List.rel_append agrees (ih ready' rest same)

end Reports

section Interrupts

variable {d : Decoder} {reports : List Report} {intrs : List Interrupt}

def received (intrs : List Interrupt) : List Byte := intrs.flatMap fun intr => intr.bytes.map Reading.data

theorem mouseIntrs_count (d : Decoder) (intrs : List Interrupt) :
    3 * (mouseIntrs d intrs).1.length ≤ (received intrs).length ∧
      (3 * (mouseIntrs d intrs).1.length = (received intrs).length → ∀ intr ∈ intrs,
      3 ∣ intr.bytes.length) := by
  induction intrs generalizing d with
  | nil => simp [mouseIntrs, received]
  | cons intr rest ih =>
    have here := Decoder.rounds_count (d.enter intr.now) intr.bytes
    have count : (d.enter intr.now).count = 0 := rfl
    obtain ⟨few, whole⟩ := ih (mouseIntr d intr).2
    simp only [mouseIntrs, received, List.flatMap_cons, List.length_append, List.length_map]
      at few whole ⊢
    change 3 * (mouseIntr d intr).1.length + _ ≤ _ at here
    constructor
    · omega
    · intro all member inside
      rcases List.mem_cons.mp inside with rfl | later
      · exact ⟨(mouseIntr d member).1.length, by omega⟩
      · exact whole (by omega) member later

theorem mouseIntrs_whole (whole : ∀ intr ∈ intrs, 3 ∣ intr.bytes.length)
    (same : received intrs = Report.stream reports) :
    List.Forall₂ Report.Agrees (heard reports) (mouseIntrs d intrs).1 := by
  induction intrs generalizing d reports with
  | nil =>
    have none_ : reports = [] := by
      have length := Report.length_stream reports
      rw [← same] at length
      exact List.eq_nil_of_length_eq_zero (by simpa [received] using length)
    rw [none_]
    exact .nil
  | cons intr rest ih =>
    obtain ⟨k, length⟩ := whole intr List.mem_cons_self
    have split : Report.stream reports = Report.stream (reports.take k) ++
      Report.stream (reports.drop k) := by
      rw [Report.stream, Report.stream, Report.stream, ← List.flatMap_append, List.take_append_drop]
    have enough : k ≤ reports.length := by
      have total := congrArg List.length same
      rw [Report.length_stream] at total
      simp only [received, List.flatMap_cons, List.length_append, List.length_map] at total
      omega
    rw [split, received, List.flatMap_cons] at same
    obtain ⟨first, later⟩ := List.append_inj same (by
      rw [List.length_map, Report.length_stream, List.length_take, length]
      omega)
    rw [← List.take_append_drop k reports, heard, List.filter_append]
    apply List.rel_append
    · exact rounds_reports rfl _ _ first
    · exact ih (fun other inside => whole other (List.mem_cons_of_mem _ inside)) later

theorem reports_decoded_iff (d : Decoder) (reports : List Report) (intrs : List Interrupt)
    (same : received intrs = Report.stream reports) :
    List.Forall₂ Report.Agrees reports (mouseIntrs d intrs).1 ↔
      (∀ intr ∈ intrs, 3 ∣ intr.bytes.length) ∧ ∀ r ∈ reports, ¬r.Mistaken := by
  constructor
  · intro decoded
    have length := decoded.length_eq
    have whole := (mouseIntrs_count d intrs).2 (by rw [same, Report.length_stream, length])
    have most := (mouseIntrs_whole (d := d) whole same).length_eq
    refine ⟨whole, fun r member => ?_⟩
    have all : (heard reports).length = reports.length := by omega
    simpa using List.length_filter_eq_length_iff.mp all r member
  · intro ⟨whole, fine⟩
    have all : heard reports = reports := List.filter_eq_self.mpr fun r member => by
      simpa using fine r member
    have decoded := mouseIntrs_whole (d := d) whole same
    rwa [all] at decoded

def idle : Decoder := ⟨⟨false, false, false, false, false, false, false, 0, 0, 0⟩, 0, 0, 0, 0⟩

theorem reports_decoded_two : List.Forall₂ Report.Agrees [⟨0x18, 0xFF, 0, rfl⟩, ⟨0x09, 0, 0, rfl⟩]
    (mouseIntrs idle [⟨5, [⟨0x18, 5⟩, ⟨0xFF, 5⟩, ⟨0, 5⟩]⟩, ⟨9, [⟨0x09, 9⟩, ⟨0, 9⟩, ⟨0, 9⟩]⟩]).1 :=
  (reports_decoded_iff idle _ _ rfl).mpr ⟨by decide, by decide⟩

-- A report of the middle button is dropped, and so is one that two interrupts share.
theorem reports_lost :
    (received [⟨5, [⟨12, 5⟩, ⟨0, 5⟩, ⟨0, 5⟩]⟩] = Report.stream [⟨12, 0, 0, rfl⟩] ∧
      ¬List.Forall₂ Report.Agrees [⟨12, 0, 0, rfl⟩]
      (mouseIntrs idle [⟨5, [⟨12, 5⟩, ⟨0, 5⟩, ⟨0, 5⟩]⟩]).1) ∧
    received [⟨5, [⟨9, 5⟩]⟩, ⟨6, [⟨1, 6⟩, ⟨2, 6⟩]⟩] = Report.stream [⟨9, 1, 2, rfl⟩] ∧
      ¬List.Forall₂ Report.Agrees [⟨9, 1, 2, rfl⟩]
      (mouseIntrs idle [⟨5, [⟨9, 5⟩]⟩, ⟨6, [⟨1, 6⟩, ⟨2, 6⟩]⟩]).1 := by
  have dropped : (mouseIntrs idle [⟨5, [⟨12, 5⟩, ⟨0, 5⟩, ⟨0, 5⟩]⟩]).1 = [] := by decide
  have shared : (mouseIntrs idle [⟨5, [⟨9, 5⟩]⟩, ⟨6, [⟨1, 6⟩, ⟨2, 6⟩]⟩]).1 = [] := by decide
  rw [dropped, shared]
  exact ⟨⟨rfl, nofun⟩, rfl, nofun⟩

end Interrupts

end Jos.Kern.Mouse
