import Jos.User.Httpd

namespace Jos.User

open Jos.Shared
open Jos.Kern (Byte)

namespace Httpd

def Ends (c b : Byte) : Prop := b = 0 ∨ b = c

def Clean (c : Byte) (text : List Byte) : Prop := ∀ b ∈ text, ¬ Ends c b

def Delimits (data url version : List Byte) : Prop :=
  ∃ e tail, data = bytes "GET " ++ (url ++ 32 :: (version ++ e :: tail)) ∧ Clean 32 url ∧
    Clean 10 version ∧ Ends 10 e

def Differs (data : List Byte) : Prop := ¬ bytes "GET " <+: data ∧ ¬ data <+: bytes "GET "

instance (c b : Byte) : Decidable (Ends c b) := inferInstanceAs (Decidable (_ ∨ _))

theorem get_eq : bytes "GET " = [71, 69, 84, 32] := by decide

theorem get_clean : ∀ b ∈ bytes "GET ", b ≠ 0 := by decide

theorem stop_cases (c : Byte) (xs : List Byte) :
    Clean c xs ∨ ∃ text e tail, xs = text ++ e :: tail ∧ Clean c text ∧ Ends c e := by
  induction xs with
  | nil => exact .inl nofun
  | cons b xs ih =>
    by_cases ends : Ends c b
    · exact .inr ⟨[], b, xs, rfl, nofun, ends⟩
    · obtain clean | ⟨text, e, tail, rfl, clean, stop⟩ := ih
      · exact .inl (List.forall_mem_cons.mpr ⟨ends, clean⟩)
      · exact .inr ⟨b :: text, e, tail, rfl, List.forall_mem_cons.mpr ⟨ends, clean⟩, stop⟩

end Httpd

def Client.saw (s : Client) (offsets : List Nat) : Client := { s with reads := s.reads ++ offsets }

theorem Client.saw_nil (s : Client) : s.saw [] = s := by rw [saw, List.append_nil]

theorem Client.saw_saw (s : Client) (first second : List Nat) :
    (s.saw first).saw second = s.saw (first ++ second) := by
  simp only [saw, List.append_assoc]

namespace Httpd

section Loops

variable {c : Byte} {s : Client}

theorem touch_run (p : Nat) (s : Client) : touch p s = .ok () (s.saw [p]) := rfl

theorem skipTo_clean (text memory : List Byte) (p : Nat) (clean : Clean c text) :
    skipTo c (text ++ memory) p s =
    skipTo c memory (p + text.length) (s.saw (List.range' p text.length)) := by
  induction text generalizing p s with
  | nil => simp [Client.saw_nil]
  | cons b text ih =>
    obtain ⟨goes, clean⟩ := List.forall_mem_cons.mp clean
    have goes : b ≠ 0 ∧ b ≠ c := by simpa [Ends] using goes
    rw [List.cons_append, skipTo, run_bind (touch_run p s), if_pos goes, ih (p + 1) clean, Client.saw_saw,
      List.length_cons, List.range'_succ, List.singleton_append, Nat.add_assoc, Nat.add_comm 1]

theorem skipTo_stop {e : Byte} (tail : List Byte) (p : Nat) (stop : Ends c e) :
    skipTo c (e :: tail) p s = .ok p (s.saw [p]) := by
  have stays : ¬ (e ≠ 0 ∧ e ≠ c) := by
    unfold Ends at stop
    tauto
  rw [skipTo, run_bind (touch_run p s), if_neg stays]
  rfl

theorem strncmp_same (text memory q : List Byte) (p : Nat) (clean : ∀ b ∈ text, b ≠ 0) :
    strncmp (text ++ memory) p (text ++ q) s =
    strncmp memory (p + text.length) q (s.saw (List.range' p text.length)) := by
  induction text generalizing p s with
  | nil => simp [Client.saw_nil]
  | cons b text ih =>
    obtain ⟨nonzero, clean⟩ := List.forall_mem_cons.mp clean
    rw [List.cons_append, List.cons_append, strncmp, run_bind (touch_run p s),
      if_pos ⟨nonzero, rfl⟩, ih (p + 1) clean, Client.saw_saw, List.length_cons, List.range'_succ,
      List.singleton_append, Nat.add_assoc, Nat.add_comm 1]

theorem strncmp_differ {b d : Byte} (memory q : List Byte) (p : Nat) (differ : b ≠ d) :
    ∃ r, r ≠ 0 ∧ strncmp (b :: memory) p (d :: q) s = .ok r (s.saw [p]) := by
  refine ⟨b.toNat - d.toNat, fun zero => differ (BitVec.eq_of_toNat_eq (by omega)), ?_⟩
  rw [strncmp, run_bind (touch_run p s), if_neg fun both => differ both.2]
  rfl

end Loops

theorem compare_cases (q data : List Byte) :
    q <+: data ∨ (∃ d q', q = data ++ d :: q') ∨
      ∃ common b tail d q', data = common ++ b :: tail ∧ q = common ++ d :: q' ∧ b ≠ d := by
  induction q generalizing data with
  | nil => exact .inl List.nil_prefix
  | cons d q ih =>
    cases data with
    | nil => exact .inr (.inl ⟨d, q, rfl⟩)
    | cons b data =>
      by_cases same : b = d
      · subst same
        obtain begins | ⟨e, q', rfl⟩ | ⟨common, x, tail, y, q', rfl, rfl, differ⟩ := ih data
        · exact .inl ((List.prefix_cons_inj b).mpr begins)
        · exact .inr (.inl ⟨e, q', rfl⟩)
        · exact .inr (.inr ⟨b :: common, x, tail, y, q', rfl, rfl, differ⟩)
      · exact .inr (.inr ⟨[], b, data, d, q, rfl, rfl, same⟩)

section Reads

def Sees (s t : Client) : Prop := ∀ i ∈ s.reads, i ∈ t.reads

theorem Sees.refl (s : Client) : Sees s s := fun _ => id

theorem Sees.trans (s t u : Client) (first : Sees s t) (second : Sees t u) : Sees s u :=
  fun i seen => second i (first i seen)

theorem sees_touch (p : Nat) : Moves Sees (touch p) := fun _ _ seen => List.mem_append_left _ seen

theorem sees_skipTo (c : Byte) (memory : List Byte) (p : Nat) : Moves Sees (skipTo c memory p) := by
  induction memory generalizing p with
  | nil => exact .bind Sees.trans (sees_touch p) fun _ => .throw Sees.refl _
  | cons b memory ih =>
    refine .bind Sees.trans (sees_touch p) fun _ => ?_
    split
    · exact ih (p + 1)
    · exact .pure Sees.refl _

theorem sees_strncmp (memory q : List Byte) (p : Nat) : Moves Sees (strncmp memory p q) := by
  induction q generalizing memory p with
  | nil =>
    rw [strncmp]
    exact .pure Sees.refl _
  | cons d q ih =>
    cases memory with
    | nil => exact .bind Sees.trans (sees_touch p) fun _ => .throw Sees.refl _
    | cons b memory =>
      refine .bind Sees.trans (sees_touch p) fun _ => ?_
      split
      · exact ih memory (p + 1)
      · exact .pure Sees.refl _

theorem sees_copyString (w : World) (memory : List Byte) (start len : Nat) :
    Moves Sees (copyString w memory start len) := by
  refine .bind Sees.trans (fun s => Sees.refl s) fun v => ?_
  split
  · exact .throw Sees.refl _
  · exact .bind Sees.trans (fun _ _ seen => List.mem_append_left _ seen) fun _ => .pure Sees.refl _

theorem sees_parseVersion (w : World) (memory : List Byte) (p : Nat) :
    Moves Sees (parseVersion w memory p) :=
  .bind Sees.trans (sees_skipTo _ _ _) fun _ => .bind Sees.trans (sees_copyString _ _ _ _) fun _ =>
    .bind Sees.trans (fun s => Sees.refl s) fun _ => .pure Sees.refl _

theorem sees_parseUrl (w : World) (memory memory' : List Byte) : Moves Sees (parseUrl w memory memory') :=
  .bind Sees.trans (sees_skipTo _ _ _) fun _ => .bind Sees.trans (sees_copyString _ _ _ _) fun _ =>
    .bind Sees.trans (fun s => Sees.refl s) fun _ => sees_parseVersion _ _ _

theorem seen_bind {α β : Type} {x : HttpM α} {f : α → HttpM β} {s s' : Client} {b : β} {p : Nat}
    (first : p ∈ (after x s).reads) (rest : ∀ a, Moves Sees (f a)) (done : (x >>= f) s = .ok b s') :
    p ∈ s'.reads := by
  cases ran : x s with
  | ok a t =>
    rw [after_ok ran] at first
    rw [run_bind ran] at done
    exact (rest a).of_ok done p first
  | error why t =>
    rw [run_bind_error ran] at done
    cases done

theorem touch_reads {α : Type} {f : Unit → HttpM α} (p : Nat) (s : Client) (rest : Moves Sees (f ())) :
    p ∈ (after (touch p >>= f) s).reads := by
  rw [after_bind (touch_run p s)]
  exact rest.after _ p (List.mem_append_right _ (List.mem_singleton_self p))

theorem skipTo_reads (c : Byte) (memory : List Byte) (p : Nat) (s : Client) :
    p ∈ (after (skipTo c memory p) s).reads := by
  cases memory with
  | nil => exact touch_reads p s (.throw Sees.refl _)
  | cons b memory =>
    refine touch_reads p s ?_
    split
    · exact sees_skipTo c memory (p + 1)
    · exact .pure Sees.refl _

theorem strncmp_reads (memory q : List Byte) (d : Byte) (p : Nat) (s : Client) :
    p ∈ (after (strncmp memory p (d :: q)) s).reads := by
  cases memory with
  | nil => exact touch_reads p s (.throw Sees.refl _)
  | cons b memory =>
    refine touch_reads p s ?_
    split
    · exact sees_strncmp memory q (p + 1)
    · exact .pure Sees.refl _

end Reads

section Parse

variable {w : World} {s : Client} {memory memory' : List Byte}

theorem copyString_null (memory : List Byte) (start len : Nat)
    (null : w.malloc s.blocks.length (len + 1) = 0) :
    ∃ s', copyString w memory start len s = .error .fault s' ∧ s'.sent = s.sent := by
  refine ⟨{ s with blocks := s.blocks ++ [w.malloc s.blocks.length (len + 1)] }, ?_, rfl⟩
  rw [copyString, run_bind (show malloc w (len + 1) s = .ok _ _ from rfl), if_pos null]
  rfl

theorem copyString_run (memory : List Byte) (start len : Nat)
    (block : w.malloc s.blocks.length (len + 1) ≠ 0) : copyString w memory start len s =
      .ok ⟨w.malloc s.blocks.length (len + 1), (memory.drop start).take len⟩
        ({ s with blocks := s.blocks ++ [w.malloc s.blocks.length (len + 1)] }.saw
        (List.range' start len)) := by
  rw [copyString, run_bind (show malloc w (len + 1) s = .ok _ _ from rfl), if_neg block]
  rfl

theorem skipTo_run {c e : Byte} {text tail : List Byte} (p : Nat)
    (rest : memory = text ++ e :: tail) (clean : Clean c text) (stop : Ends c e) :
    skipTo c memory p s = .ok (p + text.length) (s.saw (List.range' p (text.length + 1))) := by
  rw [rest, skipTo_clean text _ p clean, skipTo_stop tail _ stop, Client.saw_saw,
    List.range'_concat, Nat.one_mul]

theorem skipTo_beyond {c : Byte} (text above : List Byte) (p : Nat) (clean : Clean c text) :
    p + text.length ∈ (after (skipTo c (text ++ above) p) s).reads := by
  rw [after, skipTo_clean text above p clean]
  exact skipTo_reads ..

def textReads (p len : Nat) : List Nat := List.range' p (len + 1) ++ List.range' p len

theorem mem_textReads {p len i : Nat} (seen : i ∈ textReads p len) : i ≤ p + len := by
  simp only [textReads, List.mem_append, List.mem_range'_1] at seen
  omega

theorem parseVersion_run {e : Byte} {version tail : List Byte} (p : Nat)
    (rest : memory.drop p = version ++ e :: tail) (clean : Clean 10 version) (stop : Ends 10 e)
    (block : w.malloc s.blocks.length (version.length + 1) ≠ 0) : parseVersion w memory p s =
      .ok 0 ({ s with
        req := { s.req with version := ⟨w.malloc s.blocks.length (version.length + 1), version⟩ }
        blocks :=
        s.blocks ++ [w.malloc s.blocks.length (version.length + 1)] }.saw
        (textReads p version.length)) := by
  rw [parseVersion, run_bind (skipTo_run p rest clean stop), Nat.add_sub_cancel_left,
    run_bind (copyString_run (s := s.saw _) memory p version.length block), rest, List.take_left,
      textReads, ← Client.saw_saw]
  rfl

theorem parseVersion_null {e : Byte} {version tail : List Byte} (p : Nat)
    (rest : memory.drop p = version ++ e :: tail) (clean : Clean 10 version) (stop : Ends 10 e)
    (null : w.malloc s.blocks.length (version.length + 1) = 0) :
    ∃ s', parseVersion w memory p s = .error .fault s' ∧ s'.sent = s.sent := by
  obtain ⟨s', failed, same⟩ :=
    copyString_null (s := s.saw (List.range' p (version.length + 1))) memory p _ null
  refine ⟨s', ?_, same⟩
  rw [parseVersion, run_bind (skipTo_run p rest clean stop), Nat.add_sub_cancel_left,
    run_bind_error failed]

theorem parseUrl_run {e : Byte} {url tail : List Byte} (rest : memory.drop 4 = url ++ e :: tail)
    (clean : Clean 32 url) (stop : Ends 32 e)
    (block : w.malloc s.blocks.length (url.length + 1) ≠ 0) : parseUrl w memory memory' s =
      parseVersion w memory' (4 + url.length + 1)
        ({ s with
          req := { s.req with url := ⟨w.malloc s.blocks.length (url.length + 1), url⟩ }
          blocks :=
          s.blocks ++ [w.malloc s.blocks.length (url.length + 1)] }.saw
          (textReads 4 url.length)) := by
  rw [parseUrl, run_bind (skipTo_run 4 rest clean stop), Nat.add_sub_cancel_left,
    run_bind (copyString_run (s := s.saw _) memory 4 url.length block), rest, List.take_left,
      textReads, ← Client.saw_saw]
  rfl

theorem parseUrl_null {e : Byte} {url tail : List Byte} (memory' : List Byte)
    (rest : memory.drop 4 = url ++ e :: tail) (clean : Clean 32 url) (stop : Ends 32 e)
    (null : w.malloc s.blocks.length (url.length + 1) = 0) :
    ∃ s', parseUrl w memory memory' s = .error .fault s' ∧ s'.sent = s.sent := by
  obtain ⟨s', failed, same⟩ :=
    copyString_null (s := s.saw (List.range' 4 (url.length + 1))) memory 4 _ null
  refine ⟨s', ?_, same⟩
  rw [parseUrl, run_bind (skipTo_run 4 rest clean stop), Nat.add_sub_cancel_left, run_bind_error failed]

theorem parse_get {rest : List Byte} (get : memory = bytes "GET " ++ rest) :
    httpRequestParse w memory memory' s = parseUrl w memory memory' (s.saw (List.range' 0 4)) := by
  have same := strncmp_same (s := s) (bytes "GET ") rest [] 0 get_clean
  rw [List.append_nil, ← get, strncmp] at same
  rw [httpRequestParse, run_bind same]
  rfl

theorem parse_differ {common tail q : List Byte} {b d : Byte} (above memory' : List Byte)
    (data : memory = common ++ b :: tail) (get : bytes "GET " = common ++ d :: q) (differ : b ≠ d) :
    httpRequestParse w (memory ++ above) memory' s =
    .ok (-eBadReq) (s.saw (List.range' 0 (common.length + 1))) := by
  have clean : ∀ x ∈ common, x ≠ 0 :=
    fun x member => get_clean x (by rw [get]; exact List.mem_append_left _ member)
  obtain ⟨r, nonzero, done⟩ :=
    strncmp_differ (s := s.saw (List.range' 0 common.length)) (tail ++ above) q (0 + common.length) differ
  rw [← strncmp_same common _ _ 0 clean, ← get, ← List.cons_append, ← List.append_assoc, ← data,
    Client.saw_saw] at done
  rw [httpRequestParse, run_bind done, if_pos nonzero, List.range'_concat, Nat.one_mul]
  rfl

end Parse

section Frees

def Keeps (s t : Client) : Prop := t.req = s.req ∧ t.blocks = s.blocks ∧ t.freed = s.freed

theorem Keeps.refl (s : Client) : Keeps s s := ⟨rfl, rfl, rfl⟩

theorem Keeps.trans (s t u : Client) (first : Keeps s t) (second : Keeps t u) : Keeps s u :=
  ⟨second.1.trans first.1, second.2.1.trans first.2.1, second.2.2.trans first.2.2⟩

theorem keeps_write (w : World) (data : List Byte) : Moves Keeps (write w data) := fun s => Keeps.refl s

theorem keeps_send {α : Type} (w : World) (data : List Byte) {p : Int → Prop} [DecidablePred p]
    {bad good : HttpM α} (onBad : Moves Keeps bad) (onGood : Moves Keeps good) :
    Moves Keeps (do let r ← write w data; if p r then bad else good) := by
  refine .bind Keeps.trans (keeps_write w data) fun r => ?_
  split
  · exact onBad
  · exact onGood

theorem keeps_sendHeader (w : World) (code : Int) : Moves Keeps (sendHeader w code) := by
  unfold sendHeader
  split
  · exact .pure Keeps.refl _
  · exact keeps_send w _ (.throw Keeps.refl _) (.pure Keeps.refl _)

theorem keeps_sendText (w : World) (size : Nat) (text : List Byte) :
    Moves Keeps (sendText w size text) := by
  unfold sendText
  split
  · exact .throw Keeps.refl _
  · exact keeps_send w _ (.pure Keeps.refl _) (.pure Keeps.refl _)

theorem keeps_sendData (w : World) (fd : Option OpenFile) : Moves Keeps (sendData w fd) := by
  unfold sendData
  split
  · exact .pure Keeps.refl _
  · exact keeps_send w _ (.throw Keeps.refl _) (.pure Keeps.refl _)

theorem keeps_sendError (w : World) (code : Int) : Moves Keeps (sendError w code) := by
  unfold sendError
  split
  · exact .pure Keeps.refl _
  · exact keeps_send w _ (.pure Keeps.refl _) (.pure Keeps.refl _)

theorem keeps_then {x : HttpM Int} {next : HttpM Int} (first : Moves Keeps x)
    (second : Moves Keeps next) : Moves Keeps (do let r ← x; if r < 0 then pure r else next) := by
  refine .bind Keeps.trans first fun r => ?_
  split
  · exact .pure Keeps.refl _
  · exact second

theorem keeps_ignore {x : HttpM Int} (moves : Moves Keeps x) : Moves Keeps (ignore x) :=
  .bind Keeps.trans moves fun _ => .pure Keeps.refl _

theorem keeps_notFoundIf (w : World) (failed : Bool) : Moves Keeps (notFoundIf w failed) := by
  unfold notFoundIf
  split
  · exact keeps_ignore (keeps_sendError w 404)
  · exact .pure Keeps.refl _

theorem keeps_sendFile (w : World) : Moves Keeps (sendFile w) := by
  refine .bind Keeps.trans (fun s => Keeps.refl s) fun s => ?_
  refine .bind Keeps.trans (keeps_notFoundIf w _) fun _ =>
    .bind Keeps.trans (keeps_notFoundIf w _) fun _ =>
    .bind Keeps.trans (keeps_notFoundIf w _) fun _ => ?_
  exact keeps_then (keeps_sendHeader w 200)
    (keeps_then (keeps_sendText w _ _)
    (keeps_then (keeps_sendText w _ _)
    (keeps_then (keeps_send w _ (.pure Keeps.refl _) (.pure Keeps.refl _)) (keeps_sendData w _))))

theorem keeps_respond (w : World) (r : Int) : Moves Keeps (respond w r) := by
  unfold respond
  split
  · exact keeps_ignore (keeps_sendError w 400)
  · split
    · exact .throw Keeps.refl _
    · exact keeps_ignore (keeps_sendFile w)

section Handle

variable {w : World} {sock r : Int} {con : HttpRequest} {t : Client} {data above above' : List Byte}

theorem handle_parsed
    (parsed : httpRequestParse w (data ++ above) (data ++ above')
    (.enter { con with sock := sock }) = .ok r t) :
    handleClient w ⟨some data, above, above'⟩ sock (.enter con) =
    (respond w r >>= fun _ => reqFree) t := by
  show (httpRequestParse w (data ++ above) (data ++ above') >>= fun r => respond w r >>= fun _ => reqFree)
    (.enter { con with sock := sock }) = _
  rw [run_bind parsed]

theorem reqFree_run (s : Client) :
    reqFree s = .ok () { s with freed := s.freed ++ [s.req.url.addr, s.req.version.addr] } := by
  show EStateM.Result.ok () { s with freed := s.freed ++ [s.req.url.addr] ++ [s.req.version.addr] } = _
  rw [List.append_assoc]
  rfl

theorem handle_frees
    (parsed : httpRequestParse w (data ++ above) (data ++ above')
    (.enter { con with sock := sock }) = .ok r t) :
    (after (handleClient w ⟨some data, above, above'⟩ sock) (.enter con)).blocks = t.blocks ∧
      ∀ v ∈ (after (handleClient w ⟨some data, above, above'⟩ sock) (.enter con)).freed,
        v ∈ t.freed ++ [t.req.url.addr, t.req.version.addr] := by
  have kept := (keeps_respond w r).after t
  unfold after at kept ⊢
  rw [handle_parsed parsed]
  cases ran : respond w r t with
  | ok a u =>
    rw [ran] at kept
    rw [run_bind ran, reqFree_run]
    dsimp only
    rw [kept.1, kept.2.1, kept.2.2]
    exact ⟨rfl, fun _ => id⟩
  | error why u =>
    rw [ran] at kept
    rw [run_bind_error ran]
    dsimp only
    rw [kept.2.1, kept.2.2]
    exact ⟨rfl, fun _ => List.mem_append_left _⟩

theorem sendError_returns (code : Int) (s : Client) : ∃ r u, sendError w code s = .ok r u := by
  unfold sendError
  cases errors.find? fun e => e.1 = code with
  | none => exact ⟨_, _, rfl⟩
  | some entry =>
    dsimp only
    rw [run_bind (show write w (errorText entry.1 entry.2) s = .ok _ _ from rfl)]
    split
    · exact ⟨_, _, rfl⟩
    · exact ⟨_, _, rfl⟩

theorem handle_bad
    (parsed : httpRequestParse w (data ++ above) (data ++ above')
    (.enter { con with sock := sock }) = .ok (-eBadReq) t) :
    (after (handleClient w ⟨some data, above, above'⟩ sock) (.enter con)).freed =
      t.freed ++ [t.req.url.addr, t.req.version.addr] := by
  obtain ⟨r, u, sent⟩ := sendError_returns (w := w) 400 t
  have ran : respond w (-eBadReq) t = .ok () u := by
    rw [respond, if_pos rfl, ignore, run_bind sent]
    rfl
  have kept := (keeps_respond w (-eBadReq)).of_ok ran
  unfold after
  rw [handle_parsed parsed, run_bind ran, reqFree_run]
  dsimp only
  rw [kept.1, kept.2.2]

end Handle

end Frees

structure ParseSafe (w : World) (con : HttpRequest) (sock : Int) (data above above' : List Byte) :
    Prop where
  parsed :
    ∃ r s, httpRequestParse w (data ++ above) (data ++ above') (.enter { con with sock := sock }) =
    .ok r s ∧ (∀ i ∈ s.reads, i < data.length) ∧
    (r = 0 ∧ Delimits data s.req.url.text s.req.version.text ∨ r = -eBadReq ∧ ¬ bytes "GET " <+: data)
  freed : ∀ v ∈ (after (handleClient w ⟨some data, above, above'⟩ sock) (.enter con)).freed,
    v = 0 ∨ v ∈ (after (handleClient w ⟨some data, above, above'⟩ sock) (.enter con)).blocks

-- The received bytes hold a whole request line and there is memory for its parts; or they show that
-- this is no `GET`, and what the stack happens to hold at `con_d` are null pointers.
def Acceptable (w : World) (con : HttpRequest) (data : List Byte) : Prop :=
  (∃ url version, Delimits data url version ∧ w.malloc 0 (url.length + 1) ≠ 0 ∧
    w.malloc 1 (version.length + 1) ≠ 0) ∨ Differs data ∧ con.url.addr = 0 ∧ con.version.addr = 0

section Safe

variable {w : World} {sock : Int} {con : HttpRequest} {data above above' : List Byte}

theorem differs_of {common tail q : List Byte} {b d : Byte} (received : data = common ++ b :: tail)
    (get : bytes "GET " = common ++ d :: q) (differ : b ≠ d) : Differs data := by
  rw [Differs, received, get, List.prefix_append_right_inj, List.prefix_append_right_inj]
  exact ⟨fun begins => differ (List.cons_prefix_cons.mp begins).1.symm,
    fun begins => differ (List.cons_prefix_cons.mp begins).1⟩

theorem drop_get (rest : List Byte) : (bytes "GET " ++ rest).drop 4 = rest := List.drop_left' rfl

theorem drop_url (url rest : List Byte) (b : Byte) :
    (bytes "GET " ++ (url ++ b :: rest)).drop (4 + url.length + 1) = rest := by
  have split : bytes "GET " ++ (url ++ b :: rest) = (bytes "GET " ++ url ++ [b]) ++ rest := by simp
  rw [split]
  exact List.drop_left' (by simp [get_eq]; omega)

theorem safe_of_delimits {url version : List Byte} (line : Delimits data url version)
    (block : w.malloc 0 (url.length + 1) ≠ 0) (block' : w.malloc 1 (version.length + 1) ≠ 0) :
    ParseSafe w con sock data above above' := by
  obtain ⟨e, tail, shape, clean, clean', stop⟩ := id line
  have memory : ∀ beyond,
    data ++ beyond = bytes "GET " ++ (url ++ 32 :: (version ++ e :: (tail ++ beyond))) := by
    intro beyond
    rw [shape]
    simp
  have rest : (data ++ above).drop 4 = url ++ 32 :: (version ++ e :: (tail ++ above)) := by
    rw [memory, drop_get]
  have rest' : (data ++ above').drop (4 + url.length + 1) = version ++ e :: (tail ++ above') := by
    rw [memory, drop_url]
  have length : data.length = 4 + url.length + 1 + version.length + 1 + tail.length := by
    rw [shape, get_eq]
    simp
    omega
  have parsed := (parse_get (w := w) (s := .enter { con with sock := sock }) (memory above)).trans
    ((parseUrl_run rest clean (.inr rfl) block).trans (parseVersion_run _ rest' clean' stop block'))
  obtain ⟨same, freed⟩ := handle_frees parsed
  refine ⟨⟨_, _, parsed, fun i seen => ?_, .inl ⟨rfl, line⟩⟩, fun v member => .inr ?_⟩
  · simp only [Client.saw, Client.enter, List.nil_append, List.mem_append] at seen
    obtain (first | url) | version := seen
    · have := List.mem_range'_1.mp first
      omega
    · have := mem_textReads url
      omega
    · have := mem_textReads version
      omega
  · rw [same]
    simpa [Client.saw, Client.enter] using freed v member

theorem safe_of_differs (differs : Differs data) (null : con.url.addr = 0)
    (null' : con.version.addr = 0) : ParseSafe w con sock data above above' := by
  obtain begins | ⟨d, q, short⟩ | ⟨common, b, tail, d, q, received, get, differ⟩ :=
    compare_cases (bytes "GET ") data
  · exact absurd begins differs.1
  · exact absurd ⟨_, short.symm⟩ differs.2
  · have parsed :=
      parse_differ (w := w)
      (s := .enter { con with sock := sock }) above (data ++ above') received get differ
    obtain ⟨-, freed⟩ := handle_frees parsed
    refine ⟨⟨_, _, parsed, fun i seen => ?_, .inr ⟨rfl, differs.1⟩⟩, fun v member => .inl ?_⟩
    · have seen : i < common.length + 1 := by simpa [Client.saw, Client.enter] using seen
      rw [received, List.length_append, List.length_cons]
      omega
    · have freed := freed v member
      simp only [Client.saw, Client.enter, List.nil_append, List.mem_cons, List.not_mem_nil,
        or_false, null, null'] at freed
      omega

theorem acceptable_of_get {xs : List Byte} (get : data = bytes "GET " ++ xs)
    (safe : ParseSafe w con sock data above above') : Acceptable w con data := by
  obtain ⟨r, s, parsed, inside, line⟩ := safe.parsed
  have begins : bytes "GET " <+: data := ⟨xs, get.symm⟩
  have found := (line.resolve_right fun bad => bad.2 begins).2
  have length : data.length = 4 + xs.length := by
    rw [get, get_eq]
    simp
    omega
  have rest : ∀ beyond, (data ++ beyond).drop 4 = xs ++ beyond := fun beyond => by
    rw [get, List.append_assoc, drop_get]
  have begins' : data ++ above = bytes "GET " ++ (xs ++ above) := by rw [get, List.append_assoc]
  rw [parse_get begins'] at parsed
  obtain clean | ⟨url, e, ys, rfl, clean, stop⟩ := stop_cases 32 xs
  · have beyond :=
      skipTo_beyond
      (s := (Client.enter { con with sock := sock }).saw (List.range' 0 4)) xs above 4 clean
    rw [← rest] at beyond
    have seen := seen_bind beyond (fun _ => .bind Sees.trans (sees_copyString _ _ _ _) fun _ =>
      .bind Sees.trans (fun s => Sees.refl s) fun _ => sees_parseVersion _ _ _) parsed
    have := inside _ seen
    omega
  · have rest := rest above
    rw [List.append_assoc, List.cons_append] at rest
    by_cases block : w.malloc 0 (url.length + 1) = 0
    · obtain ⟨s', failed, -⟩ := parseUrl_null (w := w)
        (s := (Client.enter { con with sock := sock }).saw (List.range' 0 4)) (data ++ above') rest
          clean stop block
      rw [failed] at parsed
      cases parsed
    · rw [parseUrl_run rest clean stop block] at parsed
      generalize state : Client.saw _ (textReads 4 url.length) = t at parsed
      have one : t.blocks.length = 1 := by rw [← state]; rfl
      have url_eq : t.req.url.text = url := by rw [← state]; rfl
      have rest' : (data ++ above').drop (4 + url.length + 1) = ys ++ above' := by
        rw [get, List.append_assoc, List.append_assoc, List.cons_append, drop_url]
      obtain clean' | ⟨version, e', tail, rfl, clean', stop'⟩ := stop_cases 10 ys
      · rw [parseVersion, rest'] at parsed
        have seen := seen_bind (skipTo_beyond ys above' _ clean')
          (fun _ => .bind Sees.trans (sees_copyString _ _ _ _) fun _ =>
          .bind Sees.trans (fun s => Sees.refl s) fun _ => .pure Sees.refl _) parsed
        have := inside _ seen
        rw [List.length_append, List.length_cons] at length
        omega
      · rw [List.append_assoc, List.cons_append] at rest'
        by_cases block' : w.malloc 1 (version.length + 1) = 0
        · obtain ⟨s', failed, -⟩ :=
            parseVersion_null (w := w) (s := t) _ rest' clean' stop' (by rw [one]; exact block')
          rw [failed] at parsed
          cases parsed
        · rw [parseVersion_run _ rest' clean' stop' (by rw [one]; exact block')] at parsed
          obtain ⟨rfl, rfl⟩ := EStateM.Result.ok.inj parsed
          have found : Delimits data t.req.url.text version := found
          exact .inl ⟨url, version, url_eq ▸ found, block, block'⟩

theorem parse_safe_iff (w : World) (con : HttpRequest) (sock : Int) (data above above' : List Byte) :
    ParseSafe w con sock data above above' ↔ Acceptable w con data := by
  constructor
  · intro safe
    obtain ⟨xs, get⟩ | ⟨d, q, short⟩ | ⟨common, b, tail, d, q, received, get, differ⟩ :=
      compare_cases (bytes "GET ") data
    · exact acceptable_of_get get.symm safe
    · -- The comparison goes on with the byte behind the received ones.
      obtain ⟨r, s, parsed, inside, -⟩ := safe.parsed
      have clean : ∀ b ∈ data, b ≠ 0 :=
        fun b member => get_clean b (by rw [short]; exact List.mem_append_left _ member)
      have beyond := strncmp_reads above q d (0 + data.length)
        ((Client.enter { con with sock := sock }).saw (List.range' 0 data.length))
      rw [after, ← strncmp_same data above _ 0 clean, ← short, ← after, Nat.zero_add] at beyond
      have seen := seen_bind beyond (fun r => ?_) parsed
      · exact absurd (inside _ seen) (lt_irrefl _)
      · split
        · exact .pure Sees.refl _
        · exact sees_parseUrl _ _ _
    · have parsed :=
        parse_differ (w := w)
        (s := .enter { con with sock := sock }) above (data ++ above') received get differ
      have freed := safe.freed
      rw [handle_bad parsed, (handle_frees parsed).1] at freed
      simp only [Client.saw, Client.enter, List.nil_append, List.forall_mem_cons, List.not_mem_nil,
        or_false] at freed
      exact .inr ⟨differs_of received get differ, freed.1, freed.2.1⟩
  · rintro (⟨url, version, line, block, block'⟩ | ⟨differs, null, null'⟩)
    · exact safe_of_delimits line block block'
    · exact safe_of_differs differs null null'

end Safe

def bare : World := ⟨fun _ => none, fun _ n => n, fun k _ => 0x08000000 + 1024 * k, ⟨0, false⟩⟩

theorem parse_safe_page :
    ParseSafe bare ⟨0, ⟨0x00801020, []⟩, ⟨0xEEBFDF00, []⟩⟩ 4 (bytes "GET /a HTTP/1.0\r\n\r\n")
    (bytes "x y") [] := by
  refine (parse_safe_iff ..).mpr
    (.inl ⟨bytes "/a", bytes "HTTP/1.0\r", ?_, by decide +kernel, by decide +kernel⟩)
  refine ⟨10, bytes "\r\n", by decide +kernel, ?_, ?_, .inr rfl⟩
  · unfold Clean
    decide +kernel
  · unfold Clean
    decide +kernel

-- A request of another kind has what the stack held passed to `free`, and a short one is read to
-- behind its end.
theorem parse_unsafe :
    (after (handleClient bare ⟨some (bytes "PUT / HTTP/1.0\r\n"), [], []⟩ 4)
        (.enter ⟨0, ⟨0x00801020, []⟩, ⟨0xEEBFDF00, []⟩⟩)).freed = [0x00801020, 0xEEBFDF00] ∧
      (after (handleClient bare ⟨some (bytes "PUT / HTTP/1.0\r\n"), [], []⟩ 4)
        (.enter ⟨0, ⟨0x00801020, []⟩, ⟨0xEEBFDF00, []⟩⟩)).blocks = [] ∧
      (bytes "GET /a").length ∈
      (after (httpRequestParse bare (bytes "GET /a" ++ bytes "bc d\n") (bytes "GET /a" ++
      bytes "bc d\n"))
        (.enter ⟨4, ⟨0, []⟩, ⟨0, []⟩⟩)).reads := by
  decide +kernel

end Httpd

end Jos.User
