import Jos.User.HttpdParse

namespace Jos.User

open Jos.Shared
open Jos.Kern (Byte)

def Client.wire (s : Client) : List Byte := s.sent.flatten

namespace Httpd

def digits (n : Nat) : List Byte := (Nat.toDigits 10 n).map fun c => BitVec.ofNat 8 c.toNat

def notFound : List Byte := errorText 404 (bytes "Not Found")

def found (length : List Byte) : List Byte :=
  bytes "HTTP/1.0 200 OK\r\nServer: jhttpd/0.1\r\n" ++
    (bytes "Content-Length: " ++ length ++ bytes "\r\n") ++ bytes "Content-Type: text/html\r\n" ++
    bytes "\r\n"

def WellFormed (file : Option OpenFile) (wire : List Byte) : Prop :=
  match file with
  | none => wire = notFound
  | some file =>
    if file.isdir then wire = notFound
    else ∃ length body, wire = found (digits length) ++ body ∧ length = body.length ∧ body = file.contents

def Servable (file : Option OpenFile) : Prop :=
  ∃ f, file = some f ∧ f.isdir = false ∧ f.statFails = false ∧ f.contents.length ≤ buffsize ∧
    (f.readFails = false ∨ f.contents = [])

theorem printnum_length (base fuel num : Nat) : (printnum base fuel num).length ≤ fuel := by
  induction fuel generalizing num with
  | zero => exact le_refl 0
  | succ fuel ih =>
    have rest := ih (num / base)
    unfold printnum
    split
    · rw [List.length_append, List.length_singleton]
      omega
    · simp

theorem digit_eq : ∀ d, d < 10 →
    (bytes "0123456789abcdef").getD d 0 = BitVec.ofNat 8 d.digitChar.toNat := by decide +kernel

theorem printnum_eq {fuel num : Nat} (some_ : 0 < fuel) (small : num < 10 ^ fuel) :
    printnum 10 fuel num = digits num := by
  induction fuel generalizing num with
  | zero => cases some_
  | succ fuel ih =>
    unfold printnum
    split
    next more =>
      have fewer : num / 10 < 10 ^ fuel := Nat.div_lt_of_lt_mul (by rw [← Nat.pow_succ']; exact small)
      have left : 0 < fuel := by
        by_contra none_
        obtain rfl : fuel = 0 := by omega
        omega
      rw [ih left fewer, digits, digits, Nat.toDigits_of_base_le (by decide) more, List.map_append,
        List.map_singleton, digit_eq _ (Nat.mod_lt _ (by decide))]
    next one =>
      rw [digits, Nat.toDigits_of_lt_base (by omega), List.map_singleton, Nat.mod_eq_of_lt (by omega),
        digit_eq _ (by omega), List.nil_append]

theorem decimal_eq {n : Nat} (small : n < 2 ^ 31) : decimal n = digits n := by
  have limit : n < 10 ^ 20 := small.trans (by decide)
  rw [decimal, if_neg (by omega), Int.toNat_natCast, printnum_eq (by decide) limit]

theorem decimal_length (num : Int) : (decimal num).length ≤ 21 := by
  unfold decimal
  split
  · have rest := printnum_length 10 20 (-num).toNat
    rw [List.length_append, show (bytes "-").length = 1 from rfl]
    omega
  · exact (printnum_length 10 20 _).trans (by decide)

def Sends {α : Type} (x : HttpM α) (a : α) (data : List Byte) : Prop :=
  ∀ req wire, Yields (fun _ => True)
    (fun s : Client => (s.req, s.wire)) x (req, wire) a (req, wire ++ data)

namespace Sends

variable {α β : Type} {x : HttpM α} {f : α → HttpM β} {a : α} {b : β} {data more : List Byte}

theorem pure (a : α) : Sends (Pure.pure a) a [] := fun req wire => by
  rw [List.append_nil]
  exact Yields.pure a _

theorem bind (first : Sends x a data) (second : Sends (f a) b more) :
    Sends (x >>= f) b (data ++ more) := fun req wire => by
  rw [← List.append_assoc]
  exact (first req wire).bind (second req (wire ++ data))

end Sends

section Send

variable {w : World}

def Takes (w : World) : Prop := ∀ k n, w.write k n = n

theorem sends_write (takes : Takes w) (data : List Byte) : Sends (write w data) data.length data := by
  rintro req wire s - looks
  obtain ⟨rfl, rfl⟩ := Prod.mk.inj looks
  refine ⟨{ s with sent := s.sent ++ [data] }, ?_, trivial, by simp [Client.wire]⟩
  rw [write, takes, Int.toNat_natCast, List.take_length]

theorem sends_checked {α : Type} (takes : Takes w) (data : List Byte) {bad good : HttpM α} {a : α}
    (rest : Sends good a []) :
    Sends (do let r ← write w data; if r ≠ data.length then bad else good) a data := by
  have all : Sends (write w data >>= fun r : Int => if r ≠ (data.length : Int) then bad else good) a
    (data ++ []) :=
    (sends_write takes data).bind (by rw [if_neg (not_not.mpr rfl)]; exact rest)
  rwa [List.append_nil] at all

theorem sends_notFound (takes : Takes w) : Sends (sendError w 404) 0 notFound :=
  sends_checked takes notFound (.pure 0)

theorem sends_header (takes : Takes w) :
    Sends (sendHeader w 200) 0 (bytes "HTTP/1.0 200 OK\r\nServer: jhttpd/0.1\r\n") :=
  sends_checked takes _ (.pure 0)

theorem sends_text (takes : Takes w) {size : Nat} {text : List Byte} (fits : text.length ≤ size - 1) :
    Sends (sendText w size text) 0 text := by
  rw [sendText, if_neg (by omega)]
  exact sends_checked takes text (.pure 0)

theorem sends_size (takes : Takes w) (size : Int) :
    Sends (sendSize w size) 0 (bytes "Content-Length: " ++ decimal size ++ bytes "\r\n") := by
  have short := decimal_length size
  refine sends_text takes ?_
  rw [List.length_append, List.length_append, show (bytes "Content-Length: ").length = 16 from rfl,
    show (bytes "\r\n").length = 2 from rfl]
  omega

theorem sends_data (takes : Takes w) (fd : Option OpenFile) :
    Sends (sendData w fd) (-1) ((read fd buffsize).getD []) := by
  unfold sendData
  cases read fd buffsize with
  | none => exact .pure _
  | some buffer => exact sends_checked takes buffer (.pure _)

theorem sends_then {x next : HttpM Int} {b : Int} {data more : List Byte} (first : Sends x 0 data)
    (second : Sends next b more) :
    Sends (do let r ← x; if r < 0 then pure r else next) b (data ++ more) :=
  first.bind (by rw [if_neg (lt_irrefl 0)]; exact second)

theorem sends_found (takes : Takes w) (fd : Option OpenFile) (size : Int) :
    Sends (sendFound w fd size) (-1) (found (decimal size) ++ (read fd buffsize).getD []) := by
  have type_ : bytes "Content-Type: " ++ mimeType ++ bytes "\r\n" =
    bytes "Content-Type: text/html\r\n" := by decide +kernel
  have contentType : Sends (sendContentType w) 0 (bytes "Content-Type: text/html\r\n") := by
    rw [sendContentType, type_]
    exact sends_text takes (by decide +kernel)
  have fin : Sends (sendHeaderFin w) 0 (bytes "\r\n") := sends_checked takes (bytes "\r\n") (.pure 0)
  have all : Sends (sendFound w fd size) (-1) _ :=
    sends_then (sends_header takes)
    (sends_then (sends_size takes size)
    (sends_then contentType (sends_then fin (sends_data takes fd))))
  simpa only [found, List.append_assoc] using all

def answer (fd : Option OpenFile) (junk : Stat) : List Byte :=
  (if fd.isNone then notFound else []) ++ ((if (fstat fd junk).1 < 0 then notFound else []) ++
    ((if (fstat fd junk).2.isdir then notFound else []) ++
      (found (decimal (fstat fd junk).2.size) ++ (read fd buffsize).getD [])))

theorem sends_notFoundIf (takes : Takes w) (failed : Bool) :
    Sends (notFoundIf w failed) () (if failed then notFound else []) := by
  cases failed with
  | false => exact .pure ()
  | true =>
    have all : Sends (ignore (sendError w 404)) () (notFound ++ []) :=
      (sends_notFound takes).bind (.pure ())
    rwa [List.append_nil] at all

theorem sendFile_run (takes : Takes w) (s : Client) :
    ∃ s', sendFile w s = .ok (-1) s' ∧ s'.wire = s.wire ++ answer (w.files s.req.url.text) w.junk := by
  have rest := (sends_notFoundIf takes (w.files s.req.url.text).isNone).bind (f := fun _ => _)
    ((sends_notFoundIf takes (decide ((fstat (w.files s.req.url.text) w.junk).1 < 0))).bind
      (f := fun _ => _)
      ((sends_notFoundIf takes (fstat (w.files s.req.url.text) w.junk).2.isdir).bind
      (f := fun _ => _)
        (sends_found takes (w.files s.req.url.text) (fstat (w.files s.req.url.text) w.junk).2.size)))
  obtain ⟨s', done, -, looks⟩ := rest s.req s.wire s trivial rfl
  refine ⟨s', done, ?_⟩
  simpa [answer] using (Prod.mk.inj looks).2

end Send

section Answer

variable {junk : Stat}

theorem found_ne_nil (length body : List Byte) : found length ++ body ≠ [] := by
  intro empty
  have length_eq := congrArg List.length empty
  simp only [found, List.length_append, List.length_nil, show (bytes "\r\n").length = 2 from rfl]
    at length_eq
  omega

theorem notFound_more {more : List Byte} (some_ : more ≠ []) : notFound ++ more ≠ notFound := fun same =>
  some_ (by simpa using same)

theorem notFound_ne_found (more length body : List Byte) : notFound ++ more ≠ found length ++ body := by
  intro same
  have first := congrArg (List.take 10) same
  have long : 10 ≤ notFound.length := by decide +kernel
  have long' : 10 ≤ (bytes "HTTP/1.0 200 OK\r\nServer: jhttpd/0.1\r\n").length := by decide +kernel
  rw [List.take_append_of_le_length long, found, List.append_assoc, List.append_assoc, List.append_assoc,
    List.take_append_of_le_length long'] at first
  exact absurd first (by decide +kernel)

theorem nothing_wrong (file : Option OpenFile) : ¬ WellFormed file [] := by
  have some_ : notFound ≠ [] := by decide +kernel
  cases file with
  | none => exact fun empty => some_ empty.symm
  | some file =>
    rw [WellFormed]
    split
    · exact fun empty => some_ empty.symm
    · rintro ⟨length, body, empty, -⟩
      exact found_ne_nil _ _ empty.symm

theorem answer_none_wrong : ¬ WellFormed none (answer none junk) := by
  refine notFound_more ?_
  intro empty
  exact found_ne_nil _ _ (List.append_eq_nil_iff.mp (List.append_eq_nil_iff.mp empty).2).2

theorem answer_unknown_wrong {file : OpenFile} (fails : file.statFails = true) :
    ¬ WellFormed (some file) (answer (some file) junk) := by
  have shape : answer (some file) junk =
      notFound ++ (found (decimal 0) ++ (read (some file) buffsize).getD []) := by
        simp [answer, fstat, fails]
  rw [shape, WellFormed]
  split
  · exact notFound_more (found_ne_nil _ _)
  · rintro ⟨length, body, same, -⟩
    exact notFound_ne_found _ _ _ same

theorem answer_directory_wrong {file : OpenFile} (works : file.statFails = false)
    (dir : file.isdir = true) : ¬ WellFormed (some file) (answer (some file) junk) := by
  have shape : answer (some file) junk =
      notFound ++ (found (decimal file.contents.length) ++ (read (some file) buffsize).getD []) := by
    simp [answer, fstat, works, dir]
  rw [shape, WellFormed, if_pos dir]
  exact notFound_more (found_ne_nil _ _)

theorem answer_regular_iff {file : OpenFile} (works : file.statFails = false)
    (regular : file.isdir = false) : WellFormed (some file) (answer (some file) junk) ↔
    (read (some file) buffsize).getD [] = file.contents := by
  have shape : answer (some file) junk = found (digits file.contents.length) ++
    (read (some file) buffsize).getD [] := by
    rw [← decimal_eq file.small]
    simp [answer, fstat, works, regular]
  rw [shape, WellFormed, if_neg (by rw [regular]; decide)]
  constructor
  · rintro ⟨length, body, same, rfl, rfl⟩
    exact List.append_cancel_left same
  · intro whole
    exact ⟨_, _, by rw [whole], rfl, rfl⟩

theorem answer_iff (fd : Option OpenFile) (junk : Stat) : WellFormed fd (answer fd junk) ↔
    Servable fd := by
  cases fd with
  | none => exact ⟨fun right => absurd right answer_none_wrong, fun ⟨f, same, _⟩ => nomatch same⟩
  | some file =>
    have iff_ : Servable (some file) ↔ file.isdir = false ∧ file.statFails = false ∧
        file.contents.length ≤ buffsize ∧ (file.readFails = false ∨ file.contents = []) := by
          simp [Servable]
    rw [iff_]
    cases fails : file.statFails with
    | true =>
      exact ⟨fun right => absurd right (answer_unknown_wrong fails),
        fun servable => nomatch servable.2.1⟩
    | false =>
      cases kind : file.isdir with
      | true =>
        exact ⟨fun right => absurd right (answer_directory_wrong fails kind),
          fun servable => nomatch servable.1⟩
      | false =>
        rw [answer_regular_iff fails kind, read]
        cases reads : file.readFails with
        | true =>
          simp only [if_true, Option.getD_none, true_and]
          refine ⟨fun empty => ⟨by simp [← empty], .inr empty.symm⟩, fun servable => ?_⟩
          exact (servable.2.resolve_left (by decide)).symm
        | false => simp

end Answer

def urlOf (memory : List Byte) : List Byte := (memory.drop 4).takeWhile fun b => ¬ Ends 32 b

def Parses (w : World) (memory memory' url : List Byte) : Prop :=
  ∃ e tail version e' tail', memory = bytes "GET " ++ (url ++ e :: tail) ∧ Clean 32 url ∧ Ends 32 e ∧
    memory'.drop (4 + url.length + 1) = version ++ e' :: tail' ∧ Clean 10 version ∧ Ends 10 e' ∧
    w.malloc 0 (url.length + 1) ≠ 0 ∧ w.malloc 1 (version.length + 1) ≠ 0

section Parses

variable {w : World} {memory memory' url : List Byte}

theorem Parses.url_eq (parses : Parses w memory memory' url) : urlOf memory = url := by
  obtain ⟨e, tail, -, -, -, rfl, clean, stop, -⟩ := parses
  have goes : ∀ b ∈ url, decide (¬ Ends 32 b) = true := fun b member => decide_eq_true (clean b member)
  rw [urlOf, drop_get, List.takeWhile_append_of_pos goes,
    List.takeWhile_cons_of_neg (by simpa using stop), List.append_nil]

theorem Parses.run (parses : Parses w memory memory' url) (con : HttpRequest) :
    ∃ t, httpRequestParse w memory memory' (.enter con) = .ok 0 t ∧ t.req.url.text = url ∧
    t.sent = [] := by
  obtain ⟨e, tail, version, e', tail', get, clean, stop, rest', clean', stop', block, block'⟩ := parses
  have rest : memory.drop 4 = url ++ e :: tail := by rw [get, drop_get]
  refine ⟨_, (parse_get get).trans ((parseUrl_run rest clean stop block).trans
    (parseVersion_run _ rest' clean' stop' block')), rfl, rfl⟩

theorem skipTo_fault {c : Byte} {text : List Byte} (p : Nat) (s : Client) (clean : Clean c text) :
    ∃ t, skipTo c text p s = .error .fault t ∧ t.sent = s.sent := by
  have runs := skipTo_clean (s := s) text [] p clean
  rw [List.append_nil] at runs
  exact ⟨_, runs, rfl⟩

theorem parse_cases (con : HttpRequest) (memory' : List Byte) (begins : bytes "GET " <+: memory) :
    (∃ url, Parses w memory memory' url) ∨
      ∃ why t, httpRequestParse w memory memory' (.enter con) = .error why t ∧ t.sent = [] := by
  obtain ⟨xs, get⟩ := begins
  have rest : memory.drop 4 = xs := by rw [← get, drop_get]
  rw [parse_get get.symm]
  obtain clean | ⟨url, e, ys, rfl, clean, stop⟩ := stop_cases 32 xs
  · obtain ⟨t, failed, silent⟩ := skipTo_fault 4 ((Client.enter con).saw (List.range' 0 4)) clean
    rw [← rest] at failed
    exact .inr ⟨_, t, run_bind_error failed, silent⟩
  · by_cases block : w.malloc 0 (url.length + 1) = 0
    · obtain ⟨t, failed, silent⟩ :=
        parseUrl_null (w := w)
        (s := (Client.enter con).saw (List.range' 0 4)) memory' rest clean stop block
      exact .inr ⟨_, t, failed, silent⟩
    · rw [parseUrl_run rest clean stop block]
      generalize state : Client.saw _ (textReads 4 url.length) = t
      have one : t.blocks.length = 1 := by rw [← state]; rfl
      have quiet : t.sent = [] := by rw [← state]; rfl
      obtain clean' | ⟨version, e', tail', rest', clean', stop'⟩ :=
        stop_cases 10 (memory'.drop (4 + url.length + 1))
      · obtain ⟨u, failed, silent⟩ := skipTo_fault (4 + url.length + 1) t clean'
        exact .inr ⟨_, u, run_bind_error failed, silent.trans quiet⟩
      · by_cases block' : w.malloc 1 (version.length + 1) = 0
        · obtain ⟨u, failed, silent⟩ :=
            parseVersion_null (w := w) (s := t) _ rest' clean' stop' (by rw [one]; exact block')
          exact .inr ⟨_, u, failed, silent.trans quiet⟩
        · exact .inl ⟨url, e, ys, version, e', tail', get.symm, clean, stop, rest', clean', stop',
            block, block'⟩

end Parses

theorem responds_iff (w : World) (con : HttpRequest) (sock : Int) (data above above' : List Byte)
    (takes : Takes w) (get : bytes "GET " <+: data) :
    WellFormed (w.files (urlOf (data ++ above)))
        (after (handleClient w ⟨some data, above, above'⟩ sock) (.enter con)).wire ↔
      ∃ url, Parses w (data ++ above) (data ++ above') url ∧ Servable (w.files url) := by
  obtain ⟨url, parses⟩ | ⟨why, t, failed, silent⟩ :=
    parse_cases (w := w)
      { con with sock := sock } (data ++ above') (get.trans (List.prefix_append data above))
  · obtain ⟨t, parsed, same, quiet⟩ := parses.run { con with sock := sock }
    obtain ⟨u, done, wire⟩ := sendFile_run takes t
    have responded : respond w 0 t = .ok () u := by
      rw [respond, if_neg (by decide), if_neg (by decide), ignore, run_bind done]
      rfl
    have final : (after (handleClient w ⟨some data, above, above'⟩ sock) (.enter con)).wire =
      answer (w.files url) w.junk := by
      rw [after, handle_parsed parsed, run_bind responded, reqFree_run]
      show u.wire = _
      rw [wire, Client.wire, quiet, same]
      rfl
    rw [final, parses.url_eq, answer_iff]
    refine ⟨fun servable => ⟨url, parses, servable⟩, ?_⟩
    rintro ⟨url', parses', servable⟩
    rw [← parses.url_eq, parses'.url_eq]
    exact servable
  · have final : (after (handleClient w ⟨some data, above, above'⟩ sock) (.enter con)).wire = [] := by
      have stops : handleClient w ⟨some data, above, above'⟩ sock (.enter con) = .error why t :=
        run_bind_error (x := httpRequestParse w (data ++ above) (data ++ above'))
          (f := fun r => respond w r >>= fun _ => reqFree) failed
      rw [after, stops]
      show t.wire = []
      rw [Client.wire, silent]
      rfl
    rw [final]
    refine ⟨fun right => ?_, ?_⟩
    · exact absurd right (nothing_wrong _)
    · rintro ⟨url, parses, _⟩
      obtain ⟨u, parsed, -⟩ := parses.run { con with sock := sock }
      rw [failed] at parsed
      cases parsed

def shelf (contents : List Byte) (small : contents.length < 2 ^ 31) : World :=
  ⟨fun path => if path = bytes "/a" then some ⟨false, contents, small, false, false⟩ else none,
    fun _ n => n, fun k _ => 0x08000000 + 1024 * k, ⟨0, false⟩⟩

theorem responds_small : Takes (shelf (bytes "hello") (by decide)) ∧
    WellFormed
    ((shelf (bytes "hello") (by decide)).files (urlOf (bytes "GET /a HTTP/1.0\r\n" ++ bytes "x y")))
      (after (handleClient (shelf (bytes "hello") (by decide)) ⟨some (bytes "GET /a HTTP/1.0\r\n"),
      bytes "x y", []⟩ 4)
        (.enter ⟨0, ⟨0x00801020, []⟩, ⟨0xEEBFDF00, []⟩⟩)).wire := by
  have takes : Takes (shelf (bytes "hello") (by decide)) := fun _ _ => rfl
  have get : bytes "GET " <+: bytes "GET /a HTTP/1.0\r\n" := ⟨bytes "/a HTTP/1.0\r\n", by decide +kernel⟩
  refine ⟨takes, (responds_iff _ _ _ _ _ _ takes get).mpr ⟨bytes "/a", ?_, ?_⟩⟩
  · refine ⟨32, bytes "HTTP/1.0\r\n" ++ bytes "x y", bytes "HTTP/1.0\r", 10, [],
      by decide +kernel, ?_, .inr rfl, by decide +kernel, ?_, .inr rfl, by decide +kernel,
      by decide +kernel⟩
    · unfold Clean
      decide +kernel
    · unfold Clean
      decide +kernel
  · exact ⟨_, rfl, rfl, rfl, by decide +kernel, .inl rfl⟩

-- A missing file gets two 404 responses and one with 200; of a long file only the beginning is
-- sent.
theorem responds_wrong :
    (after (handleClient bare ⟨some (bytes "GET /b HTTP/1.0\r\n"), [], []⟩ 4)
    (.enter ⟨0, ⟨0, []⟩, ⟨0, []⟩⟩)).wire =
        notFound ++ (notFound ++ found (digits 0)) ∧
      (after (handleClient (shelf (List.replicate 600 97) (by rw [List.length_replicate]; decide))
      ⟨some (bytes "GET /a HTTP/1.0\r\n"), [], []⟩ 4)
          (.enter ⟨0, ⟨0, []⟩, ⟨0, []⟩⟩)).wire =
        found (digits 600) ++ List.replicate 512 97 := by
  decide +kernel

end Httpd

end Jos.User
