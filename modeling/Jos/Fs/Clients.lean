import Jos.Fs.OpenTable
import Jos.Fs.Requests

namespace Jos.Fs

open Jos.Shared
open Jos.Kern (Word Byte)

namespace ServM

variable {s : Cache} {d : Desk} {i : Nat}

theorem occupy_entry (d : Desk) (i : Nat) (f : FilePtr) (omode : Word) (j : Nat) :
    ((occupy i f omode (d.claim i)).opentab j).file = (if j = i then some f else (d.opentab j).file) ∧
    ((occupy i f omode (d.claim i)).opentab j).mode = if j = i then omode else (d.opentab j).mode := by
  have same := (d.claim i).setFd_same i (fdOf (d.claim i) i omode)
  unfold occupy
  generalize (d.claim i).setFd i (fdOf (d.claim i) i omode) = d' at same
  obtain ⟨-, file, mode, -⟩ := Service.clients_of_private (same.2 j)
  by_cases here : j = i
  · simp [Desk.setOpen, Desk.setFile, here]
  · simp [Desk.setOpen, Desk.setFile, here, file, mode, Desk.claim]

theorem claim_entry (d : Desk) (i j : Nat) :
    ((d.claim i).opentab j).file = (d.opentab j).file ∧
    ((d.claim i).opentab j).mode = (d.opentab j).mode := by
  by_cases here : j = i
  · simp [Desk.claim, Desk.setFile, here]
  · simp [Desk.claim, Desk.setFile, here]

inductive Opened (m : Image) (d : Desk) : Except Errno FilePtr → Option Nat → Desk → Prop
  | failed {e : Errno} {d' : Desk} (table : d' = d ∨ ∃ i, d' = d.claim i) : Opened m d (.error e) none d'
  | granted {i : Nat} {f : FilePtr} (slot : m.Slot f) (named : m.Named f) :
      Opened m d (.ok f) (some i) (occupy i f (reqOmode d.words) (d.claim i))

theorem serveOpen_handled (live : s.Live) (order : s.content.InOrder) (memory : Bool)
    (plain : reqOmode d.words &&& oTrunc ≠ 0 →
    ∀ f, s.content.Leads .root (components (reqPath d.words)) f → s.content.type f ≠ ftypeDir) :
    ∃ res answer sent s' d', serveOpen memory (s, d) = .ok (answer, sent) (s', d') ∧ s'.Live ∧
      s.volume.Handled (Opens s.content (reqPath d.words) (reqOmode d.words) res) s'.volume ∧
      Opened s'.content d res sent d' := by
  rw [serveOpen_eq]
  obtain ⟨r, taken⟩ | ⟨i, -, ⟨r, taken⟩ | taken⟩ := openfileAlloc_cases d memory <;> rw [taken]
  · exact ⟨.error .inval, r, none, s, d, rfl, live, .refl order, .failed (.inl rfl)⟩
  · exact ⟨.error .inval, r, none, s, _, rfl, live, .refl order, .failed (.inr ⟨i, rfl⟩)⟩
  · obtain ⟨res, v', does, handled, usable⟩ :=
      openFile_does (v := s.volume) (reqPath_nonzero d.words) order plain
    obtain ⟨s', ran, live', rfl⟩ := does s live rfl
    cases res with
    | error e =>
      refine ⟨_, e.code, none, s', d.claim i, ?_, live', handled, .failed (.inr ⟨i, rfl⟩)⟩
      simp only [openWith, openAs, bind, EStateM.bind, BufM.lift, ran]
      rfl
    | ok f =>
      obtain ⟨slot, named⟩ := usable f rfl
      refine ⟨_, 0, some i, s', _, ?_, live', handled, .granted slot named⟩
      simp only [openWith, openAs, bind, EStateM.bind, BufM.lift, ran]
      rfl

end ServM

namespace Service

variable {s s' : Service} {r : Request} {page : Block} {i : Nat} {may : FilePtr → Word → Prop}

structure Sound (s : Service) : Prop where
  live : s.cache.Live
  inOrder : s.cache.content.InOrder
  filed : ∀ i f, (s.opentab i).file = some f → (s.cache.content.Slot f ∧ s.cache.content.Named f) ∧
    ∃ o ∈ s.log, o.file = f ∧ o.omode = (s.opentab i).mode
  held : ∀ i, s.clients i ≠ [] → (s.opentab i).file ≠ none
  sender : ∀ r i, s.inbox = some r → r.source = some i → (s.opentab i).file ≠ none

theorem Sound.found (sound : s.Sound) (pending : s.inbox = some r) {id : Word}
    (found : ServM.openfileLookup (s.desk r page) id = some i) : (s.opentab i).file ≠ none := by
  obtain ⟨-, some_ | source⟩ := ServM.openfileLookup_some found
  · exact sound.held i some_
  · exact sound.sender r i pending source

theorem Sound.sameFiles (sound : s.Sound) (live : s'.cache.Live) (order : s'.cache.content.InOrder)
    (alters : s.cache.content.Alters may s'.cache.content) (log : s'.log = s.log)
    (files : ∀ i, (s'.opentab i).file = (s.opentab i).file ∧ (s'.opentab i).mode = (s.opentab i).mode)
    (held : ∀ i, s'.clients i ≠ [] → (s.opentab i).file ≠ none)
    (sender : ∀ r i, s'.inbox = some r → r.source = some i → (s.opentab i).file ≠ none) : s'.Sound where
  live := live
  inOrder := order
  filed i f file := by
    rw [(files i).1] at file
    obtain ⟨⟨slot, named⟩, logged⟩ := sound.filed i f file
    rw [(files i).2, log]
    exact ⟨⟨alters.slot f slot, alters.named f slot named⟩, logged⟩
  held i some_ := by
    rw [(files i).1]
    exact held i some_
  sender r i pending source := by
    rw [(files i).1]
    exact sender r i pending source

inductive Effect (s : Service) (r : Request) (page : Block) (s' : Service) (g : FilePtr) (w : Word) : Prop
  | opens {res : Except Errno FilePtr} (open_ : r.req = 1)
      (opens : ServM.Opens s.cache.content (ServM.reqPath (s.desk r page).words)
      (ServM.reqOmode (s.desk r page).words) res g w)
      (logged : ∀ f, res = .ok f → ∃ o ∈ s'.log, o.file = f ∧
      o.omode = ServM.reqOmode (s.desk r page).words)
  | touches (touches : ServM.Touches r.req s.cache.content (s.desk r page) g w)

theorem Sound.granted (sound : s.Sound) {cache : Cache} {f : FilePtr} {omode : Word} (takes : Bool)
    (live : cache.Live) (order : cache.content.InOrder)
    (alters : s.cache.content.Alters may cache.content) (slot : cache.content.Slot f)
    (named : cache.content.Named f) :
    (s.reply cache (ServM.occupy i f omode ((s.desk r page).claim i)) takes (some i)).Sound ∧
      (s.reply cache (ServM.occupy i f omode ((s.desk r page).claim i)) takes (some i)).cache = cache ∧
      (∀ o ∈ s.log,
      o ∈ (s.reply cache (ServM.occupy i f omode ((s.desk r page).claim i)) takes (some i)).log) ∧
      ∃ o ∈ (s.reply cache (ServM.occupy i f omode ((s.desk r page).claim i)) takes (some i)).log,
      o.file = f ∧ o.omode = omode := by
  have entries := ServM.occupy_entry (s.desk r page) i f omode
  have clients := ((claim_taken (s.desk r page) i).occupy f omode).clients
  generalize ServM.occupy i f omode ((s.desk r page).claim i) = d at entries clients
  let t : Service := ⟨cache, d.opentab, none, s.log ++ [⟨i, (d.opentab i).fileid, f, omode⟩]⟩
  have clients : ∀ j, t.clients j = s.clients j := clients
  have member : (⟨i, (d.opentab i).fileid, f, omode⟩ : Opening) ∈ t.log :=
    List.mem_append_right _ (List.mem_singleton_self _)
  have older : ∀ o ∈ s.log, o ∈ t.log := fun o here => List.mem_append_left _ here
  have held : ∀ j, (j = i ∨ s.clients j ≠ []) → (t.opentab j).file ≠ none := by
    intro j here
    rw [(entries j).1]
    split
    · simp
    next other => exact sound.held j (here.resolve_left other)
  have filed : ∀ j g, (t.opentab j).file = some g → (cache.content.Slot g ∧ cache.content.Named g) ∧
      ∃ o ∈ t.log, o.file = g ∧ o.omode = (t.opentab j).mode := by
    intro j g file
    rw [(entries j).1] at file
    rw [(entries j).2]
    split at file
    next here =>
      cases file
      rw [if_pos here]
      exact ⟨⟨slot, named⟩, _, member, rfl, rfl⟩
    next here =>
      rw [if_neg here]
      obtain ⟨⟨slot, named⟩, o, logged, same⟩ := sound.filed j g file
      exact ⟨⟨alters.slot g slot, alters.named g slot named⟩, o, older o logged, same⟩
  have reply : s.reply cache d takes (some i) = if takes
    then t.setClients i (s.log.length :: t.clients i) else t := by
    unfold Service.reply
    simp only [(entries i).1, (entries i).2, if_true, Option.toList, List.map_cons, List.map_nil]
    rfl
  rw [reply]
  cases takes with
  | false =>
    exact ⟨⟨live, order, filed, fun j some_ => held j (.inr (clients j ▸ some_)), nofun⟩, rfl,
      older, _, member, rfl, rfl⟩
  | true =>
    simp only [if_true]
    have kept := t.setClients_entry i (s.log.length :: t.clients i)
    obtain ⟨log, inbox, same⟩ := t.setClients_rest i (s.log.length :: t.clients i)
    rw [log, same]
    refine ⟨⟨same ▸ live, same ▸ order, fun j g file => ?_, fun j some_ => ?_,
      fun r j pending => ?_⟩, rfl, older, _, member, rfl, rfl⟩
    · rw [(kept j).2.1] at file
      rw [(kept j).2.2, log, same]
      exact filed j g file
    · rw [(kept j).2.1]
      rw [clients_setClients] at some_
      split at some_
      next here => exact held j (.inl here.1)
      · exact held j (.inr (clients j ▸ some_))
    · rw [inbox] at pending
      cases pending

theorem serve_sound (sound : s.Sound) (pending : s.inbox = some r) (memory takes : Bool)
    (polite : ServM.Polite r.req s.cache.content (s.desk r page)) :
    ∃ s', s.step (.serve page memory takes) = some s' ∧ s'.Sound ∧ (∀ o ∈ s.log, o ∈ s'.log) ∧
      s.cache.content.Alters (s.Effect r page s') s'.cache.content := by
  have held : ∀ i, ServM.openfileLookup (s.desk r page) ((s.desk r page).words 0) = some i →
    (s.opentab i).file ≠ none :=
    fun i => sound.found pending
  have served : ∀ {answer sent cache d}, ServM.handle r.req memory (s.cache, s.desk r page) =
    .ok (answer, sent) (cache, d) →
      s.step (.serve page memory takes) = some (s.reply cache d takes sent) := by
    intro answer sent cache d done
    simp only [step, pending, done]
  by_cases open_ : r.req = 1
  · have handle : ServM.handle r.req memory = ServM.serveOpen memory := if_pos open_
    obtain ⟨res, answer, sent, cache, d, done, live, handled, opened⟩ :=
      ServM.serveOpen_handled (d := s.desk r page) sound.live sound.inOrder memory (polite.opens open_)
    rw [← handle] at done
    refine ⟨_, served done, ?_⟩
    cases opened with
    | failed table =>
      have files : ∀ i, (d.opentab i).file = (s.opentab i).file ∧
        (d.opentab i).mode = (s.opentab i).mode := by
        intro i
        rcases table with rfl | ⟨j, rfl⟩
        · exact ⟨rfl, rfl⟩
        · exact ServM.claim_entry (s.desk r page) j i
      have clients : ∀ i, (d.opentab i).clients = s.clients i := by
        intro i
        rcases table with rfl | ⟨j, rfl⟩
        · rfl
        · exact (claim_taken (s.desk r page) j).clients i
      refine ⟨sound.sameFiles live handled.inOrder handled.alters rfl files
        (fun i some_ => sound.held i (clients i ▸ some_)) (by rintro _ _ ⟨⟩), fun _ here => here,
        handled.alters.mono fun g w opens => .opens open_ opens (by rintro _ ⟨⟩)⟩
    | @granted i f slot named =>
      obtain ⟨sound', same, older, logged⟩ :=
        sound.granted takes live handled.inOrder handled.alters slot named
      refine ⟨sound', older, ?_⟩
      rw [same]
      refine handled.alters.mono fun g w opens => .opens open_ opens fun f' equal => ?_
      cases equal
      exact logged
  · obtain ⟨answer, v', d, does, handled⟩ := ServM.dispatch_handled (v := s.cache.volume)
      (d := s.desk r page) sound.inOrder held (fun i f asks => (sound.filed i f asks.2).1) polite
    obtain ⟨⟨cache, d'⟩, ran, live, looks⟩ := does (s.cache, s.desk r page) sound.live rfl
    obtain ⟨rfl, rfl⟩ := Prod.mk.inj looks
    have done : ServM.handle r.req memory (s.cache, s.desk r page) = .ok (answer, none) (cache, d') := by
      unfold ServM.handle
      rw [if_neg open_]
      exact run_bind ran
    have same := fun i => clients_of_private (((ServM.dispatch_same r.req).of_ok ran).2 i)
    have clients : ∀ i, (d'.opentab i).clients = s.clients i := fun i => (same i).2.2.2
    refine ⟨_, served done,
      sound.sameFiles live handled.inOrder handled.alters rfl
      (fun i => ⟨(same i).2.1, (same i).2.2.1⟩) (fun i some_ => sound.held i (clients i ▸ some_))
      (by rintro _ _ ⟨⟩), fun _ here => here, handled.alters.mono fun g w here => .touches here⟩

theorem client_sound {event : ClientEvent} (sound : s.Sound) (next : s.step event = some s')
    (own : ∀ page memory takes, event ≠ .serve page memory takes) : s'.Sound ∧ s'.log = s.log ∧
    s'.cache = s.cache := by
  have still : s.cache.content.Alters (fun _ _ => False) s.cache.content := .refl _
  have remap : ∀ {i clients}, (s.clients i ≠ []) → (s.setClients i clients).Sound ∧
      (s.setClients i clients).log = s.log ∧ (s.setClients i clients).cache = s.cache := by
    intro i clients some_
    obtain ⟨log, inbox, same⟩ := s.setClients_rest i clients
    have still : s.cache.content.Alters (fun _ _ => False) (s.setClients i clients).cache.content := by
      rw [same]
      exact still
    refine ⟨sound.sameFiles (same ▸ sound.live) (same ▸ sound.inOrder) still log
      (fun j => (s.setClients_entry i clients j).2) (fun j here => ?_) fun r j pending =>
        sound.sender r j (inbox ▸ pending), log, same⟩
    rw [clients_setClients] at here
    split at here
    next both => exact both.1 ▸ sound.held i some_
    · exact sound.held j here
  cases event with
  | serve page memory takes => exact absurd rfl (own page memory takes)
  | send req source =>
    simp only [step] at next
    split at next
    next free =>
      cases next
      refine ⟨⟨sound.live, sound.inOrder, sound.filed, sound.held, fun r i pending here => ?_⟩, rfl, rfl⟩
      cases pending
      exact sound.held i (free.2 i here)
    · cases next
  | unmap i k =>
    simp only [step] at next
    split at next
    next inside =>
      cases next
      exact remap (List.ne_nil_of_length_pos (by omega))
    · cases next
  | share i k =>
    simp only [step] at next
    split at next
    · cases next
    next n here =>
      split at next
      · cases next
        exact remap (List.ne_nil_of_mem (List.mem_of_getElem? here))
      · cases next
  | poke i k word =>
    simp only [step] at next
    split at next
    next mapped =>
      cases next
      unfold setData
      split
      · exact ⟨sound, rfl, rfl⟩
      next page here =>
        refine ⟨sound.sameFiles sound.live sound.inOrder still rfl (fun j => ?_) (fun j some_ => ?_)
          sound.sender, rfl, rfl⟩
        · by_cases same : j = i
          · simp [same]
          · simp [same]
        · by_cases same : j = i
          · exact same ▸ sound.held i mapped
          · simp only [Service.clients, Function.update_of_ne same] at some_
            exact sound.held j some_
    · cases next

theorem start_sound {image : Image} (well : image.WellFormed) : (start image).Sound where
  live := Cache.mount_live image
  inOrder := by
    show (Cache.mount image).content.InOrder
    rw [Cache.mount_content]
    exact well.inOrder
  filed _ _ file := nomatch file
  held _ some_ := absurd rfl some_
  sender _ _ pending := nomatch pending

def Polite (s : Service) : ClientEvent → Prop
  | .serve page _ _ => ∀ r, s.inbox = some r → ServM.Polite r.req s.cache.content (s.desk r page)
  | _ => True

inductive Steps (s : Service) : ClientEvent → Service → Prop
  | served {r : Request} {page : Block} {memory takes : Bool} {s' : Service} (pending : s.inbox = some r)
      (older : ∀ o ∈ s.log, o ∈ s'.log)
      (alters : s.cache.content.Alters (s.Effect r page s') s'.cache.content) :
      Steps s (.serve page memory takes) s'
  | still {event : ClientEvent} {s' : Service} (log : s'.log = s.log) (cache : s'.cache = s.cache) :
    Steps s event s'

theorem step_sound {event : ClientEvent} (sound : s.Sound) (polite : s.Polite event)
    (next : s.step event = some s') : s'.Sound ∧ s.Steps event s' := by
  by_cases own : ∀ page memory takes, event ≠ .serve page memory takes
  · obtain ⟨sound', log, cache⟩ := client_sound sound next own
    exact ⟨sound', .still log cache⟩
  · push Not at own
    obtain ⟨page, memory, takes, rfl⟩ := own
    cases pending : s.inbox with
    | none =>
      simp only [step, pending] at next
      cases next
    | some r =>
      obtain ⟨t, done, sound', older, alters⟩ := serve_sound sound pending memory takes (polite r pending)
      cases done.symm.trans next
      exact ⟨sound', .served pending older alters⟩

theorem sound_of_run {image : Image} {guard : Service → ClientEvent → Prop}
    {events : List ClientEvent} (well : image.WellFormed)
    (run : Run step guard (start image) events s)
    (polite : ∀ s event, guard s event → s.Polite event) : s.Sound :=
  run.invariant (motive := Sound) (start_sound well) fun _ _ _ sound allowed next =>
    (step_sound sound (polite _ _ allowed) next).1

theorem directories_keep {image : Image} {events : List ClientEvent} (well : image.WellFormed)
    (run : Run step Polite (start image) events s) :
    (∀ d, s.cache.content.Slot d → s.cache.content.type d = ftypeDir →
    (s.cache.content.size d).toNat % 4096 = 0) ∧
    (∀ r page id i, s.inbox = some r → ServM.openfileLookup (s.desk r page) id = some i →
      ∃ f, (s.opentab i).file = some f ∧ s.cache.content.Slot f) ∧
    ∀ page memory takes, s.inbox ≠ none → s.Polite (.serve page memory takes) →
    ∃ s', s.step (.serve page memory takes) = some s' := by
  have sound := sound_of_run well run fun _ _ polite => polite
  refine ⟨sound.inOrder.inv.dirSize, fun r page id i pending found => ?_,
    fun page memory takes waiting polite => ?_⟩
  · obtain ⟨f, file⟩ := Option.ne_none_iff_exists'.mp (sound.found pending found)
    exact ⟨f, file, (sound.filed i f file).1.1⟩
  · obtain ⟨r, pending⟩ := Option.ne_none_iff_exists'.mp waiting
    obtain ⟨s', done, -⟩ := serve_sound sound pending memory takes (polite r pending)
    exact ⟨s', done⟩

section Examples

def pageOf (words : List (Nat × Word)) : Block := fun k => (words.lookup k).getD 0

def small? (s : Service) : ClientEvent → Bool
  | .serve page _ _ =>
    s.inbox.all fun r =>
      let d := s.desk r page
      if r.req = 1 then
        decide (ServM.reqOmode d.words &&& oTrunc = 0 ∧ (components (ServM.reqPath d.words)).length ≤ 1 ∧
          (s.cache.content.size .root).toNat ≠ maxfilesize)
      else
        (ServM.openfileLookup d (d.words 0)).all fun i => (d.opentab i).file.all fun f =>
          decide (s.cache.content.type f = 0 ∧ (d.fdData i 1).toNat + (d.words 1).toNat ≤ 4088 ∧
            (d.opentab i).mode &&& oAccmode ≠ 0)
  | _ => true

theorem small_asks {memory takes : Bool} (passed : s.small? (.serve page memory takes) = true)
    (pending : s.inbox = some r) (other : r.req ≠ 1) {f : FilePtr}
    (asks : ServM.Asks (s.desk r page) i f) : s.cache.content.type f = 0 ∧
      ((s.desk r page).fdData i 1).toNat + ((s.desk r page).words 1).toNat ≤ 4088 ∧
      (s.opentab i).mode &&& oAccmode ≠ 0 := by
  obtain ⟨found, file⟩ := asks
  simp only [small?, pending, Option.all_some, if_neg other, found, file, decide_eq_true_eq] at passed
  exact passed

theorem polite_of_small {event : ClientEvent} (passed : s.small? event = true) : s.Polite event := by
  cases event with
  | serve page memory takes =>
    intro r pending
    have asked : ∀ {i f}, ServM.Asks (s.desk r page) i f → r.req ≠ 1 → _ := fun asks other =>
      small_asks passed pending other asks
    refine ⟨fun open_ truncates => ?_, fun i f asks kind => ?_, fun i f asks kind => ?_,
      fun i f asks kind => ?_, fun i f asks kind => ?_⟩
    · simp only [small?, pending, Option.all_some, if_pos open_, decide_eq_true_eq] at passed
      exact absurd passed.1 truncates
    · have type := (asked asks (by rcases kind with kind | kind <;> rw [kind] <;> decide)).1
      rw [type]
      decide
    · have bound := (asked asks (by rcases kind with kind | kind <;> rw [kind] <;> decide)).2.1
      omega
    · have bound := (asked asks (by rw [kind]; decide)).2.1
      omega
    · have bound := (asked asks (by rw [kind]; decide)).2.1
      omega
  | send => trivial
  | unmap => trivial
  | share => trivial
  | poke => trivial

def writeOne : List ClientEvent :=
  [.send 1 none, .serve (pageOf [(0, 0x612F), (256, 0x102)]) true true,
    .send 4 none, .serve (pageOf [(0, 1024), (1, 1), (2, 7)]) true true]

theorem directories_keep_written : ∃ s, Run step Polite (start (.empty 32)) writeOne s ∧
    (s.cache.content.size .root).toNat % 4096 = 0 := by
  have ran : ∃ s, Run step (small? · · = true) (start (.empty 32)) writeOne s ∧ True :=
    Run.of_exec_any (by decide +kernel)
  obtain ⟨s, run, -⟩ := ran
  have run := run.mono fun _ _ => polite_of_small
  have well : (Image.empty 32).WellFormed := Image.empty_wellFormed (by decide) (by decide)
  have kind : s.cache.content.type .root = ftypeDir :=
    (sound_of_run well run fun _ _ polite => polite).inOrder.inv.rootDir
  exact ⟨s, run, (directories_keep well run).1 .root .root kind⟩

-- The root directory is opened like any other file, and its size is set to one byte. The next
-- request to open a file stops the server.
theorem directory_resized : ∃ s, Run step (fun _ _ => True) (start (.empty 32))
    [.send 1 none, .serve (pageOf []) true true, .send 2 none,
    .serve (pageOf [(0, 1024), (1, 1)]) true true,
      .send 1 none] s ∧ s.cache.content.type .root = ftypeDir ∧ s.cache.content.size .root = 1 ∧
      s.step (.serve (pageOf [(0, 0x612F)]) true true) = none := by
  refine Run.of_exec_imp
    (p := fun s => s.cache.content.type .root = ftypeDir ∧ s.cache.content.size .root = 1 ∧
    (s.step (.serve (pageOf [(0, 0x612F)]) true true)).isNone = true) (by decide +kernel) ?_
  rintro s run ⟨kind, size, stops⟩
  exact ⟨kind, size, Option.isNone_iff_eq_none.mp stops⟩

end Examples

end Service

end Jos.Fs
