import Jos.Fs.Handlers

namespace Jos.Fs

open Jos.Shared
open Jos.Kern (Word Byte)

namespace Service

variable {s s' : Service} {i n : Nat}

structure Latest (s : Service) (i n : Nat) : Prop where
  granted : ∃ o, s.log[n]? = some o ∧ o.slot = i ∧ o.id = (s.opentab i).fileid
  last : ∀ m o, n < m → s.log[m]? = some o → o.slot ≠ i

structure Orderly (s : Service) : Prop where
  ids : ∀ i < maxopen, (s.opentab i).fileid.toNat % maxopen = i
  inside : ∀ i, s.clients i ≠ [] → i < maxopen
  few : ∀ i, (s.clients i).length + 2 < 2 ^ 16
  latest : ∀ i, ∀ n ∈ s.clients i, s.Latest i n
  sender : ∀ r i, s.inbox = some r → r.source = some i → ∃ n, s.Latest i n

theorem Latest.congr (latest : s.Latest i n) (log : s'.log = s.log)
    (id : (s'.opentab i).fileid = (s.opentab i).fileid) : s'.Latest i n := by
  obtain ⟨o, here, slot, same⟩ := latest.granted
  refine ⟨⟨o, log ▸ here, slot, same.trans id.symm⟩, ?_⟩
  rw [log]
  exact latest.last

theorem clients_setClients (s : Service) (i : Nat) (clients : List Nat) (j : Nat) :
    (s.setClients i clients).clients j = if j = i ∧ (s.opentab i).fd.isSome then clients
    else s.clients j := by
  unfold setClients
  split
  next none_ => simp [none_]
  next page here =>
    by_cases same : j = i
    · simp [Service.clients, OpenFile.clients, same, here]
    · simp [Service.clients, same]

theorem setClients_entry (s : Service) (i : Nat) (clients : List Nat) (j : Nat) :
    ((s.setClients i clients).opentab j).fileid = (s.opentab j).fileid ∧
      ((s.setClients i clients).opentab j).file = (s.opentab j).file ∧
      ((s.setClients i clients).opentab j).mode = (s.opentab j).mode := by
  unfold setClients
  split
  · exact ⟨rfl, rfl, rfl⟩
  next page here =>
    by_cases same : j = i
    · simp [same]
    · simp [same]

theorem setClients_rest (s : Service) (i : Nat) (clients : List Nat) :
    (s.setClients i clients).log = s.log ∧ (s.setClients i clients).inbox = s.inbox ∧
    (s.setClients i clients).cache = s.cache := by
  unfold setClients
  split <;> exact ⟨rfl, rfl, rfl⟩

theorem Orderly.setClients (orderly : s.Orderly) {clients : List Nat}
    (latest : ∀ n ∈ clients, s.Latest i n) (inside : clients ≠ [] → i < maxopen)
    (few : clients.length + 2 < 2 ^ 16) : (s.setClients i clients).Orderly := by
  obtain ⟨log, inbox, -⟩ := s.setClients_rest i clients
  have ids := fun j => (s.setClients_entry i clients j).1
  refine ⟨fun j small => ?_, fun j some_ => ?_, fun j => ?_, fun j n member => ?_,
    fun r j pending source => ?_⟩
  · rw [ids j]
    exact orderly.ids j small
  · rw [clients_setClients] at some_
    split at some_
    next here => exact here.1 ▸ inside some_
    · exact orderly.inside j some_
  · rw [clients_setClients]
    split
    · exact few
    · exact orderly.few j
  · rw [clients_setClients] at member
    split at member
    next here => exact here.1 ▸ (latest n member).congr log (ids i)
    · exact (orderly.latest j n member).congr log (ids j)
  · obtain ⟨n, latest⟩ := orderly.sender r j (inbox ▸ pending) source
    exact ⟨n, latest.congr log (ids j)⟩

theorem clients_of_private {o o' : OpenFile} (same : o'.private_ = o.private_) :
    o'.fileid = o.fileid ∧ o'.file = o.file ∧ o'.mode = o.mode ∧ o'.clients = o.clients := by
  obtain ⟨fileid, file, mode, fd⟩ := o
  obtain ⟨fileid', file', mode', fd'⟩ := o'
  simp only [OpenFile.private_, Prod.mk.injEq] at same
  obtain ⟨rfl, rfl, rfl, clients⟩ := same
  refine ⟨rfl, rfl, rfl, ?_⟩
  cases fd <;> cases fd' <;> simp_all [OpenFile.clients]

theorem Orderly.sameTable (orderly : s.Orderly)
    (same : ∀ i, (s'.opentab i).private_ = (s.opentab i).private_) (log : s'.log = s.log)
    (pending : ∀ r, s'.inbox = some r → s.inbox = some r) : s'.Orderly := by
  have entries := fun i => clients_of_private (same i)
  have clients : ∀ i, s'.clients i = s.clients i := fun i => (entries i).2.2.2
  refine ⟨fun i inside => ?_, fun i some_ => orderly.inside i (clients i ▸ some_), fun i => ?_,
    fun i n member => ?_, fun r i here source => ?_⟩
  · rw [(entries i).1]
    exact orderly.ids i inside
  · rw [clients i]
    exact orderly.few i
  · exact (orderly.latest i n (clients i ▸ member)).congr log (entries i).1
  · obtain ⟨n, latest⟩ := orderly.sender r i (pending r here) source
    exact ⟨n, latest.congr log (entries i).1⟩

theorem Orderly.unused (orderly : s.Orderly) {r : Request} {page : Block}
    (free : (s.desk r page).pageref i ≤ 1) : s.clients i = [] := by
  have few := orderly.few i
  unfold Service.clients OpenFile.clients at few ⊢
  unfold Desk.pageref at free
  rw [show (s.desk r page).opentab i = s.opentab i from rfl] at free
  cases here : (s.opentab i).fd with
  | none => rfl
  | some fd =>
    rw [here] at few free
    dsimp only at few free ⊢
    rw [Nat.mod_eq_of_lt (by split <;> omega)] at free
    exact List.eq_nil_of_length_eq_zero (by omega)

structure Taken (d : Desk) (i : Nat) (d' : Desk) : Prop where
  id : (d'.opentab i).fileid = (d.opentab i).fileid + BitVec.ofNat 32 maxopen
  page : (d'.opentab i).fd.isSome
  others : ∀ j, j ≠ i → (d'.opentab j).fileid = (d.opentab j).fileid
  clients : ∀ j, (d'.opentab j).clients = (d.opentab j).clients

theorem claim_taken (d : Desk) (i : Nat) : Taken d i (d.claim i) where
  id := by simp [Desk.claim, Desk.setFile]
  page := by simp [Desk.claim, Desk.setFile]
  others j other := by simp [Desk.claim, Desk.setFile, other]
  clients j := by
    by_cases same : j = i
    · simp [Desk.claim, Desk.setFile, OpenFile.clients, same]
    · simp [Desk.claim, Desk.setFile, same]

theorem Taken.occupy {d d' : Desk} (taken : Taken d i d') (f : FilePtr) (omode : Word) :
    Taken d i (ServM.occupy i f omode d') := by
  have same := d'.setFd_same i (ServM.fdOf d' i omode)
  unfold ServM.occupy
  generalize d'.setFd i (ServM.fdOf d' i omode) = d'' at same
  have entries := fun j => clients_of_private (same.2 j)
  refine ⟨?_, ?_, fun j other => ?_, fun j => ?_⟩
  · simp only [Desk.setOpen, Desk.setFile, Function.update_self, (entries i).1]
    exact taken.id
  · have equal := congrArg (fun p => p.2.2.2.isSome) (same.2 i)
    simp only [OpenFile.private_, Option.isSome_map] at equal
    simp only [Desk.setOpen, Desk.setFile, Function.update_self, equal]
    exact taken.page
  · simp only [Desk.setOpen, Desk.setFile, Function.update_of_ne other, (entries j).1]
    exact taken.others j other
  · rw [← taken.clients j, ← (entries j).2.2.2]
    by_cases here : j = i
    · simp [Desk.setOpen, Desk.setFile, OpenFile.clients, here]
    · simp [Desk.setOpen, Desk.setFile, here]

section Open

variable {r : Request} {page : Block} {d : Desk} {cache : Cache} {takes : Bool}

theorem Orderly.taken (orderly : s.Orderly) (taken : Taken (s.desk r page) i d)
    (unused : s.clients i = []) {more : List Opening} (own : ∀ o ∈ more, o.slot = i) :
    Orderly ⟨cache, d.opentab, none, s.log ++ more⟩ := by
  have clients : ∀ j, Service.clients ⟨cache, d.opentab, none, s.log ++ more⟩ j = s.clients j :=
    taken.clients
  refine ⟨fun j inside => ?_, fun j some_ => orderly.inside j (clients j ▸ some_), fun j => ?_,
    fun j n member => ?_, nofun⟩
  · have id := orderly.ids j inside
    show (d.opentab j).fileid.toNat % maxopen = j
    by_cases same : j = i
    · subst same
      rw [taken.id, BitVec.toNat_add]
      unfold maxopen at *
      show (_ + 1024) % 2 ^ 32 % 1024 = j
      rw [Nat.mod_mod_of_dvd _ (by decide), Nat.add_mod_right]
      exact id
    · rw [taken.others j same]
      exact id
  · rw [clients j]
    exact orderly.few j
  · rw [clients j] at member
    have other : j ≠ i := by
      rintro rfl
      rw [unused] at member
      cases member
    obtain ⟨⟨o, here, slot, id⟩, last⟩ := orderly.latest j n member
    have old : n < s.log.length := (List.getElem?_eq_some_iff.mp here).1
    refine ⟨⟨o, ?_, slot, id.trans (taken.others j other).symm⟩, fun m o' later found => ?_⟩
    · show (s.log ++ more)[n]? = some o
      rw [List.getElem?_append_left old]
      exact here
    · have found : (s.log ++ more)[m]? = some o' := found
      rw [List.getElem?_append] at found
      split at found
      · exact last m o' later found
      · rw [own o' (List.mem_of_getElem? found)]
        exact other.symm

theorem Orderly.granted (orderly : s.Orderly) (inside : i < maxopen) (taken : Taken (s.desk r page) i d)
    (unused : s.clients i = []) {f : FilePtr} (file : (d.opentab i).file = some f) :
    (s.reply cache d takes (some i)).Orderly := by
  have after : Orderly ⟨cache, d.opentab, none,
    s.log ++ [⟨i, (d.opentab i).fileid, f, (d.opentab i).mode⟩]⟩ :=
    orderly.taken taken unused (by simp)
  simp only [reply, file, Option.toList_some, List.map_cons, List.map_nil]
  split
  · have none_ : Service.clients ⟨cache, d.opentab, none,
      s.log ++ [⟨i, (d.opentab i).fileid, f, (d.opentab i).mode⟩]⟩ i = [] :=
      (taken.clients i).trans unused
    rw [none_]
    refine after.setClients (fun n member => ?_) (fun _ => inside) (show 1 + 2 < 2 ^ 16 by decide)
    obtain rfl : n = s.log.length := by simpa using member
    refine ⟨⟨_, List.getElem?_concat_length, rfl, rfl⟩, fun m o later found => ?_⟩
    have small := (List.getElem?_eq_some_iff.mp found).1
    rw [List.length_append, List.length_singleton] at small
    omega
  · exact after

theorem serve_orderly (orderly : s.Orderly) {memory : Bool} {answer : Word} {sent : Option Nat}
    (done : ServM.handle r.req memory (s.cache, s.desk r page) = .ok (answer, sent) (cache, d)) :
    (s.reply cache d takes sent).Orderly := by
  by_cases open_ : r.req = 1
  · unfold ServM.handle at done
    rw [if_pos open_] at done
    obtain ⟨rfl, rfl⟩ | ⟨i, ⟨inside, free⟩, ⟨rfl, rfl⟩ | ⟨f, rfl, rfl⟩⟩ := ServM.serveOpen_cases done
    · exact orderly.sameTable (fun _ => rfl) rfl (by rintro _ ⟨⟩)
    · have after : Orderly ⟨cache, _, none, s.log ++ []⟩ :=
        orderly.taken (claim_taken (s.desk r page) i) (orderly.unused free) (by rintro _ ⟨⟩)
      rw [List.append_nil] at after
      exact after
    · refine orderly.granted inside ((claim_taken (s.desk r page) i).occupy f _)
        (orderly.unused free) (f := f) ?_
      simp [ServM.occupy, Desk.setOpen, Desk.setFile]
  · obtain ⟨rfl, ran⟩ := ServM.handle_other open_ done
    exact orderly.sameTable ((ServM.dispatch_same r.req).of_ok ran).2 rfl (by rintro _ ⟨⟩)

theorem step_orderly {event : ClientEvent} (orderly : s.Orderly) (next : s.step event = some s') :
    s'.Orderly := by
  cases event with
  | send req source =>
    simp only [step] at next
    split at next
    next free =>
      cases next
      refine ⟨orderly.ids, orderly.inside, orderly.few,
        fun i n member => (orderly.latest i n member).congr rfl rfl, ?_⟩
      intro r i pending here
      cases pending
      obtain ⟨n, member⟩ := List.exists_mem_of_ne_nil _ (free.2 i here)
      exact ⟨n, (orderly.latest i n member).congr rfl rfl⟩
    · cases next
  | serve page memory takes =>
    simp only [step] at next
    split at next
    · cases next
    next r _ =>
      split at next
      · cases next
      next answer sent cache d done =>
        cases next
        exact serve_orderly orderly done
  | unmap i k =>
    simp only [step] at next
    split at next
    · cases next
      have few := orderly.few i
      refine orderly.setClients (fun n member => orderly.latest i n (List.mem_of_mem_eraseIdx member))
        (fun some_ => orderly.inside i ?_) ?_
      · obtain ⟨n, member⟩ := List.exists_mem_of_ne_nil _ some_
        exact List.ne_nil_of_mem (List.mem_of_mem_eraseIdx member)
      · have shorter := List.length_eraseIdx_le (s.clients i) k
        omega
    · cases next
  | share i k =>
    simp only [step] at next
    split at next
    · cases next
    next n here =>
      split at next
      next few =>
        cases next
        have member := List.mem_of_getElem? here
        refine orderly.setClients (fun m inside => orderly.latest i m ?_)
          (fun _ => orderly.inside i (List.ne_nil_of_mem member)) (by simpa using few)
        obtain rfl | inside := List.mem_cons.mp inside
        · exact member
        · exact inside
      · cases next
  | poke i k word =>
    simp only [step] at next
    split at next
    · cases next
      unfold setData
      split
      · exact orderly
      next page here =>
        refine orderly.sameTable (fun j => ?_) rfl fun _ => id
        by_cases same : j = i
        · simp [same, OpenFile.private_, here]
        · simp [same]
    · cases next

end Open

theorem start_orderly (image : Image) : (start image).Orderly where
  ids i inside := by
    show (BitVec.ofNat 32 i).toNat % maxopen = i
    unfold maxopen at *
    rw [BitVec.toNat_ofNat]
    omega
  inside _ some_ := absurd rfl some_
  few _ := show 0 + 2 < 2 ^ 16 by decide
  latest _ _ member := nomatch member
  sender _ _ pending := nomatch pending

theorem ids_do_not_alias (image : Image) (events : List ClientEvent) (s : Service)
    (run : Run step (fun _ _ => True) (start image) events s) :
    (∀ i j n m, n ∈ s.clients i → m ∈ s.clients j → n ≠ m → i ≠ j ∧
      ∃ o o' : Opening, s.log[n]? = some o ∧ s.log[m]? = some o' ∧ o.slot = i ∧ o'.slot = j ∧
      o.id ≠ o'.id) ∧
    (∀ i < maxopen, (s.opentab i).fileid.toNat % maxopen = i) ∧
    ∀ r page id i, s.inbox = some r → ServM.openfileLookup (s.desk r page) id = some i →
      (∃ n, ∃ o : Opening, s.log[n]? = some o ∧ o.slot = i ∧ o.id = id ∧
          ∀ (m : Nat) (o' : Opening), n < m → s.log[m]? = some o' → o'.slot ≠ i) ∧
        (s.clients i ≠ [] ∨ r.source = some i) := by
  have orderly : s.Orderly :=
    run.invariant (motive := Orderly) (start_orderly image) fun _ _ _ orderly _ next =>
      step_orderly orderly next
  refine ⟨fun i j n m here there differ => ?_, orderly.ids, fun r page id i pending found => ?_⟩
  · obtain ⟨⟨o, at_, slot, same⟩, last⟩ := orderly.latest i n here
    obtain ⟨⟨o', at_', slot', same'⟩, last'⟩ := orderly.latest j m there
    have apart : i ≠ j := by
      rintro rfl
      rcases Nat.lt_or_gt_of_ne differ with less | more
      · exact last m o' less at_' slot'
      · exact last' n o more at_ slot
    refine ⟨apart, o, o', at_, at_', slot, slot', fun equal => apart ?_⟩
    have id := orderly.ids i (orderly.inside i (List.ne_nil_of_mem here))
    have id' := orderly.ids j (orderly.inside j (List.ne_nil_of_mem there))
    rw [← id, ← id', ← same, ← same', equal]
  · obtain ⟨⟨rfl, same⟩, mapped⟩ := ServM.openfileLookup_some found
    have latest : ∃ n, s.Latest (id.toNat % maxopen) n := by
      rcases mapped with some_ | source
      · obtain ⟨n, member⟩ := List.exists_mem_of_ne_nil _ some_
        exact ⟨n, orderly.latest _ n member⟩
      · exact orderly.sender r _ pending source
    obtain ⟨n, ⟨o, at_, slot, equal⟩, last⟩ := latest
    exact ⟨⟨n, o, at_, slot, equal.trans same, last⟩, mapped⟩

theorem ids_do_not_alias_two : ∃ s : Service,
    Run step (fun _ _ => True) (start (.empty 32))
      [.send 1 none, .serve (fun _ => 0) true true, .send 1 none, .serve (fun _ => 0) true true] s ∧
      ∃ o o' : Opening, s.log[0]? = some o ∧ s.log[1]? = some o' ∧ o.slot = 0 ∧ o'.slot = 1 ∧
      o.id ≠ o'.id := by
  refine Run.of_exec_imp (p := fun s => s.clients 0 = [0] ∧ s.clients 1 = [1])
    (by decide +kernel) ?_
  rintro s run ⟨first, second⟩
  have here : 0 ∈ s.clients 0 := by
    rw [first]
    exact List.mem_cons_self
  have there : 1 ∈ s.clients 1 := by
    rw [second]
    exact List.mem_cons_self
  obtain ⟨-, o, o', at_, at_', slot, slot', differ⟩ :=
    (ids_do_not_alias _ _ s run).1 0 1 0 1 here there (by decide)
  exact ⟨o, o', at_, at_', slot, slot', differ⟩

-- The client puts its file id into its `Fd` page, sends that page as a READ request and unmaps it
-- before the server looks at it. The server has the page mapped twice then.
theorem accepted_unmapped : ∃ (s : Service) (r : Request),
    Run step (fun _ _ => True) (start (.empty 32))
      [.send 1 none, .serve (fun _ => 0) true true, .poke 0 0 1024, .send 3 (some 0), .unmap 0 0] s ∧
      s.inbox = some r ∧ (s.desk r fun _ => 0).words 0 = 1024 ∧
      ServM.openfileLookup (s.desk r fun _ => 0) ((s.desk r fun _ => 0).words 0) = some 0 ∧
      s.clients 0 = [] := by
  have ran : ∃ s : Service, Run step (fun _ _ => True) (start (.empty 32))
      [.send 1 none, .serve (fun _ => 0) true true, .poke 0 0 1024, .send 3 (some 0), .unmap 0 0] s ∧
      ((s.inbox.any fun r => (s.desk r fun _ => 0).words 0 = 1024 ∧
        ServM.openfileLookup (s.desk r fun _ => 0) ((s.desk r fun _ => 0).words 0) = some 0) = true ∧
        s.clients 0 = []) :=
    Run.of_exec_any (by decide +kernel)
  obtain ⟨s, run, found, none_⟩ := ran
  cases pending : s.inbox with
  | none =>
    rw [pending] at found
    cases found
  | some r =>
    rw [pending] at found
    obtain ⟨word, accepted⟩ := of_decide_eq_true found
    exact ⟨s, r, run, pending, word, accepted, none_⟩

end Service

end Jos.Fs
