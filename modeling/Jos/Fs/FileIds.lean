import Jos.Fs.OpenTable

namespace Jos.Fs

open Jos.Shared
open Jos.Kern (Word Byte)

namespace ServM

variable {memory : Bool} {d d' : Desk} {s s' : Cache} {r : Word} {sent : Option Nat}

def taken (memory : Bool) (d : Desk) : Option Nat :=
  match freeEntry d with
  | none => none
  | some i => if d.pageref i = 0 ∧ memory = false then none else some i

theorem openfileAlloc_ids (j : Nat) : ((openfileAlloc memory d).2.opentab j).fileid =
    (d.opentab j).fileid + if taken memory d = some j then BitVec.ofNat 32 maxopen else 0 := by
  unfold openfileAlloc taken
  cases freeEntry d with
  | none => simp
  | some i =>
    by_cases refused : d.pageref i = 0 ∧ memory = false
    · simp [refused]
    · simp only [if_neg refused]
      by_cases same : i = j
      · subst same
        rw [if_pos rfl]
        exact (Service.claim_taken d i).id
      · rw [if_neg (fun equal => same (Option.some_inj.mp equal)), add_zero]
        exact (Service.claim_taken d i).others j (Ne.symm same)

theorem serveOpen_ids (done : serveOpen memory (s, d) = .ok (r, sent) (s', d')) (j : Nat) :
    (d'.opentab j).fileid = ((openfileAlloc memory d).2.opentab j).fileid := by
  rw [serveOpen_eq] at done
  generalize (openfileAlloc memory d).2 = d₁ at done ⊢
  cases answer : (openfileAlloc memory d).1 with
  | error e =>
    rw [answer] at done
    cases done
    rfl
  | ok i =>
    rw [answer] at done
    obtain ⟨-, rfl⟩ | ⟨f, -, rfl⟩ := openAs_cases done
    · rfl
    · have same := (d₁.setFd_same i (fdOf d₁ i (reqOmode d.words))).2
      unfold occupy
      generalize d₁.setFd i (fdOf d₁ i (reqOmode d.words)) = d₂ at same ⊢
      rw [← (Service.clients_of_private (same j)).1]
      by_cases here : j = i
      · simp [Desk.setOpen, Desk.setFile, here]
      · simp [Desk.setOpen, Desk.setFile, here]

end ServM

namespace Service

variable {s s' : Service} {i : Nat}

def takes (s : Service) : ClientEvent → Option Nat
  | .serve page memory _ =>
    match s.inbox with
    | some r => if r.req = 1 then ServM.taken memory (s.desk r page) else none
    | none => none
  | _ => none

def used (i : Nat) (s : Service) : List ClientEvent → Nat
  | [] => 0
  | event :: events => (if s.takes event = some i then 1 else 0) +
      match s.step event with
      | none => 0
      | some s' => used i s' events

theorem used_append {guard : Service → ClientEvent → Prop} {es : List ClientEvent}
    (run : Run step guard s es s') (fs : List ClientEvent) :
    used i s (es ++ fs) = used i s es + used i s' fs := by
  induction run generalizing fs with
  | nil => simp [used]
  | snoc run allowed next ih =>
    rw [List.append_assoc, ih, ih]
    simp only [List.cons_append, List.nil_append, used, next]
    omega

theorem step_ids {event : ClientEvent} (next : s.step event = some s') (j : Nat) :
    (s'.opentab j).fileid = (s.opentab j).fileid + if s.takes event = some j
    then BitVec.ofNat 32 maxopen else 0 := by
  cases event with
  | send req source =>
    simp only [step] at next
    split at next
    · cases next
      simp [takes]
    · cases next
  | serve page memory takes_ =>
    simp only [step] at next
    split at next
    · cases next
    next r pending =>
      split at next
      · cases next
      next answer sent cache d done =>
        cases next
        have table : ((s.reply cache d takes_ sent).opentab j).fileid = (d.opentab j).fileid := by
          unfold reply
          cases sent with
          | none => rfl
          | some i =>
            dsimp only
            split
            · exact (setClients_entry _ _ _ j).1
            · rfl
        rw [table]
        by_cases open_ : r.req = 1
        · unfold ServM.handle at done
          rw [if_pos open_] at done
          have taking : s.takes (.serve page memory takes_) = ServM.taken memory (s.desk r page) := by
            simp only [takes, pending, if_pos open_]
          rw [ServM.serveOpen_ids done j, ServM.openfileAlloc_ids, taking]
          rfl
        · obtain ⟨-, ran⟩ := ServM.handle_other open_ done
          have same := ((ServM.dispatch_same r.req).of_ok ran).2 j
          have none_ : s.takes (.serve page memory takes_) = none := by
            simp only [takes, pending, if_neg open_]
          rw [(clients_of_private same).1, none_]
          simp [desk]
  | unmap i k =>
    simp only [step] at next
    split at next
    · cases next
      simp [takes, (setClients_entry s i _ j).1]
    · cases next
  | share i k =>
    simp only [step] at next
    split at next
    · cases next
    · split at next
      · cases next
        simp [takes, (setClients_entry s i _ j).1]
      · cases next
  | poke i k word =>
    simp only [step] at next
    split at next
    · cases next
      unfold setData
      split
      · simp [takes]
      next page here =>
        by_cases same : j = i
        · simp [takes, same]
        · simp [takes, same]
    · cases next

theorem fileid_used (image : Image) {events : List ClientEvent}
    (run : Run step (fun _ _ => True) (start image) events s) (i : Nat) :
    (s.opentab i).fileid = BitVec.ofNat 32 (i + maxopen * used i (start image) events) := by
  induction run with
  | nil => rfl
  | snoc run allowed next ih =>
    rw [step_ids next i, ih, used_append run, used, next]
    split
    · rw [← BitVec.ofNat_add]
      refine congrArg (BitVec.ofNat 32) ?_
      simp only [used, maxopen]
      omega
    · simp [used]

theorem open_alloc_iff (image : Image) (events : List ClientEvent) (s : Service)
    (run : Run step (fun _ _ => True) (start image) events s) (r : Request) (page : Block)
    (free : ∃ i < maxopen, (s.desk r page).pageref i ≤ 1) :
    (∃ i, (ServM.openfileAlloc true (s.desk r page)).1 = .ok i) ↔
      ∃ i, ServM.freeEntry (s.desk r page) = some i ∧
      (used i (start image) events + 1) % 2 ^ 22 < 2 ^ 21 := by
  cases found : ServM.freeEntry (s.desk r page) with
  | none =>
    unfold ServM.freeEntry at found
    rw [List.find?_eq_none] at found
    obtain ⟨i, inside, unused⟩ := free
    exact absurd (decide_eq_true unused) (found i (List.mem_range.mpr inside))
  | some i =>
    have inside : i < maxopen := by
      unfold ServM.freeEntry at found
      exact List.mem_range.mp (List.mem_of_find?_eq_some found)
    have next : (((s.desk r page).claim i).opentab i).fileid =
        BitVec.ofNat 32 (i + maxopen * (used i (start image) events + 1)) := by
      rw [(claim_taken _ i).id, show ((s.desk r page).opentab i).fileid = _
        from fileid_used image run i, ← BitVec.ofNat_add]
      refine congrArg (BitVec.ofNat 32) ?_
      simp only [maxopen]
      omega
    have sign : (BitVec.ofNat 32 (i + maxopen * (used i (start image) events + 1))).slt 0 = false ↔
        (used i (start image) events + 1) % 2 ^ 22 < 2 ^ 21 := by
      unfold maxopen at inside ⊢
      rw [BitVec.slt, decide_eq_false_iff_not, BitVec.toInt_eq_toNat_cond, BitVec.toNat_ofNat,
        show (0 : Word).toInt = 0 from rfl]
      split <;> omega
    have answer : (ServM.openfileAlloc true (s.desk r page)).1 =
        if (((s.desk r page).claim i).opentab i).fileid.slt 0 then
          .error (((s.desk r page).claim i).opentab i).fileid else .ok i := by
      unfold ServM.openfileAlloc
      rw [found]
      simp
    rw [answer, next]
    simp only [Option.some.injEq, exists_eq_left']
    rw [← sign]
    cases (BitVec.ofNat 32 (i + maxopen * (used i (start image) events + 1))).slt 0 with
    | false => exact iff_of_true ⟨i, rfl⟩ rfl
    | true => exact iff_of_false (fun ⟨_, equal⟩ => nomatch equal) nofun

theorem open_alloc_twice : ∃ s : Service, Run step (fun _ _ => True) (start (.empty 32))
    [.send 1 none, .serve (fun _ => 0) true true, .unmap 0 0] s ∧
    ∃ i, (ServM.openfileAlloc true (s.desk ⟨1, none⟩ fun _ => 0)).1 = .ok i := by
  refine Run.of_exec_imp (p := fun s => (s.desk ⟨1, none⟩ fun _ => 0).pageref 0 ≤ 1 ∧
    ServM.freeEntry (s.desk ⟨1, none⟩ fun _ => 0) = some 0) (by decide +kernel) ?_
  rintro s run ⟨free, first⟩
  refine (open_alloc_iff _ _ s run _ _ ⟨0, by decide, free⟩).mpr ⟨0, first, ?_⟩
  decide +kernel

section Reopening

def reopen (n : Nat) : List ClientEvent :=
  (List.replicate n [.send 1 none, .serve (fun _ => 0) true true, .unmap 0 0]).flatten

theorem freeEntry_zero {d : Desk} (free : d.pageref 0 ≤ 1) : ServM.freeEntry d = some 0 := by
  unfold ServM.freeEntry
  rw [show maxopen = 1023 + 1 from rfl, List.range_succ_eq_map,
    List.find?_cons_of_pos (by simpa using free)]

theorem pageref_zero (unused : s.clients 0 = []) : (s.desk ⟨1, none⟩ fun _ => 0).pageref 0 ≤ 1 := by
  unfold Service.clients OpenFile.clients at unused
  simp only [Desk.pageref, desk]
  cases here : (s.opentab 0).fd with
  | none => simp
  | some page =>
    rw [here] at unused
    simp [show page.clients = [] from unused]

theorem serve_root (pending : s.inbox = some ⟨1, none⟩) (unused : s.clients 0 = [])
    (positive : ((s.opentab 0).fileid + BitVec.ofNat 32 maxopen).slt 0 = false) :
    ∃ s', s.step (.serve (fun _ => 0) true true) = some s' ∧ s'.inbox = none ∧
    s'.clients 0 = [s.log.length] ∧
      (s'.opentab 0).fileid = (s.opentab 0).fileid + BitVec.ofNat 32 maxopen := by
  let d := s.desk ⟨1, none⟩ fun _ => 0
  have first : ServM.freeEntry d = some 0 := freeEntry_zero (pageref_zero unused)
  have alloc : ServM.openfileAlloc true d = (.ok 0, d.claim 0) := by
    have positive' : ((d.claim 0).opentab 0).fileid.slt 0 = false := by
      rw [(claim_taken d 0).id]
      exact positive
    unfold ServM.openfileAlloc
    rw [first]
    dsimp only
    rw [if_neg (by rintro ⟨_, ⟨⟩⟩), positive']
    rfl
  have path : ServM.reqPath (fun _ => 0) = [] := by decide +kernel
  have done : ServM.handle 1 true (s.cache, d) = .ok (0, some 0) (s.cache,
    ServM.occupy 0 .root 0 (d.claim 0)) := by
    have begins : ServM.handle 1 true (s.cache, d) =
      ServM.openWith (ServM.reqPath fun _ => 0) 0 (ServM.openfileAlloc true d).1
        (s.cache, (ServM.openfileAlloc true d).2) := ServM.serveOpen_eq ..
    rw [begins, alloc, path]
    rfl
  have taken := (claim_taken d 0).occupy .root 0
  generalize ServM.occupy 0 .root 0 (d.claim 0) = d' at done taken
  obtain ⟨t, replied, idle, table⟩ : ∃ t : Service,
    s.reply s.cache d' true (some 0) = t.setClients 0 (s.log.length :: t.clients 0) ∧
      t.inbox = none ∧ t.opentab = d'.opentab := by
    refine ⟨⟨s.cache, d'.opentab, none, _⟩, rfl, rfl, rfl⟩
  refine ⟨t.setClients 0 (s.log.length :: t.clients 0), ?_, (setClients_rest ..).2.1.trans idle, ?_, ?_⟩
  · simp only [step, pending]
    rw [done]
    exact congrArg some replied
  · rw [clients_setClients, if_pos ⟨rfl, by rw [table]; exact taken.page⟩, Service.clients, table,
      taken.clients 0]
    exact congrArg (s.log.length :: ·) unused
  · rw [(setClients_entry ..).1, table]
    exact taken.id

theorem reopen_runs (image : Image) (n : Nat) (few : n < 2 ^ 21) :
    ∃ s, Run step (fun _ _ => True) (start image) (reopen n) s ∧ s.inbox = none ∧ s.clients 0 = [] ∧
    (s.opentab 0).fileid = BitVec.ofNat 32 (maxopen * n) := by
  induction n with
  | zero => exact ⟨start image, .nil _, rfl, rfl, rfl⟩
  | succ n ih =>
    obtain ⟨s, run, idle, unused, id⟩ := ih (by omega)
    let asked : Service := { s with inbox := some ⟨1, none⟩ }
    have sent : s.step (.send 1 none) = some asked := by
      simp [step, idle, asked]
    have positive : ((asked.opentab 0).fileid + BitVec.ofNat 32 maxopen).slt 0 = false := by
      have value : (BitVec.ofNat 32 (maxopen * n + maxopen)).toNat = 1024 * n + 1024 := by
        rw [BitVec.toNat_ofNat]
        unfold maxopen
        omega
      rw [show (asked.opentab 0).fileid = _ from id, ← BitVec.ofNat_add, BitVec.slt,
        decide_eq_false_iff_not, BitVec.toInt_eq_toNat_of_lt (by omega), show (0 : Word).toInt = 0
        from rfl]
      omega
    obtain ⟨opened, served, idle', holders, advanced⟩ := serve_root (s := asked) rfl unused positive
    have closed : opened.step (.unmap 0 0) = some (opened.setClients 0 []) := by
      simp [step, holders]
    have page : (opened.opentab 0).fd.isSome := by
      unfold Service.clients OpenFile.clients at holders
      cases here : (opened.opentab 0).fd with
      | none =>
        rw [here] at holders
        cases holders
      | some page => rfl
    refine ⟨opened.setClients 0 [], ?_, (setClients_rest ..).2.1.trans idle', ?_, ?_⟩
    · rw [reopen, List.replicate_succ', List.flatten_append]
      exact run.trans (.snoc (.snoc (.single trivial sent) trivial served) trivial closed)
    · rw [clients_setClients, if_pos ⟨rfl, page⟩]
    · rw [(setClients_entry ..).1, advanced, show (asked.opentab 0).fileid = _ from id,
        ← BitVec.ofNat_add]
      rfl

-- The next open after that fails, although the entry is free.
theorem open_alloc_negative :
    ∃ s : Service, Run step (fun _ _ => True) (start (.empty 32)) (reopen 2097151) s ∧
    (s.desk ⟨1, none⟩ fun _ => 0).pageref 0 ≤ 1 ∧
    (ServM.openfileAlloc true (s.desk ⟨1, none⟩ fun _ => 0)).1 = .error 0x80000000 := by
  obtain ⟨s, run, -, unused, id⟩ := reopen_runs (.empty 32) 2097151 (by decide)
  have free := pageref_zero unused
  have next := (claim_taken (s.desk ⟨1, none⟩ fun _ => 0) 0).id
  rw [show ((s.desk ⟨1, none⟩ fun _ => 0).opentab 0).fileid = _ from id] at next
  refine ⟨s, run, free, ?_⟩
  unfold ServM.openfileAlloc
  rw [freeEntry_zero free]
  dsimp only
  rw [if_neg (fun both => nomatch both.2), next]
  have value : BitVec.ofNat 32 (maxopen * 2097151) + BitVec.ofNat 32 maxopen = 0x80000000 := by decide
  rw [value]
  rfl

end Reopening

end Service

end Jos.Fs
