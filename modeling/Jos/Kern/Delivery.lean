import Jos.Kern.Ipc

namespace Jos.Kern

open Jos.Shared
open Function

/-- The kernel, and for each environment what has happened to it as a receiver, latest first. A
message is unread until its receiver has entered the kernel again. -/
structure Office where
  kernel : Kernel
  posts : Slot → List Post
  unread : Slot → Bool

namespace Office

def record (o : Office) (kernel : Kernel) : Deed → Office
  | .quiet | .ends _ => { o with kernel := kernel }
  | .enters cur => { o with kernel := kernel, unread := update o.unread cur false }
  | .receives cur dstva =>
    { kernel := kernel
      posts := update o.posts cur (.call dstva :: o.posts cur)
      unread := update o.unread cur false }
  | .sends cur e m =>
    { kernel := kernel
      posts := update o.posts e (.message m :: o.posts e)
      unread := update (update o.unread cur false) e true }

def step (o : Office) (ev : Event) : Option Office :=
  (o.kernel.step ev).map fun kernel => o.record kernel (o.kernel.deed ev)

def opened (s : Kernel) : Office where
  kernel := s
  posts e := if (s.envs e).envIpcRecving then [.call (s.envs e).envIpcDstva] else []
  unread _ := false

end Office

def settled : List Post → Bool
  | [] => true
  | .message _ :: .call _ :: rest => settled rest
  | _ => false

structure Message.Held (m : Message) (dstva : Word) (env : Env) (pte : Index → Index → Word) : Prop where
  released : env.envStatus.Ready
  sender : env.envIpcFrom = m.source
  value : env.envIpcValue = m.value
  result : env.envTf.tfRegs.regEax = 0
  place : env.envIpcDstva = dstva
  page : if m.srcva < utop ∧ dstva < utop then
      env.envIpcPerm = m.perm ∧ ∃ pp, m.page = some pp ∧ pte (pdx dstva) (ptx dstva) = entry pp m.perm
    else env.envIpcPerm = 0

structure Served (posts : List Post) (unread : Bool) (env : Env) (pte : Index → Index → Word) : Prop where
  waiting : env.envIpcRecving = true → env.envStatus = .notRunnable ∧
    ∃ rest, posts = .call env.envIpcDstva :: rest ∧ settled rest
  idle : env.envIpcRecving = false → settled posts
  arrived : unread = true → ∃ m dstva rest, posts = .message m :: .call dstva :: rest ∧
    m.Held dstva env pte

namespace Served

variable {posts : List Post} {unread : Bool} {env env' : Env} {pte pte' : Index → Index → Word}

theorem turned (served : Served posts unread env pte) (turned : env.Turned env') :
    Served posts unread env' pte := by
  obtain ⟨status, runs, cpu, rfl⟩ := turned.same
  refine ⟨fun recving => ?_, served.idle, fun new => ?_⟩
  · obtain ⟨blocked, call⟩ := served.waiting recving
    refine ⟨(turned.stays ?_).trans blocked, call⟩
    rw [blocked]
    decide
  · obtain ⟨m, dstva, rest, last, held⟩ := served.arrived new
    exact ⟨m, dstva, rest, last, { held with released := turned.ready held.released }⟩

theorem entered (served : Served posts unread env pte) (tf : Trapframe) :
    Served posts false { env with envTf := tf } pte :=
  ⟨served.waiting, served.idle, nofun⟩

theorem called (served : Served posts unread env pte) (free : env.envIpcRecving = false) (tf : Trapframe)
    (dstva : Word) : Served (.call dstva :: posts) false
      { env with envTf := tf, envIpcDstva := dstva, envIpcRecving := true,
                 envStatus := .notRunnable } pte :=
  ⟨fun _ => ⟨rfl, posts, rfl, served.idle free⟩, nofun, nofun⟩

theorem sent {m : Message} {e : Slot} {before after : Memory} {left : Word}
    (served : Served posts unread env (before.pte e)) (recving : env.envIpcRecving = true)
    (posted : m.Posted e env before after left)
    (fresh : m.srcva < utop → ¬ env.envIpcDstva < utop → env.envIpcPerm = 0) :
    Served (.message m :: posts) true (Kernel.received env m.source m.value left) (after.pte e) := by
  obtain ⟨-, rest, rfl, done⟩ := served.waiting recving
  refine ⟨nofun, fun _ => done, fun _ => ⟨m, env.envIpcDstva, rest, rfl, .inl rfl, rfl, rfl, rfl,
    rfl, ?_⟩⟩
  unfold Message.Posted at posted
  by_cases both : m.srcva < utop ∧ env.envIpcDstva < utop
  · rw [if_pos both] at posted ⊢
    obtain ⟨perm, pp, page, pte⟩ := posted
    refine ⟨perm, pp, page, ?_⟩
    rw [pte, if_pos ⟨rfl, rfl, rfl⟩]
  · rw [if_neg both] at posted ⊢
    obtain ⟨-, perm⟩ := posted
    by_cases offered : m.srcva < utop
    · rw [if_pos offered] at perm
      exact perm.trans (fresh offered fun wanted => both ⟨offered, wanted⟩)
    · rw [if_neg offered] at perm
      exact perm

theorem ended (served : Served posts unread env pte) (dying : env.envStatus = .dying)
    (same : env'.envIpcRecving = env.envIpcRecving) : Served posts unread env' pte' := by
  have idle : env.envIpcRecving ≠ true := fun recving => by
    cases dying.symm.trans (served.waiting recving).1
  refine ⟨fun recving => (idle (same ▸ recving)).elim, fun none => served.idle (same ▸ none),
    fun new => ?_⟩
  obtain ⟨m, dstva, rest, -, held⟩ := served.arrived new
  obtain ready | ready := held.released <;> cases dying.symm.trans ready

end Served

namespace Kernel

variable {managed : Nat → Prop} {s s' : Kernel} {ev : Event} {x : Entry}

theorem entry_request (s : Kernel) (c : Nat) (tf : Trapframe) (hw : Inputs) :
    (s.entry c tf hw).request = .other ∨ (s.entry c tf hw).request = requestOf tf hw := by
  unfold entry entryLocked
  split
  · split
    · exact .inl rfl
    · split
      · exact .inl rfl
      · exact .inr rfl
  · exact .inr rfl

theorem Mails.request (mails : Mails ev) (entered : s.entryOf ev = some x) :
    x.request = .other ∨ ∃ no a, x.request = .call no a ∧
      syscalls[no.toNat]? ∈ [some .ipcTrySend, some .ipcRecv, some .yield] := by
  cases ev with
  | start =>
    obtain rfl := Option.some.inj entered
    exact .inl rfl
  | trap c tf hw =>
    obtain rfl := Option.some.inj entered
    obtain same | same := entry_request s c tf hw
    · exact .inl same
    · rw [same, requestOf]
      unfold Mails at mails
      cases kind : trapKind tf.tfTrapno with
      | pageFault | e1000 | other => simp [kind] at mails
      | timer | breakpoint | spurious | device => exact .inl rfl
      | syscall =>
        exact .inr ⟨_, _, rfl, by simpa [kind] using mails⟩
  | create | store | txDone | rxDone => cases entered

theorem Mails.calls (mails : Mails ev) (entered : s.entryOf ev = some x) {call : SyscallNo}
    (other : call ∉ [.ipcTrySend, .ipcRecv, .yield]) : x.calls call = none := by
  unfold Entry.calls
  split
  next no a _ asked =>
    refine if_neg fun number => other ?_
    obtain none | ⟨no', a', same, mem⟩ := mails.request entered
    · cases asked.symm.trans none
    · cases asked.symm.trans same
      simpa [number] using mem
  · rfl

theorem Mails.tame (mails : Mails ev) : s.Tame ev := by
  refine ⟨?_, fun x entered => ?_⟩
  · cases ev with
    | create => exact mails.elim
    | _ => rfl
  · rw [Entry.tame, Entry.buffer, mails.calls entered (by decide), mails.calls entered (by decide),
      mails.calls entered (by decide)]
    rfl

theorem Mails.considerate (mails : Mails ev) (entered : s.entryOf ev = some x)
    (unlocked : s.kernelLock = none) (orderly : s.Orderly)
    (blocked : ∀ e, (s.envs e).envIpcRecving = true → s.status e = .notRunnable) :
    x.Considerate := by
  have finds := entryOf_finds s entered
  have woken : x.woken = [] := by
    unfold Entry.woken
    obtain same | ⟨no, a, same, -⟩ := mails.request entered <;> rw [same]
  have unset : x.statusSet = none := by rw [Entry.statusSet, mails.calls entered (by decide)]; rfl
  have unnamed : x.named = none := by
    rw [Entry.named, mails.calls entered (by decide), mails.calls entered (by decide)]
    rfl
  refine ⟨by simp [woken], fun c _ _ e current touches => ?_⟩
  rw [Entry.Touches, unset, woken, unnamed] at touches
  obtain receives : x.receiver = some e := by simpa using touches
  have recving : (x.s.envs e).envIpcRecving = true := by
    unfold Entry.receiver at receives
    simp only [Option.bind_eq_bind, Option.bind_eq_some_iff] at receives
    obtain ⟨call, -, e', -, last⟩ := receives
    split at last
    next waits => exact Option.some.inj last ▸ waits
    · cases last
  obtain ⟨tf, same⟩ := finds.envs e
  rw [same] at recving
  have current : s.curenv c = some e := by rwa [Option.mem_def, Table.curenv, finds.cpus] at current
  have claimed := orderly.2.claimed c e current (by rw [unlocked]; rintro ⟨⟩)
  rw [Table.Claimed, blocked e recving] at claimed
  obtain wrong | wrong := claimed <;> cases wrong

end Kernel

def Entry.Fresh (x : Entry) : Prop :=
  ∀ e ∈ x.receiver, ∀ call ∈ x.calls .ipcTrySend, call.2.a3 < utop → ¬ (x.s.envs e).envIpcDstva < utop →
    (x.s.envs e).envIpcPerm = 0

instance (x : Entry) : Decidable x.Fresh :=
  decidable_of_iff (x.receiver.all fun e => (x.calls .ipcTrySend).all fun call =>
      call.2.a3 < utop → ¬ (x.s.envs e).envIpcDstva < utop → (x.s.envs e).envIpcPerm = 0) <| by
    simp only [Option.all_eq_true, decide_eq_true_eq]
    exact Iff.rfl

namespace Kernel

variable {managed : Nat → Prop} {s s' : Kernel} {ev : Event}

theorem deed_sends {cur e : Slot} {m : Message} (sends : s.deed ev = .sends cur e m) (other : e ≠ cur)
    (recving : (s.envs e).envIpcRecving = true) :
    ∃ x a, s.entryOf ev = some x ∧ x.calls .ipcTrySend = some (cur, a) ∧ a.a3 = m.srcva ∧
    x.receiver = some e ∧
      x.s.envs e = s.envs e := by
  cases ev with
  | create | start | store | txDone | rxDone => cases sends
  | trap c tf hw =>
    unfold deed at sends
    dsimp only at sends
    split at sends
    next user =>
      split at sends
      · cases sends
      next caller current =>
        split at sends
        · cases sends
        next alive =>
          unfold callDeed at sends
          dsimp only at sends
          split at sends
          · split at sends <;> cases sends
          next kind number =>
            split at sends
            next e' found =>
              split at sends
              · cases sends
                have entered : s.entry c tf hw = ⟨s.saved c cur tf, c, some cur, requestOf tf hw⟩ := by
                  unfold entry entryLocked
                  rw [if_pos user, show (s.enter c).curenv c = some cur from current]
                  dsimp only
                  rw [if_neg (show (s.enter c).status cur ≠ .dying from alive)]
                  rfl
                have same : (s.saved c cur tf).envs e = s.envs e := by rw [saved_envs, update_of_ne other]
                have called : Entry.calls ⟨s.saved c cur tf, c, some cur, requestOf tf hw⟩ .ipcTrySend =
                    some (cur, ⟨tf.tfRegs.regEdx, tf.tfRegs.regEcx, tf.tfRegs.regEbx, tf.tfRegs.regEdi,
                      tf.tfRegs.regEsi⟩) := by
                  simp [Entry.calls, requestOf, kind, number]
                refine ⟨_, _, congrArg some entered, called, rfl, ?_, same⟩
                rw [Entry.receiver, called]
                simp [saved_envid2env, found, same, recving]
              · cases sends
            · cases sends
          · cases sends
    · cases sends

end Kernel

namespace Office

variable {managed : Nat → Prop} {o o' : Office} {ev : Event}

def Delivered (o : Office) : Prop :=
  ∀ e, Served (o.posts e) (o.unread e) (o.kernel.envs e) (o.kernel.memory.pte e)

def Proper (o : Office) (ev : Event) : Prop :=
  Kernel.Mails ev ∧ ∀ x ∈ o.kernel.entryOf ev, x.Unsaturated ∧ x.Fresh

theorem Delivered.blocked (delivered : o.Delivered) (e : Slot)
    (recving : (o.kernel.envs e).envIpcRecving = true) : o.kernel.status e = .notRunnable :=
  ((delivered e).waiting recving).1

theorem Delivered.record {s' : Kernel} {d : Deed} (delivered : o.Delivered) (did : o.kernel.Did s' d)
    (fresh : ∀ cur e m, d = .sends cur e m → m.srcva < utop → ¬ (o.kernel.envs e).envIpcDstva < utop →
      (o.kernel.envs e).envIpcPerm = 0) : (o.record s' d).Delivered := by
  intro e
  cases d with
  | quiet =>
    have turned := (delivered e).turned (did.envs e)
    rwa [← did.pte] at turned
  | ends cur =>
    obtain ⟨dying, same, others⟩ := did
    by_cases here : e = cur
    · subst here
      exact (delivered e).ended dying same
    · obtain ⟨turned, pte⟩ := others e here
      have served := (delivered e).turned turned
      rwa [← pte] at served
  | enters cur =>
    obtain ⟨tf, follows⟩ := did
    have turned := follows.envs e
    show Served _ (update o.unread cur false e) _ (s'.memory.pte e)
    rw [follows.pte]
    by_cases here : e = cur
    · subst here
      rw [update_self] at turned ⊢
      exact ((delivered e).entered tf).turned turned
    · rw [update_of_ne here] at turned ⊢
      exact (delivered e).turned turned
  | receives cur dstva =>
    obtain ⟨free, tf, follows⟩ := did
    have turned := follows.envs e
    show Served (update o.posts cur _ e) (update o.unread cur false e) _ (s'.memory.pte e)
    rw [follows.pte]
    by_cases here : e = cur
    · subst here
      rw [update_self] at turned ⊢
      rw [update_self]
      exact ((delivered e).called free tf dstva).turned turned
    · rw [update_of_ne here] at turned ⊢
      rw [update_of_ne here]
      exact (delivered e).turned turned
  | sends cur e' m =>
    obtain ⟨other, recving, tf, after, left, posted, follows⟩ := did
    have turned := follows.envs e
    show Served (update o.posts e' _ e) (update (update o.unread cur false) e' true e) _
      (s'.memory.pte e)
    rw [follows.pte]
    by_cases target : e = e'
    · subst target
      rw [update_of_ne other, update_self] at turned
      rw [update_self, update_self]
      exact ((delivered e).sent recving posted (fresh cur e m rfl)).turned turned
    · have pte : after.pte e = o.kernel.memory.pte e := by
        unfold Message.Posted at posted
        split at posted
        · obtain ⟨-, pp, -, ptes⟩ := posted
          funext d t
          rw [ptes, if_neg fun same => target same.1]
        · rw [posted.1]
      rw [pte, update_of_ne target, update_of_ne target]
      by_cases here : e = cur
      · subst here
        rw [update_self] at turned ⊢
        exact ((delivered e).entered tf).turned turned
      · rw [update_of_ne here, update_of_ne target] at turned
        rw [update_of_ne here]
        exact (delivered e).turned turned

theorem step_delivered (orderly : o.kernel.Orderly) (kept : o.kernel.Kept managed)
    (delivered : o.Delivered) (proper : o.Proper ev) (stepped : o.step ev = some o') :
    o'.kernel.Orderly ∧ o'.kernel.Kept managed ∧ o'.Delivered := by
  obtain ⟨s', next, rfl⟩ := Option.map_eq_some_iff.mp stepped
  obtain ⟨mails, entries⟩ := proper
  have kernel : ∀ d, (o.record s' d).kernel = s' := fun d => by cases d <;> rfl
  have considerate : ∀ x ∈ o.kernel.entryOf ev, x.Considerate := by
    intro x entered
    obtain ⟨x', -, ready, -⟩ | ⟨e, g, type, segments, start, made, -⟩ | ⟨none, -⟩ :=
      Kernel.step_table _ next
    · exact mails.considerate entered ready.1 orderly delivered.blocked
    · subst made
      cases entered
    · cases none.symm.trans entered
  rw [kernel]
  refine ⟨Kernel.step_orderly orderly considerate next,
    Kernel.step_kept kept ⟨mails.tame, fun x entered => (entries x entered).1⟩ next, ?_⟩
  have did := Kernel.step_did orderly kept delivered.blocked mails.tame mails next
  refine delivered.record did fun cur e m sends offered unwanted => ?_
  rw [sends] at did
  obtain ⟨other, recving, -⟩ := did
  obtain ⟨x, a, entered, called, srcva, receiver, same⟩ := Kernel.deed_sends sends other recving
  have zero := (entries x entered).2 e receiver (cur, a) called (srcva ▸ offered)
  rw [same] at zero
  exact zero unwanted

theorem opened_delivered {s : Kernel}
    (waiting : ∀ e, (s.envs e).envIpcRecving = true → s.status e = .notRunnable) :
    (opened s).Delivered := by
  intro e
  refine ⟨fun recving => ⟨waiting e recving, [], if_pos recving, rfl⟩, fun free => ?_, nofun⟩
  rw [show (opened s).posts e = [] from if_neg (Bool.eq_false_iff.mp free)]
  rfl

instance (o : Office) (ev : Event) : Decidable (o.Proper ev) :=
  inferInstanceAs (Decidable (_ ∧ ∀ x ∈ o.kernel.entryOf ev, _))

theorem messages_delivered {s₀ s₁ : Kernel} {free : List Nat} {before events : List Event}
    (booted : s₀.Booted free)
    (first : Run Kernel.step (Kernel.Within fun x => x.Considerate ∧ x.Unsaturated) s₀ before s₁)
    (waiting : ∀ e, (s₁.envs e).envIpcRecving = true → s₁.status e = .notRunnable)
    (second : Run step Proper (opened s₁) events o) : o.Delivered := by
  have start : s₁.Orderly ∧ s₁.Kept (· ∈ free) := by
    refine first.invariant
      (motive := fun s => s.Orderly ∧ s.Kept (· ∈ free)) ⟨booted.orderly, booted.kept⟩ fun s ev s'
      holds allowed next => ?_
    exact ⟨Kernel.step_orderly holds.1 (fun x entered => (allowed.2 x entered).1) next,
      Kernel.step_kept holds.2 ⟨allowed.1, fun x entered => (allowed.2 x entered).2⟩ next⟩
  have last : o.kernel.Orderly ∧ o.kernel.Kept (· ∈ free) ∧ o.Delivered :=
    second.invariant (motive := fun o => o.kernel.Orderly ∧ o.kernel.Kept (· ∈ free) ∧ o.Delivered)
      ⟨start.1, start.2, opened_delivered waiting⟩ fun _ _ _ holds proper next =>
      step_delivered holds.1 holds.2.1 holds.2.2 proper next
  exact last.2.2

def offer (value : Word) : Event := sys 0 12 0x1001 value (ustacktop - 4096) 7

def pageSent : List Event := [sys 1 13 0x400000 0 0 0, offer 5]

theorem messages_delivered_page : ∃ s₁ o,
    Run Kernel.step (Kernel.Within fun x => x.Considerate ∧ x.Unsaturated) demo twoRunning s₁ ∧
    Run step Proper (opened s₁) pageSent o ∧ o.unread 1 = true ∧ o.Delivered := by
  obtain ⟨s₁, first, waiting, ran⟩ : ∃ s₁,
      Run Kernel.step (Kernel.Within fun x => x.Considerate ∧ x.Unsaturated) demo twoRunning s₁ ∧
      (∀ e, (s₁.envs e).envIpcRecving = true → s₁.status e = .notRunnable) ∧
      (exec step Proper (opened s₁) pageSent).any (fun o => o.unread 1) = true :=
    Run.of_exec_any (by decide +kernel)
  obtain ⟨o, second, new⟩ : ∃ o, Run step Proper (opened s₁) pageSent o ∧ o.unread 1 = true :=
    Run.of_exec_any (by simpa using ran)
  exact ⟨s₁, o, first, second, new, messages_delivered demo_booted first waiting second⟩

def unwantedSent : List Event := pageSent ++
  [.trap 1 { userFrame 32 0 0 0 0 0 with tfCs := gdKT } idleInputs, sys 1 13 utop 0 0 0, offer 6]

def Stale (o : Office) : Prop :=
  o.unread 1 = true ∧ (o.kernel.envs 1).envIpcPerm = 7 ∧ ¬(o.kernel.envs 1).envIpcDstva < utop

instance (o : Office) : Decidable o.Stale := inferInstanceAs (Decidable (_ ∧ _ ∧ _))

theorem Stale.not_delivered (stale : o.Stale) : ¬o.Delivered := by
  intro delivered
  obtain ⟨new, perm, unwanted⟩ := stale
  obtain ⟨m, dstva, rest, -, held⟩ := (delivered 1).arrived new
  have page := held.page
  rw [if_neg fun both => unwanted (held.place ▸ both.2), perm] at page
  cases page

theorem messages_garbled : demo.Booted demoFree ∧ ∃ s₁ o,
    Run Kernel.step (Kernel.Within fun x => x.Considerate ∧ x.Unsaturated) demo twoRunning s₁ ∧
    (∀ e, (s₁.envs e).envIpcRecving = true → s₁.status e = .notRunnable) ∧
    Run step (fun _ ev => Kernel.Mails ev) (opened s₁) unwantedSent o ∧ ¬o.Delivered := by
  obtain ⟨s₁, first, waiting, ran⟩ : ∃ s₁,
      Run Kernel.step (Kernel.Within fun x => x.Considerate ∧ x.Unsaturated) demo twoRunning s₁ ∧
      (∀ e, (s₁.envs e).envIpcRecving = true → s₁.status e = .notRunnable) ∧
      (exec step (fun _ ev => Kernel.Mails ev) (opened s₁) unwantedSent).any
        (fun o => decide o.Stale) = true :=
    Run.of_exec_any (by decide +kernel)
  obtain ⟨o, second, stale⟩ : ∃ o,
    Run step (fun _ ev => Kernel.Mails ev) (opened s₁) unwantedSent o ∧ o.Stale :=
    Run.of_exec_any ran
  exact ⟨demo_booted, s₁, o, first, waiting, second, stale.not_delivered⟩

end Office

end Jos.Kern
