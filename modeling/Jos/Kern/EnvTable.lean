import Jos.Kern.Simulation

namespace Jos.Kern

open Jos.Shared

namespace Table

structure Ok (t : Table) : Prop where
  list : ∃ free, Chain (fun e => (t.envs e).envLink) t.envFreeList free ∧
    ∀ e, e ∈ free ↔ t.status e = .free
  pgdir : ∀ e, t.status e = .free ↔ (t.envs e).envPgdir = none

def Sound (t : Table) : Action → Prop
  | .create e _ _ _ | .alloc e _ _ | .fork e _ _ => t.envFreeList = some e
  | .free e => (t.envs e).envPgdir ≠ none
  | .setStatus e status => t.status e ≠ .free ∧ status ≠ .free
  | .dying e | .wake e | .block e _ | .deliver e _ _ _ | .run _ e => t.status e ≠ .free
  | .frame _ _ | .edit _ _ _ _ | .clear _ | .halt _ => True

namespace Ok

variable {t t' : Table}

theorem congr (ok : t.Ok) (head : t'.envFreeList = t.envFreeList)
    (links : ∀ e, (t'.envs e).envLink = (t.envs e).envLink)
    (dirs : ∀ e, (t'.envs e).envPgdir = (t.envs e).envPgdir)
    (frees : ∀ e, t'.status e = .free ↔ t.status e = .free) : t'.Ok := by
  obtain ⟨⟨free, chain, exact⟩, pgdir⟩ := ok
  refine ⟨⟨free, ?_, fun e => (exact e).trans (frees e).symm⟩, fun e => ?_⟩
  · rw [head]
    exact chain.congr fun e _ => links e
  · rw [frees, dirs, pgdir]

theorem head_free (ok : t.Ok) {e : Slot} (head : t.envFreeList = some e) : t.status e = .free := by
  obtain ⟨free, chain, exact⟩ := ok.list
  rw [head] at chain
  obtain ⟨rest, rfl, -⟩ := chain.of_some
  exact (exact e).mp List.mem_cons_self

theorem setEnv (ok : t.Ok) (e : Slot) (env : Env) (link : env.envLink = (t.envs e).envLink)
    (dir : env.envPgdir = (t.envs e).envPgdir) (free : env.envStatus = .free ↔ t.status e = .free) :
    (t.setEnv e env).Ok := by
  refine ok.congr rfl (fun e' => ?_) (fun e' => ?_) fun e' => ?_ <;>
    by_cases same : e' = e <;> simp [Table.setEnv, status, same, link, dir]
  simpa [status] using free

theorem take (ok : t.Ok) {e : Slot} {env : Env} (head : t.envFreeList = some e)
    (link : env.envLink = (t.envs e).envLink) (dir : env.envPgdir ≠ none) (live : env.envStatus ≠ .free) :
    (t.take e env).Ok := by
  obtain ⟨⟨free, chain, exact⟩, pgdir⟩ := ok
  rw [head] at chain
  obtain ⟨rest, rfl, tail⟩ := chain.of_some
  have distinct : e ∉ rest := (List.nodup_cons.mp chain.nodup).1
  refine ⟨⟨rest, tail.congr fun e' _ => ?_, fun e' => ?_⟩, fun e' => ?_⟩ <;> by_cases same : e' = e
  · simp [Table.take, Table.setEnv, same, link]
  · simp [Table.take, Table.setEnv, same]
  · simp [Table.take, Table.setEnv, status, same, distinct, live]
  · simpa [Table.take, Table.setEnv, status, same] using exact e'
  · simp [Table.take, Table.setEnv, status, same, dir, live]
  · simpa [Table.take, Table.setEnv, status, same] using pgdir e'

theorem release (ok : t.Ok) {e : Slot} (dir : (t.envs e).envPgdir ≠ none) : (t.release e).Ok := by
  obtain ⟨⟨free, chain, exact⟩, pgdir⟩ := ok
  have fresh : e ∉ free := fun member => dir ((pgdir e).mp ((exact e).mp member))
  refine ⟨⟨e :: free, ⟨rfl, ?_⟩, fun e' => ?_⟩, fun e' => ?_⟩
  · have head : ((t.release e).envs e).envLink = t.envFreeList := by simp [Table.release, Table.setEnv]
    show Chain _ ((t.release e).envs e).envLink free
    rw [head]
    refine chain.congr fun e' member => ?_
    have other : e' ≠ e := fun same => fresh (same ▸ member)
    simp [Table.release, Table.setEnv, other]
  · by_cases same : e' = e
    · simp [Table.release, Table.setEnv, status, same]
    · simpa [Table.release, Table.setEnv, status, same] using exact e'
  · by_cases same : e' = e
    · simp [Table.release, Table.setEnv, status, same]
    · simpa [Table.release, Table.setEnv, status, same] using pgdir e'

theorem yieldCpu (ok : t.Ok) (c : Nat) : (t.yieldCpu c).Ok := by
  unfold Table.yieldCpu
  split
  next cur _ =>
    split
    next running => exact ok.setEnv cur _ rfl rfl (by simp [running])
    · exact ok
  · exact ok

theorem yieldCpu_live {c : Nat} {e : Slot} (live : t.status e ≠ .free) :
    (t.yieldCpu c).status e ≠ .free := by
  unfold Table.yieldCpu
  split
  next cur _ =>
    split
    · by_cases same : e = cur <;> simp_all [status, setStatus, Table.setEnv]
    · exact live
  · exact live

theorem act (ok : t.Ok) {a : Action} (sound : t.Sound a) : (t.act a).Ok := by
  cases a with
  | create e g type entry =>
    exact ok.take sound rfl (by simp [createdEnv, Kernel.freshEnv])
      (by simp [createdEnv, Kernel.freshEnv])
  | alloc e g parentId => exact ok.take sound rfl (by simp [Kernel.freshEnv]) (by simp [Kernel.freshEnv])
  | fork e g parent =>
    rw [act_fork]
    exact ok.take sound rfl (by simp [forkedEnv, Kernel.freshEnv]) (by simp [forkedEnv])
  | free e => exact ok.release sound
  | dying e | wake e | block e dstva =>
    have live : t.status e ≠ .free := sound
    exact ok.setEnv e _ rfl rfl (by simp [live])
  | setStatus e status => exact ok.setEnv e _ rfl rfl (by simp [sound.1, sound.2])
  | frame e tf | edit e type upcall priority => exact ok.setEnv e _ rfl rfl Iff.rfl
  | deliver e source value perm =>
    have live : t.status e ≠ .free := sound
    exact ok.setEnv e _ rfl rfl (by simp [Kernel.received, live])
  | run c e =>
    have live : (t.yieldCpu c).status e ≠ .free := yieldCpu_live sound
    have running := (ok.yieldCpu c).setEnv e { (t.yieldCpu c).envs e with
      envStatus := .running, envRuns := ((t.yieldCpu c).envs e).envRuns + 1, envCpunum := c } rfl rfl
      (by simp [live])
    exact running.congr rfl (fun _ => rfl) (fun _ => rfl) fun _ => Iff.rfl
  | clear c | halt c => exact ok.congr rfl (fun _ => rfl) (fun _ => rfl) fun _ => Iff.rfl

end Ok

def Listed (t : Table) : Prop :=
  ∃ free, Chain (fun e => (t.envs e).envLink) t.envFreeList free ∧ ∀ e ∈ free, t.dirs e = none

def Linked (t : Table) : Action → Prop
  | .create e _ _ _ | .alloc e _ _ | .fork e _ _ => t.envFreeList = some e
  | .free e => t.dirs e ≠ none
  | _ => True

namespace Listed

variable {t t' : Table}

theorem vacant (listed : t.Listed) {e : Slot} (head : t.envFreeList = some e) : t.dirs e = none := by
  obtain ⟨free, chain, empty⟩ := listed
  rw [head] at chain
  obtain ⟨rest, rfl, -⟩ := chain.of_some
  exact empty e List.mem_cons_self

theorem congr (listed : t.Listed) (head : t'.envFreeList = t.envFreeList)
    (envs : ∀ e, (t'.envs e).envLink = (t.envs e).envLink ∧ (t'.envs e).envPgdir = (t.envs e).envPgdir) :
    t'.Listed := by
  obtain ⟨free, chain, empty⟩ := listed
  refine ⟨free, ?_, fun e member => (envs e).2.trans (empty e member)⟩
  rw [head]
  exact chain.congr fun e _ => (envs e).1

theorem setEnv (listed : t.Listed) (e : Slot) (env : Env) (link : env.envLink = (t.envs e).envLink)
    (dir : env.envPgdir = (t.envs e).envPgdir) : (t.setEnv e env).Listed := by
  refine listed.congr rfl fun e' => ?_
  by_cases same : e' = e <;> simp [Table.setEnv, same, link, dir]

theorem take (listed : t.Listed) {e : Slot} (env : Env) (head : t.envFreeList = some e) :
    (t.take e env).Listed := by
  obtain ⟨free, chain, empty⟩ := listed
  rw [head] at chain
  obtain ⟨rest, rfl, tail⟩ := chain.of_some
  have distinct : e ∉ rest := (List.nodup_cons.mp chain.nodup).1
  have others : ∀ e' ∈ rest, (t.take e env).envs e' = t.envs e' := by
    intro e' member
    simp [Table.take, Table.setEnv, show e' ≠ e from fun same => distinct (same ▸ member)]
  refine ⟨rest, tail.congr fun e' member => by rw [others e' member], fun e' member => ?_⟩
  rw [dirs, others e' member]
  exact empty e' (List.mem_cons_of_mem e member)

theorem release (listed : t.Listed) {e : Slot} (dir : t.dirs e ≠ none) : (t.release e).Listed := by
  obtain ⟨free, chain, empty⟩ := listed
  have others : ∀ e' ∈ free, (t.release e).envs e' = t.envs e' := by
    intro e' member
    simp [Table.release, Table.setEnv, show e' ≠ e from fun same => dir (same ▸ empty e' member)]
  refine ⟨e :: free, ⟨rfl, ?_⟩, fun e' member => ?_⟩
  · have head : ((t.release e).envs e).envLink = t.envFreeList := by simp [Table.release, Table.setEnv]
    show Chain _ ((t.release e).envs e).envLink free
    rw [head]
    exact chain.congr fun e' member => by rw [others e' member]
  · rcases List.mem_cons.mp member with rfl | old
    · simp [dirs, Table.release, Table.setEnv]
    · rw [dirs, others e' old]
      exact empty e' old

theorem act (listed : t.Listed) {a : Action} (linked : t.Linked a) : (t.act a).Listed := by
  cases a with
  | create e | alloc e => exact listed.take _ linked
  | fork e g parent =>
    rw [act_fork]
    exact listed.take _ linked
  | free e => exact listed.release linked
  | dying e | setStatus e | wake e | frame e | edit e | block e | deliver e =>
    exact listed.setEnv e _ rfl rfl
  | run c e =>
    have aside : (t.yieldCpu c).Listed := by
      unfold yieldCpu
      split
      next cur _ =>
        split
        · exact listed.setEnv cur _ rfl rfl
        · exact listed
      · exact listed
    have running := aside.setEnv e { (t.yieldCpu c).envs e with
      envStatus := .running, envRuns := ((t.yieldCpu c).envs e).envRuns + 1, envCpunum := c } rfl rfl
    exact running.congr rfl fun _ => ⟨rfl, rfl⟩
  | clear c | halt c => exact listed.congr rfl fun _ => ⟨rfl, rfl⟩

end Listed

end Table

namespace Kernel

theorem envid2env_live {s : Kernel} {cur e : Slot} {envid : Word} {checkperm : Bool}
    (found : s.envid2env cur envid checkperm = some e) : e = cur ∨ s.status e ≠ .free := by
  unfold envid2env at found
  split at found
  · exact .inl (Option.some.inj found).symm
  split at found
  · cases found
  next valid =>
    split at found
    · cases found
    · obtain rfl := Option.some.inj found
      exact .inr fun free => valid (.inl free)

end Kernel

namespace Entry

theorem cur_of_calls {x : Entry} {call : SyscallNo} {cur : Slot} {a : Args}
    (called : x.calls call = some (cur, a)) : x.cur = some cur := by
  unfold calls at called
  split at called
  next cur' no a' here _ =>
    split at called
    · simp_all
    · cases called
  · cases called

theorem calls_other {x : Entry} {call call' : SyscallNo} {r : Slot × Args}
    (called : x.calls call = some r) (other : call' ≠ call) : x.calls call' = none := by
  unfold calls at called ⊢
  split at called
  · split at called
    next number => simp [number, other.symm]
    · cases called
  · cases called

theorem statusSet_spec {x : Entry} {e : Slot} {status : EnvStatus}
    (sets : x.statusSet = some (e, status)) : (x.cur = some e ∨ x.s.status e ≠ .free) ∧
    (status = .runnable ∨ status = .notRunnable) := by
  simp only [statusSet, Option.bind_eq_bind, Option.bind_eq_some_iff] at sets
  obtain ⟨⟨cur, a⟩, called, status', valid, e', found, same⟩ := sets
  obtain ⟨rfl, rfl⟩ := Prod.mk.inj (Option.some.inj same)
  refine ⟨?_, ?_⟩
  · rcases Kernel.envid2env_live found with rfl | alive
    · exact .inl (cur_of_calls called)
    · exact .inr alive
  · unfold Kernel.statusArg at valid
    split at valid
    · exact .inl (Option.some.inj valid).symm
    · split at valid
      · exact .inr (Option.some.inj valid).symm
      · cases valid

theorem receiver_spec {x : Entry} {e : Slot} (receives : x.receiver = some e) :
    (x.cur = some e ∨ x.s.status e ≠ .free) ∧ (x.s.envs e).envIpcRecving = true := by
  simp only [receiver, Option.bind_eq_bind, Option.bind_eq_some_iff] at receives
  obtain ⟨⟨cur, a⟩, called, e', found, waiting⟩ := receives
  split at waiting
  next recving =>
    obtain rfl := Option.some.inj waiting
    refine ⟨?_, recving⟩
    rcases Kernel.envid2env_live found with rfl | alive
    · exact .inl (cur_of_calls called)
    · exact .inr alive
  · cases waiting

/-- The helpers that an interrupt wakes still exist, and so does the environment that trapped. -/
structure Live (x : Entry) : Prop where
  woken : ∀ e ∈ x.woken, x.s.status e ≠ .free
  current : ∀ cur ∈ x.cur, x.s.status cur ≠ .free

-- Through lists and options, since instance search would try all 1024 slots.
instance (x : Entry) : Decidable x.Live :=
  decidable_of_iff (x.woken.all (x.s.status · ≠ .free) ∧ x.cur.all (x.s.status · ≠ .free)) <| by
    constructor
    · intro both
      exact ⟨by simpa using both.1, by simpa [Option.all_eq_true] using both.2⟩
    · intro live
      exact ⟨by simpa using live.woken, by simpa [Option.all_eq_true] using live.current⟩

theorem Live.sound {x : Entry} (live : x.Live) {t : Table} {a : Action} (cause : x.Cause t a) :
    t.Sound a := by
  have exists_ : ∀ e, x.cur = some e ∨ x.s.status e ≠ .free → x.s.status e ≠ .free := by
    rintro e (here | alive)
    · exact live.current e here
    · exact alive
  cases a with
  | create | alloc => exact cause.elim
  | fork e g parent => exact cause.2.1
  | free e => exact cause.2.1
  | dying e => exact fun free => absurd (cause.2.1.1.symm.trans free) (by decide)
  | setStatus e status =>
    obtain ⟨rfl, sets⟩ := cause
    obtain ⟨alive, valid⟩ := statusSet_spec sets
    refine ⟨exists_ e alive, ?_⟩
    rcases valid with rfl | rfl <;> decide
  | wake e =>
    have alive := live.woken e cause.1
    rcases cause.2 with rfl | ⟨other, rfl⟩
    · exact alive
    · by_cases same : e = other <;> simp_all [Table.Sound, Table.status, Table.setStatus, Table.setEnv]
  | frame | edit | clear | halt => trivial
  | block e dstva =>
    obtain ⟨rfl, a, called, -⟩ := cause
    exact live.current e (cur_of_calls called)
  | deliver e source value perm =>
    obtain ⟨rfl, receives, -⟩ := cause
    exact exists_ e (receiver_spec receives).1
  | run c e =>
    rcases cause.2.2 with runnable | ⟨-, running | ⟨-, here, same⟩⟩
    · exact fun free => absurd (runnable.symm.trans free) (by decide)
    · exact fun free => absurd (running.symm.trans free) (by decide)
    · exact fun free => live.current e here (same.symm.trans free)

theorem Cause.linked {x : Entry} {t : Table} {a : Action} (cause : x.Cause t a) : t.Linked a := by
  cases a with
  | create | alloc => exact cause.elim
  | fork e g parent => exact cause.2.1
  | free e => exact cause.2.1
  | _ => trivial

end Entry

end Jos.Kern
