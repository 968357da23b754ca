import Jos.Kern.Exclusive
import Jos.Kern.Turns

namespace Jos.Kern

open Jos.Shared
open Function

structure Message where
  source : Word
  value : Word
  srcva : Word
  perm : Word
  page : Option Nat
  deriving DecidableEq

inductive Post where
  | call (dstva : Word)
  | message (m : Message)
  deriving DecidableEq

def Message.Posted (m : Message) (e : Slot) (env : Env) (before after : Memory) (perm : Word) : Prop :=
  if m.srcva < utop ∧ env.envIpcDstva < utop then
    perm = m.perm ∧ ∃ pp, m.page = some pp ∧ ∀ j d t, after.pte j d t =
      if j = e ∧ d = pdx env.envIpcDstva ∧ t = ptx env.envIpcDstva then entry pp m.perm
        else before.pte j d t
  else
    -- A page that is not wanted leaves the permissions of an earlier one.
    after.pte = before.pte ∧ perm = if m.srcva < utop then env.envIpcPerm else 0

namespace Kernel

open Memory

variable {managed : Nat → Prop} {s s' : Kernel}

def message (s : Kernel) (cur : Slot) (value srcva perm : Word) : Message :=
  ⟨(s.envs cur).envId, value, srcva, perm, s.mapped cur srcva⟩

theorem sysIpcTrySend_cases (cur : Slot) (envid value srcva perm : Word) (ready : s.Ready managed) :
    Ends (s.sysIpcTrySend cur envid value srcva perm) (Exit.Leaves True fun _ => False) fun result =>
      result.2 ≠ 0 ∧ result.1 = s ∨
        result.2 = 0 ∧ ∃ e vm left, s.envid2env cur envid false = some e ∧
        (s.envs e).envIpcRecving = true ∧
          result.1 = { s with vm := vm }.deliver cur e value left ∧
          (s.message cur value srcva perm).Posted e (s.envs e) s.memory ⟨vm, s.dirs⟩ left := by
  have failed : ∀ err : Errno, err.code ≠ 0 := by
    intro err
    cases err <;> decide
  have directory : ∀ {e envid}, s.envid2env cur envid false = some e →
      Ends (s.pgdir e) (Exit.Leaves True fun _ => False) fun g => s.dirs e = some g :=
    fun found =>
      (pgdir_found found s rfl).mono (fun _ leaves => leaves.mono (fun _ => trivial) fun _ => id)
      fun _ => id
  unfold sysIpcTrySend
  split
  · exact .inl ⟨failed .badEnv, rfl⟩
  next e found =>
    split
    · exact .inl ⟨failed .ipcNotRecv, rfl⟩
    next waiting =>
      have waiting : (s.envs e).envIpcRecving = true := by simpa using waiting
      split
      next user =>
        split
        · exact .inl ⟨failed .inval, rfl⟩
        next valid =>
          obtain ⟨-, perms⟩ : pgoff srcva = 0 ∧ permOk perm = true := by simpa using valid
          have self : s.envid2env cur 0 false = some cur := by simp [envid2env]
          refine Ends.bind (directory self) fun g own => ?_
          rcases lookup_ok ready.1 own user with ⟨looked, -⟩ | ⟨pp, pte, looked, mapped, word⟩
          · exact Ends.bind_ok (readVm_ok s looked) (.inl ⟨failed .inval, rfl⟩)
          · refine Ends.bind_ok (readVm_ok s looked) ?_
            dsimp only
            split
            · exact .inl ⟨failed .inval, rfl⟩
            next writable =>
              have writable : perm &&& pteW ≠ 0 → s.memory.pte cur (pdx srcva) (ptx srcva) &&& pteW ≠ 0 :=
                fun wants none => writable ⟨wants, (congrArg (· &&& pteW) word).trans none⟩
              split
              next wanted =>
                refine Ends.bind (directory found) fun g' own' => ?_
                rcases copy_edited ready own' wanted (permOk_low perms) mapped writable with
                  full | ⟨vm', done, edited⟩
                · exact Ends.bind_ok (liftVm_ok s full) (.inl ⟨failed .noMem, rfl⟩)
                · have page : s.mapped cur srcva = some pp := by
                    rw [Entry.mapped_eq ready.1 cur user, mapped]
                  refine Ends.bind_ok (liftVm_ok s done) (.inr ⟨rfl, e, vm', perm, found, waiting,
                    rfl, ?_⟩)
                  rw [Message.Posted, if_pos ⟨user, wanted⟩]
                  exact ⟨rfl, pp, page, edited.does.2.2.pte⟩
              next unwanted =>
                refine .inr ⟨rfl, e, s.vm, _, found, waiting, rfl, ?_⟩
                rw [Message.Posted, if_neg fun both => unwanted both.2]
                exact ⟨rfl, (if_pos user).symm⟩
      next outside =>
        refine .inr ⟨rfl, e, s.vm, _, found, waiting, rfl, ?_⟩
        rw [Message.Posted, if_neg fun both => outside both.1]
        exact ⟨rfl, (if_neg outside).symm⟩

end Kernel

inductive Deed where
  | quiet
  | ends (cur : Slot)
  | enters (cur : Slot)
  | receives (cur : Slot) (dstva : Word)
  | sends (cur e : Slot) (m : Message)

namespace Kernel

variable {managed : Nat → Prop} {s s' : Kernel}

def callDeed (s : Kernel) (c : Nat) (cur : Slot) (tf : Trapframe) : Deed :=
  let regs := tf.tfRegs
  match trapKind tf.tfTrapno, syscalls[regs.regEax.toNat]? with
  | .syscall, some .ipcRecv =>
    if regs.regEdx < utop ∧ pgoff regs.regEdx ≠ 0 then .enters cur else .receives cur regs.regEdx
  | .syscall, some .ipcTrySend =>
    let sent := (s.saved c cur tf).sysIpcTrySend cur regs.regEdx regs.regEcx regs.regEbx regs.regEdi
    match s.envid2env cur regs.regEdx false with
    | some e =>
      if sent.toOption.map Prod.snd = some 0 then
        .sends cur e (s.message cur regs.regEcx regs.regEbx regs.regEdi)
      else .enters cur
    | none => .enters cur
  | _, _ => .enters cur

def deed (s : Kernel) : Event → Deed
  | .trap c tf _ =>
    if tf.fromUser then
      match s.curenv c with
      | none => .quiet
      | some cur => if s.status cur = .dying then .ends cur else s.callDeed c cur tf
    else .quiet
  | _ => .quiet

structure Follows (envs : Slot → Env) (m : Memory) (s' : Kernel) : Prop where
  envs : ∀ e, (envs e).Turned (s'.envs e)
  pte : s'.memory.pte = m.pte

theorem Turns.follows (turns : s.Turns s') : Follows s.envs s.memory s' :=
  ⟨turns.envs, congrArg Memory.pte turns.memory⟩

def Did (s s' : Kernel) : Deed → Prop
  | .quiet => Follows s.envs s.memory s'
  | .ends cur => s.status cur = .dying ∧ (s'.envs cur).envIpcRecving = (s.envs cur).envIpcRecving ∧
      ∀ e, e ≠ cur → (s.envs e).Turned (s'.envs e) ∧ s'.memory.pte e = s.memory.pte e
  | .enters cur => ∃ tf, Follows (update s.envs cur { s.envs cur with envTf := tf }) s.memory s'
  | .receives cur dstva => (s.envs cur).envIpcRecving = false ∧ ∃ tf, Follows (update s.envs cur
      { s.envs cur with envTf := tf, envIpcDstva := dstva, envIpcRecving := true,
                        envStatus := .notRunnable }) s.memory s'
  | .sends cur e m => e ≠ cur ∧ (s.envs e).envIpcRecving = true ∧
      ∃ tf after left, m.Posted e (s.envs e) s.memory after left ∧
        Follows (update (update s.envs e (received (s.envs e) m.source m.value left)) cur
          { s.envs cur with envTf := tf }) after s'

-- Programs only send, receive and yield. Apart from that the clock ticks, and devices other than
-- the network card interrupt.
def Mails : Event → Prop
  | .create _ _ _ => False
  | .trap _ tf _ => trapKind tf.tfTrapno ∈ [.timer, .breakpoint, .spurious, .device] ∨
      trapKind tf.tfTrapno = .syscall ∧
        syscalls[tf.tfRegs.regEax.toNat]? ∈ [some .ipcTrySend, some .ipcRecv, some .yield]
  | .start _ | .store _ _ _ | .txDone _ | .rxDone _ _ => True

instance : (ev : Event) → Decidable (Mails ev)
  | .create _ _ _ => inferInstanceAs (Decidable False)
  | .trap _ _ _ => inferInstanceAs (Decidable (_ ∨ _ ∧ _))
  | .start _ | .store _ _ _ | .txDone _ | .rxDone _ _ => inferInstanceAs (Decidable True)

section Saved

variable (s) (c : Nat) (cur : Slot) (tf : Trapframe)

theorem saved_memory : (s.saved c cur tf).memory = s.memory :=
  congrArg (Memory.mk s.vm) (saved_dirs s c cur tf)

theorem saved_envs : (s.saved c cur tf).envs = update s.envs cur { s.envs cur with envTf := tf } := rfl

theorem saved_field {α : Type} (field : Env → α)
    (apart : ∀ env tf, field { env with envTf := tf } = field env) (e : Slot) :
    field ((s.saved c cur tf).envs e) = field (s.envs e) := by
  rw [saved_envs]
  by_cases same : e = cur
  · subst same
    rw [update_self, apart]
  · rw [update_of_ne same]

theorem saved_envid2env (caller : Slot) (envid : Word) (checkperm : Bool) :
    (s.saved c cur tf).envid2env caller envid checkperm = s.envid2env caller envid checkperm := by
  have status := saved_field s c cur tf (·.envStatus) (fun _ _ => rfl)
  have id := saved_field s c cur tf (·.envId) (fun _ _ => rfl)
  have parent := saved_field s c cur tf (·.envParentId) (fun _ _ => rfl)
  unfold envid2env Table.status
  rw [status, id, id, parent]

theorem saved_message (caller : Slot) (value srcva perm : Word) :
    (s.saved c cur tf).message caller value srcva perm = s.message caller value srcva perm := by
  have id := saved_field s c cur tf (·.envId) (fun _ _ => rfl) caller
  have root := saved_field s c cur tf (·.envPgdir) (fun _ _ => rfl) caller
  have page : (s.saved c cur tf).mapped caller srcva = s.mapped caller srcva := by
    rw [mapped, root]
    rfl
  rw [message, id, page]
  rfl

end Saved

theorem returned_turns {c : Nat} {cur : Slot} {s₁ : Kernel} {result : Word}
    (left : (finish c (.ok (s₁.setTable (s₁.setTf cur ((s₁.envs cur).envTf.setEax result))))).state?
    = some s') :
    ∃ tf, Follows (update s₁.envs cur { s₁.envs cur with envTf := tf }) s₁.memory s' := by
  have turns := trapReturn_turns left
  refine ⟨_, turns.envs, ?_⟩
  rw [turns.memory]
  exact congrArg Memory.pte (congrArg (Memory.mk s₁.vm) (Table.dirs_setTf s₁.toTable cur _))

theorem sysIpcTrySend_did {c : Nat} {cur : Slot} {tf : Trapframe}
    {envid value srcva perm result : Word} {s₁ : Kernel} (ready : s.Ready managed)
    (blocked : ∀ e, (s.envs e).envIpcRecving = true → e ≠ cur)
    (sent : (s.saved c cur tf).sysIpcTrySend cur envid value srcva perm = .ok (s₁, result))
    (left : (finish c (.ok (s₁.setTable (s₁.setTf cur ((s₁.envs cur).envTf.setEax result))))).state?
    = some s') : result ≠ 0 ∧ s.Did s' (.enters cur) ∨
      result = 0 ∧ ∃ e, s.envid2env cur envid false = some e ∧
      s.Did s' (.sends cur e (s.message cur value srcva perm)) := by
  have ready : (s.saved c cur tf).Ready managed := by rwa [Ready, saved_memory]
  obtain ⟨tf', follows⟩ := returned_turns left
  have cases := sysIpcTrySend_cases cur envid value srcva perm ready
  rw [sent] at cases
  obtain ⟨failed, same⟩ | ⟨done, e, vm, kept, found, waiting, same, posted⟩ := cases
  · have same : s₁ = s.saved c cur tf := same
    subst same
    refine .inl ⟨failed, tf', ?_⟩
    rw [saved_memory, saved_envs, update_idem, update_self] at follows
    exact follows
  · have same : s₁ = { s.saved c cur tf with vm := vm }.deliver cur e value kept := same
    rw [saved_envid2env] at found
    rw [saved_field s c cur tf (·.envIpcRecving) fun _ _ => rfl] at waiting
    have other := blocked e waiting
    have target : (s.saved c cur tf).envs e = s.envs e := by rw [saved_envs, update_of_ne other]
    rw [saved_message, target, saved_memory] at posted
    refine .inr ⟨done, e, found, other, waiting, tf', ⟨vm, (s.saved c cur tf).dirs⟩, kept, posted, ?_⟩
    have envs : s₁.envs = update (s.saved c cur tf).envs e
        (received (s.envs e) (s.envs cur).envId value kept) := by
      rw [same, ← target, ← saved_field s c cur tf (·.envId) (fun _ _ => rfl) cur]
      rfl
    have memory : s₁.memory = ⟨vm, (s.saved c cur tf).dirs⟩ := by
      rw [same]
      exact deliver_memory _ cur e value kept
    rw [memory, envs, update_of_ne other.symm, saved_envs, update_self,
      update_comm other.symm, update_idem] at follows
    exact follows

theorem dispatchUser_did {c : Nat} {cur : Slot} {tf : Trapframe} {hw : Inputs} (ready : s.Ready managed)
    (blocked : ∀ e, (s.envs e).envIpcRecving = true → e ≠ cur) (mails : Mails (.trap c tf hw))
    (left : (finish c ((s.saved c cur tf).dispatchUser c cur hw)).state? = some s') :
    s.Did s' (s.callDeed c cur tf) := by
  have frame : ((s.saved c cur tf).envs cur).envTf = tf := by rw [saved_envs, update_self]
  have enters : (s.saved c cur tf).Turns s' → s.Did s' (.enters cur) := fun turns => by
    refine ⟨tf, turns.envs, ?_⟩
    rw [turns.memory, saved_memory]
  unfold dispatchUser at left
  rw [frame] at left
  unfold callDeed
  unfold Mails at mails
  cases kind : trapKind tf.tfTrapno with
  | pageFault | e1000 | other => simp [kind] at mails
  | timer =>
    simp only [kind] at left ⊢
    exact enters (schedYield_turns left)
  | breakpoint | spurious | device =>
    simp only [kind] at left ⊢
    exact enters (trapReturn_turns left)
  | syscall =>
    replace mails :
      syscalls[tf.tfRegs.regEax.toNat]? ∈ [some .ipcTrySend, some .ipcRecv, some .yield] := by
      simpa [kind] using mails
    simp only [kind, List.mem_cons, List.not_mem_nil, or_false] at mails left ⊢
    unfold syscall at left
    obtain send | receive | yield := mails
    · simp only [send] at left ⊢
      cases sent : (s.saved c cur tf).sysIpcTrySend cur tf.tfRegs.regEdx tf.tfRegs.regEcx tf.tfRegs.regEbx
          tf.tfRegs.regEdi with
      | error exit =>
        rw [sent] at left
        have stops :=
          sysIpcTrySend_cases cur tf.tfRegs.regEdx tf.tfRegs.regEcx tf.tfRegs.regEbx
          tf.tfRegs.regEdi (show (s.saved c cur tf).Ready managed by rwa [Ready, saved_memory])
        rw [sent] at stops
        exact (Exit.Leaves.of_state stops left).elim
      | ok returned =>
        rw [sent] at left
        obtain ⟨failed, did⟩ | ⟨done, e, found, did⟩ := sysIpcTrySend_did ready blocked sent left
        · have nonzero : (Except.ok returned : Except Exit _).toOption.map Prod.snd ≠
            some 0 := fun zero =>
            failed (Option.some.inj zero)
          split
          · rwa [if_neg nonzero]
          · exact did
        · have zero : (Except.ok returned : Except Exit _).toOption.map Prod.snd = some 0 :=
            congrArg some done
          rw [found]
          dsimp only
          rw [if_pos zero]
          exact did
    · simp only [receive] at left ⊢
      unfold sysIpcRecv at left
      split
      next invalid =>
        rw [if_pos invalid] at left
        obtain ⟨tf', follows⟩ := returned_turns left
        refine ⟨tf', ?_⟩
        rw [saved_memory, saved_envs, update_idem, update_self] at follows
        exact follows
      next valid =>
        rw [if_neg valid] at left
        have turns := schedYield_turns left
        have free : (s.envs cur).envIpcRecving = false := by
          by_contra waits
          exact blocked cur (by simpa using waits) rfl
        refine ⟨free, tf, fun e => ?_, ?_⟩
        · have turned : (update (s.saved c cur tf).envs cur _ e).Turned (s'.envs e) := turns.envs e
          rwa [saved_envs, update_idem, update_self] at turned
        · rw [turns.memory, ← saved_memory s c cur tf]
          exact congrArg Memory.pte (congrArg (Memory.mk s.vm) (Table.dirs_setEnv_self _ cur _ rfl))
    · simp only [yield] at left ⊢
      exact enters (schedYield_turns left)

theorem Orderly.running {c : Nat} {cur : Slot} (orderly : s.Orderly) (unlocked : s.kernelLock = none)
    (current : s.curenv c = some cur) (alive : s.status cur ≠ .dying) : s.status cur = .running :=
  (orderly.2.claimed c cur current (by rw [unlocked]; nofun)).resolve_right alive

theorem trap_did {c : Nat} {tf : Trapframe} {hw : Inputs} (orderly : s.Orderly) (ready : s.Ready managed)
    (unlocked : s.kernelLock = none)
    (blocked : ∀ e, (s.envs e).envIpcRecving = true → s.status e = .notRunnable)
    (mails : Mails (.trap c tf hw)) (left : (s.trap c tf hw).state? = some s') :
    s.Did s' (s.deed (.trap c tf hw)) := by
  unfold trap trapLocked at left
  unfold deed
  dsimp only at left ⊢
  split
  next user =>
    rw [if_pos user, show (s.enter c).curenv c = s.curenv c from rfl] at left
    cases current : s.curenv c with
    | none =>
      rw [current] at left
      cases left
    | some cur =>
      rw [current] at left
      dsimp only at left ⊢
      by_cases dying : s.status cur = .dying
      · rw [if_pos dying]
        rw [if_pos (show (s.enter c).status cur = .dying from dying)] at left
        cases own : (s.enter c).dirs cur with
        | none =>
          rw [envFree, pgdir_error own] at left
          cases left
        | some g =>
          obtain ⟨s₁, freed, table, edited⟩ := envFree_memory (s := s.enter c) ready own
          rw [freed] at left
          have turns := schedYield_turns left
          have released : s₁.envs = (s.release cur).envs := by
            rw [table]
            rfl
          have turned : ∀ e, ((s.release cur).envs e).Turned (s'.envs e) :=
            fun e => released ▸ turns.envs e
          refine ⟨dying, ?_, fun e other => ⟨?_, ?_⟩⟩
          · obtain ⟨status, runs, cpu, same⟩ := (turned cur).same
            rw [same]
            simp [Table.release, Table.setEnv]
          · have same : (s.release cur).envs e = s.envs e := Table.envs_setEnv_of_ne s.toTable _ other
            exact same ▸ turned e
          · rw [turns.memory]
            exact edited.does.2.2.1 e other
      · rw [if_neg dying]
        rw [if_neg (show (s.enter c).status cur ≠ .dying from dying)] at left
        refine dispatchUser_did ready (fun e waiting same => ?_) mails left
        have running := orderly.running unlocked current dying
        have idle := blocked e waiting
        rw [same, running] at idle
        cases idle
  next kernel =>
    rw [if_neg kernel] at left
    unfold dispatchKernel at left
    unfold Mails at mails
    have quiet : (s.enter c).Turns s' → Follows s.envs s.memory s' := fun turns => turns.follows
    cases kind : trapKind tf.tfTrapno with
    | pageFault | e1000 | other => simp [kind] at mails
    | timer =>
      simp only [kind] at left
      exact quiet (schedYield_turns left)
    | breakpoint | spurious | device =>
      simp only [kind] at left
      exact quiet (trapReturn_turns left)
    | syscall =>
      simp only [kind] at left
      cases left

theorem step_did {ev : Event} (orderly : s.Orderly) (kept : s.Kept managed)
    (blocked : ∀ e, (s.envs e).envIpcRecving = true → s.status e = .notRunnable) (tame : s.Tame ev)
    (mails : Mails ev) (stepped : s.step ev = some s') : s.Did s' (s.deed ev) := by
  cases ev with
  | create => exact mails.elim
  | start c =>
    unfold step at stepped
    dsimp only at stepped
    split at stepped
    · exact (schedYield_turns stepped).follows
    · cases stepped
  | trap c tf hw =>
    unfold step at stepped
    dsimp only at stepped
    split at stepped
    next ready => exact trap_did orderly kept.ready ready.1 blocked mails stepped
    · cases stepped
  | store c va value =>
    -- The bytes of a page change, and no page table.
    have moves := step_moves kept.ready kept.listed tame stepped
    have pte : s'.memory.pte = s.memory.pte := by
      refine moves.invariant
        (motive := fun m => m.pte = s.memory.pte) rfl fun a b edit same edits edited => ?_
      obtain rfl : edit = .keep := edits
      exact edited.does.2.1.trans same
    have table : s'.toTable = s.toTable := by
      obtain ⟨x, entered, -⟩ | ⟨e, g, type, segments, entry, made, -⟩ | ⟨-, same⟩ := step_table s stepped
      · cases entered
      · cases made
      · exact same
    exact ⟨fun e => table ▸ .refl _, pte⟩
  | txDone i =>
    obtain rfl := Option.some.inj stepped
    exact ⟨fun e => .refl _, rfl⟩
  | rxDone i length =>
    obtain rfl := Option.some.inj stepped
    exact ⟨fun e => .refl _, rfl⟩

end Kernel

end Jos.Kern
