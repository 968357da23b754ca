import Jos.Kern.Boot

namespace Jos.Kern

open Jos.Shared
open Function

def Exit.Leaves (null : Prop) (P : Kernel → Prop) : Exit → Prop
  | .user s | .halted s | .monitor s => P s
  | .panic _ _ => null

theorem Exit.Leaves.mono {null null' : Prop} {P Q : Kernel → Prop} {exit : Exit}
    (leaves : exit.Leaves null P) (stops : null → null') (weaker : ∀ s, P s → Q s) :
    exit.Leaves null' Q := by
  cases exit with
  | user s | halted s | monitor s => exact weaker _ leaves
  | panic => exact stops leaves

instance (P : Kernel → Prop) : Exit.Lax (Exit.Leaves True P) := ⟨fun _ _ => trivial⟩

namespace Table

def Rooted (t : Table) : Prop := ∀ e, t.status e ≠ .free → t.dirs e ≠ none

theorem Rooted.release {t : Table} (rooted : t.Rooted) (e : Slot) : (t.release e).Rooted := by
  intro e' live
  by_cases same : e' = e
  · simp [Table.release, setEnv, status, same] at live
  · simp only [Table.release, setEnv, status, dirs, update_of_ne same] at live ⊢
    exact rooted e' live

theorem dirs_setEnv (t : Table) (e : Slot) (env : Env) :
    (t.setEnv e env).dirs = update t.dirs e env.envPgdir := by
  funext e'
  by_cases same : e' = e <;> simp [dirs, setEnv, same]

theorem dirs_setEnv_self (t : Table) (e : Slot) (env : Env) (same : env.envPgdir = (t.envs e).envPgdir) :
    (t.setEnv e env).dirs = t.dirs := by
  rw [dirs_setEnv, same]
  exact update_eq_self e t.dirs

@[simp] theorem dirs_setStatus (t : Table) (e : Slot) (status : EnvStatus) :
    (t.setStatus e status).dirs = t.dirs := dirs_setEnv_self t e _ rfl

@[simp] theorem dirs_setTf (t : Table) (e : Slot) (tf : Trapframe) : (t.setTf e tf).dirs = t.dirs :=
  dirs_setEnv_self t e _ rfl

theorem yieldCpu_dirs (t : Table) (c : Nat) : (t.yieldCpu c).dirs = t.dirs := by
  unfold yieldCpu
  split
  next cur _ =>
    split
    · exact dirs_setStatus t cur .runnable
    · rfl
  · rfl

theorem runOn_dirs (t : Table) (c : Nat) (e : Slot) : (t.runOn c e).dirs = t.dirs :=
  dirs_setEnv_self t e { t.envs e with
    envStatus := .running, envRuns := (t.envs e).envRuns + 1, envCpunum := c } rfl

end Table

namespace Kernel

open Memory Table

def Ready (managed : Nat → Prop) (s : Kernel) : Prop := s.memory.Accounted managed ∧ s.memory.Bounded

def Calm (s : Kernel) (cur : Slot) : Prop := s.Rooted ∧ s.dirs cur ≠ none

variable {managed : Nat → Prop} {allowed : Memory → Edit → Prop} {s : Kernel} {e : Slot}

theorem liftVm_ok {α : Type} (s : Kernel) {result : Except Panic (Pmap × α)} {vm : Pmap} {value : α}
    (done : result = .ok (vm, value)) : s.liftVm result = .ok ({ s with vm := vm }, value) := by
  rw [done]
  rfl

theorem updateVm_ok (s : Kernel) {result : Except Panic Pmap} {vm : Pmap} (done : result = .ok vm) :
    s.updateVm result = .ok { s with vm := vm } := by
  rw [done]
  rfl

theorem readVm_ok {α : Type} (s : Kernel) {result : Except Panic α} {value : α}
    (done : result = .ok value) : s.readVm result = .ok value := by
  rw [done]
  rfl

theorem pgdir_ok {g : Nat} (own : s.dirs e = some g) : s.pgdir e = .ok g := by
  unfold pgdir
  rw [show (s.envs e).envPgdir = some g from own]

theorem envSetupVm_memory (ready : s.Ready managed) (vacant : s.dirs e = none) :
    s.envSetupVm e = .ok (s, false) ∨
    ∃ s' g, s.envSetupVm e = .ok (s', true) ∧ Edited managed (.attach e g) s.memory s'.memory := by
  obtain ⟨⟨free, inv⟩, bounded⟩ := ready
  cases free with
  | nil =>
    refine .inl ?_
    have full : s.vm.pageAlloc true = .ok (s.vm, none) := Pmap.pageAlloc_nil inv true
    rw [envSetupVm, full]
    rfl
  | cons p rest =>
    have member := inv.balanced.freeManaged p List.mem_cons_self
    have bound : p < s.vm.npages := inv.bound p member
    have number : pgnum (page2pa p) = p := pgnum_page2pa (inv.small member)
    have took : s.vm.pageAlloc true = .ok (s.vm.taken p true, some p) := Pmap.pageAlloc_cons inv true
    let s₁ : Kernel := { s with vm := s.vm.withDir p }
    let s₂ : Kernel := s₁.setTable (s₁.setEnv e { s.envs e with envPgdir := some p })
    have kva : ((s.vm.taken p true).setPage p { (s.vm.taken p true).pages p with
        ppRef := ((s.vm.taken p true).pages p).ppRef + 1 }).kaddr (page2pa p) = .ok p := by
      rw [Pmap.kaddr_ok (by rw [number]; exact bound), number]
    have done : s.envSetupVm e = .ok (s₂, true) := by
      rw [envSetupVm, took]
      simp only [liftVm, bind, Except.bind, kva, readVm]
      rfl
    have dirs : s₂.dirs = update s.dirs e (some p) := dirs_setEnv s.toTable e _
    refine .inr ⟨s₂, p, done, ?_⟩
    rw [show s₂.memory = ⟨s.vm.withDir p, update s.dirs e (some p)⟩ from congrArg _ dirs]
    exact attach_edited inv bounded vacant

theorem envAlloc_memory (parentId : Word) (ready : s.Ready managed)
    (vacant : ∀ e, s.envFreeList = some e → s.dirs e = none)
    (ok : ∀ e g, s.envFreeList = some e → allowed s.memory (.attach e g)) :
    Ends (s.envAlloc parentId) (fun _ => False) fun r => Moves managed allowed s.memory r.1.memory := by
  unfold envAlloc
  split
  · exact .refl _
  next e head =>
    rcases envSetupVm_memory ready (vacant e head) with full | ⟨s', g, done, edited⟩
    · exact Ends.bind_ok full (.refl _)
    · refine Ends.bind_ok done ?_
      have dirs : (s'.setEnv e (freshEnv (s'.envs e) e parentId)).dirs = s'.dirs :=
        dirs_setEnv_self s'.toTable e _ rfl
      show Moves managed allowed s.memory ⟨s'.vm, (s'.setEnv e (freshEnv (s'.envs e) e parentId)).dirs⟩
      rw [dirs]
      exact .one (ok e g head) edited

theorem envFree_memory {g : Nat} (ready : s.Ready managed) (own : s.dirs e = some g) :
    ∃ s', s.envFree e = .ok s' ∧ s'.toTable = s.release e ∧
    Edited managed (.close e) s.memory s'.memory := by
  obtain ⟨vm', freed, edited⟩ := close_edited ready own
  have freed : s.vm.freeSpace g = .ok vm' := freed
  refine ⟨{ s with vm := vm', toTable := s.release e }, ?_, rfl, ?_⟩
  · rw [envFree, pgdir_ok own]
    simp only [bind, Except.bind, freed, updateVm]
    rfl
  · have dirs : (s.release e).dirs = update s.dirs e none := dirs_setEnv s.toTable e _
    show Edited managed (.close e) s.memory ⟨vm', (s.release e).dirs⟩
    rw [dirs]
    exact edited

theorem envRun_memory (c : Nat) (e : Slot) :
    (s.envRun c e).Leaves (s.dirs e = none) fun s' => s'.memory = s.memory := by
  have dirs : ((s.yieldCpu c).runOn c e).dirs = s.dirs :=
    (runOn_dirs (s.yieldCpu c) c e).trans (yieldCpu_dirs s.toTable c)
  unfold envRun
  dsimp only
  split
  next absent => exact (congrFun dirs e).symm.trans absent
  · exact congrArg (Memory.mk s.vm) dirs

theorem schedHalt_memory (c : Nat) {null : Prop} :
    (s.schedHalt c).Leaves null fun s' => s'.memory = s.memory := by
  unfold schedHalt
  split <;> exact rfl

theorem schedYield_memory (c : Nat) :
    (s.schedYield c).Leaves (¬s.Rooted) fun s' => s'.memory = s.memory := by
  have unrooted : ∀ {e status}, s.status e = status → status ≠ .free → s.dirs e = none → ¬s.Rooted :=
    fun same live absent rooted => rooted _ (same ▸ live) absent
  unfold schedYield
  dsimp only
  split
  next e chosen =>
    have runnable := nextRunnable_status s chosen
    exact (envRun_memory c e).mono (unrooted runnable (by decide)) fun _ => id
  next idle _ current =>
    split
    next running => exact (envRun_memory c idle).mono (unrooted running (by decide)) fun _ => id
    · exact schedHalt_memory c
  · exact schedHalt_memory c

theorem pgdir_error (absent : s.dirs e = none) : s.pgdir e = .error (.panic .nullPgdir s) := by
  unfold pgdir
  rw [show (s.envs e).envPgdir = none from absent]

theorem envDestroy_memory (c : Nat) (ready : s.Ready managed) (ok : allowed s.memory (.close e)) :
    Ends (s.envDestroy c e)
      (Exit.Leaves (¬s.Calm e) fun s' => Moves managed allowed s.memory s'.memory)
      fun s' => Moves managed allowed s.memory s'.memory := by
  unfold envDestroy
  split
  · show Moves managed allowed s.memory ⟨s.vm, (s.setStatus e .dying).dirs⟩
    rw [dirs_setStatus]
    exact .refl _
  · cases own : s.dirs e with
    | none =>
      rw [envFree, pgdir_error own]
      exact fun calm => calm.2 own
    | some g =>
      obtain ⟨s', freed, table, edited⟩ := envFree_memory ready own
      refine Ends.bind_ok freed ?_
      have closed : Moves managed allowed s.memory s'.memory := .one ok edited
      split
      · let s'' := s'.setTable (s'.setCpu c { s'.cpus c with cpuEnv := none })
        have yields := schedYield_memory (s := s'') c
        refine Exit.Leaves.mono yields (fun unrooted calm => ?_) fun s₃ same => ?_
        · have after : s'.Rooted := table ▸ calm.1.release e
          exact unrooted after
        · rw [show s₃.memory = s'.memory from same]
          exact closed
      · exact closed

section Calls

variable {cur : Slot}

theorem Calm.found {envid : Word} {checkperm : Bool} (calm : s.Calm cur)
    (found : s.envid2env cur envid checkperm = some e) : s.dirs e ≠ none := by
  rcases envid2env_live found with rfl | live
  · exact calm.2
  · exact calm.1 e live

theorem pgdir_found {envid : Word} {checkperm : Bool} {P : Kernel → Prop}
    (found : s.envid2env cur envid checkperm = some e) (s' : Kernel) (dirs : s'.dirs = s.dirs) :
    Ends (s'.pgdir e) (Exit.Leaves (¬s.Calm cur) P) fun g => s.dirs e = some g := by
  cases own : s.dirs e with
  | none =>
    rw [pgdir_error (by rw [dirs, own])]
    exact fun calm => calm.found found own
  | some g =>
    rw [pgdir_ok (by rw [dirs, own])]
    rfl

theorem permOk_low {perm : Word} (ok : permOk perm = true) : perm.toNat < 2 ^ 12 := by
  simp only [permOk, Bool.and_eq_true, decide_eq_true_eq] at ok
  exact perm_low ok.2

theorem vaOk_user {va : Word} (ok : vaOk va = true) : va < utop := by
  simp only [vaOk, Bool.and_eq_true, decide_eq_true_eq] at ok
  exact ok.1

theorem sysExofork_memory (cur : Slot) (ready : s.Ready managed)
    (vacant : ∀ e, s.envFreeList = some e → s.dirs e = none)
    (ok : ∀ e g, s.envFreeList = some e → allowed s.memory (.attach e g)) :
    Ends (s.sysExofork cur) (fun _ => False) fun r => Moves managed allowed s.memory r.1.memory := by
  refine Ends.bind (envAlloc_memory _ ready vacant ok) fun r moves => ?_
  rcases r with ⟨s₁, err | e⟩
  · exact moves
  · show Moves managed allowed s.memory ⟨s₁.vm, (s₁.toTable.forked e cur).dirs⟩
    rw [forked, dirs_setTf, dirs_setStatus]
    exact moves

theorem sysPageUnmap_memory (cur : Slot) (envid va : Word) (ready : s.Ready managed)
    (ok : ∀ e, s.envid2env cur envid true = some e → allowed s.memory (.unmap e (pdx va) (ptx va))) :
    Ends (s.sysPageUnmap cur envid va)
      (Exit.Leaves (¬s.Calm cur) fun s' => Moves managed allowed s.memory s'.memory)
      fun r => Moves managed allowed s.memory r.1.memory := by
  unfold sysPageUnmap
  split
  · exact .refl _
  next e found =>
    split
    · exact .refl _
    next valid =>
      refine Ends.bind (pgdir_found found s rfl) fun g own => ?_
      obtain ⟨vm', removed, edited⟩ := unmap_edited ready own (vaOk_user (by simpa using valid))
      exact Ends.bind_ok (updateVm_ok s removed) (.one (ok e found) edited)

theorem sysPageAlloc_memory (cur : Slot) (envid va perm : Word) (ready : s.Ready managed)
    (keep : allowed s.memory .keep) (ok : ∀ e pp, s.envid2env cur envid true = some e → vaOk va →
    permOk perm →
      allowed s.memory (.fresh e (pdx va) (ptx va) pp perm)) :
    Ends (s.sysPageAlloc cur envid va perm)
      (Exit.Leaves (¬s.Calm cur) fun s' => Moves managed allowed s.memory s'.memory)
      fun r => Moves managed allowed s.memory r.1.memory := by
  obtain ⟨⟨free, inv⟩, bounded⟩ := ready
  unfold sysPageAlloc
  split
  · exact .refl _
  next e found =>
    split
    · exact .refl _
    next valid =>
      obtain ⟨addr, perms⟩ : vaOk va = true ∧ permOk perm = true := by simpa using valid
      cases free with
      | nil => exact Ends.bind_ok (liftVm_ok s (Pmap.pageAlloc_nil inv true)) (.refl _)
      | cons p rest =>
        let s₁ : Kernel := { s with vm := s.vm.taken p true }
        refine Ends.bind_ok (liftVm_ok s (Pmap.pageAlloc_cons inv true)) ?_
        refine Ends.bind (pgdir_found found s₁ rfl) fun g own => ?_
        rcases fresh_edited true inv bounded own (vaOk_user addr) (permOk_low perms) with
          ⟨failed, vm', freed, edited⟩ | ⟨vm', done, edited⟩
        · refine Ends.bind_ok (liftVm_ok s₁ failed) (Ends.bind_ok (updateVm_ok s₁ freed) ?_)
          exact .one keep edited
        · exact Ends.bind_ok (liftVm_ok s₁ done) (.one (ok e p found addr perms) edited)

theorem sysPageMap_memory (cur : Slot) (srcenvid srcva dstenvid dstva perm : Word)
    (ready : s.Ready managed) (ok : ∀ src dst pp, s.envid2env cur srcenvid true = some src →
    s.envid2env cur dstenvid true = some dst →
      vaOk srcva → vaOk dstva → permOk perm → pteTarget (s.memory.pte src (pdx srcva) (ptx srcva)) =
      some pp →
      allowed s.memory (.copy dst (pdx dstva) (ptx dstva) pp perm src (pdx srcva) (ptx srcva))) :
    Ends (s.sysPageMap cur srcenvid srcva dstenvid dstva perm)
      (Exit.Leaves (¬s.Calm cur) fun s' => Moves managed allowed s.memory s'.memory)
      fun r => Moves managed allowed s.memory r.1.memory := by
  unfold sysPageMap
  split
  next src dst foundSrc foundDst =>
    split
    · exact .refl _
    next valid =>
      obtain ⟨⟨srcOk, dstOk⟩, perms⟩ : (vaOk srcva = true ∧ vaOk dstva = true) ∧ permOk perm = true := by
        simpa using valid
      refine Ends.bind (pgdir_found foundSrc s rfl) fun g own => ?_
      rcases lookup_ok ready.1 own (vaOk_user srcOk) with ⟨looked, -⟩ | ⟨pp, pte, looked, mapped, word⟩
      · exact Ends.bind_ok (readVm_ok s looked) (.refl _)
      · refine Ends.bind_ok (readVm_ok s looked) ?_
        dsimp only
        split
        · exact .refl _
        next writable =>
          refine Ends.bind (pgdir_found foundDst s rfl) fun g' own' => ?_
          have writable : perm &&& pteW ≠ 0 → s.memory.pte src (pdx srcva) (ptx srcva) &&& pteW ≠ 0 :=
            fun wants none => writable ⟨(congrArg (· &&& pteW) word).trans none, wants⟩
          rcases copy_edited ready own' (vaOk_user dstOk) (permOk_low perms) mapped writable with
            failed | ⟨vm', done, edited⟩
          · exact Ends.bind_ok (liftVm_ok s failed) (.refl _)
          · exact Ends.bind_ok (liftVm_ok s done)
              (.one (ok src dst pp foundSrc foundDst srcOk dstOk perms mapped) edited)
  · exact .refl _

theorem deliver_memory (s : Kernel) (cur e : Slot) (value perm : Word) :
    (s.deliver cur e value perm).memory = s.memory :=
  congrArg (Memory.mk s.vm) (dirs_setEnv_self s.toTable e _ rfl)

theorem sysIpcTrySend_memory (cur : Slot) (envid value srcva perm : Word) (ready : s.Ready managed)
    (ok : ∀ e pp, s.envid2env cur envid false = some e → (s.envs e).envIpcRecving = true →
      srcva < utop → (s.envs e).envIpcDstva < utop → permOk perm →
      pteTarget (s.memory.pte cur (pdx srcva) (ptx srcva)) = some pp →
      allowed s.memory (.copy e (pdx (s.envs e).envIpcDstva) (ptx (s.envs e).envIpcDstva) pp perm
        cur (pdx srcva) (ptx srcva))) :
    Ends (s.sysIpcTrySend cur envid value srcva perm)
      (Exit.Leaves (¬s.Calm cur) fun s' => Moves managed allowed s.memory s'.memory)
      fun r => Moves managed allowed s.memory r.1.memory := by
  have delivered : ∀ s' : Kernel, Moves managed allowed s.memory s'.memory → ∀ e perm,
      Moves managed allowed s.memory (s'.deliver cur e value perm).memory :=
    fun s' moves e perm => (deliver_memory s' cur e value perm).symm ▸ moves
  unfold sysIpcTrySend
  split
  · exact .refl _
  next e found =>
    split
    · exact .refl _
    next waiting =>
      split
      next user =>
        split
        · exact .refl _
        next valid =>
          obtain ⟨-, perms⟩ : pgoff srcva = 0 ∧ permOk perm = true := by simpa using valid
          have self : s.envid2env cur 0 false = some cur := by simp [envid2env]
          refine Ends.bind (pgdir_found self s rfl) fun g own => ?_
          rcases lookup_ok ready.1 own user with ⟨looked, -⟩ | ⟨pp, pte, looked, mapped, word⟩
          · exact Ends.bind_ok (readVm_ok s looked) (.refl _)
          · refine Ends.bind_ok (readVm_ok s looked) ?_
            dsimp only
            split
            · exact .refl _
            next writable =>
              have writable : perm &&& pteW ≠ 0 → s.memory.pte cur (pdx srcva) (ptx srcva) &&& pteW ≠ 0 :=
                fun wants none => writable ⟨wants, (congrArg (· &&& pteW) word).trans none⟩
              split
              next wanted =>
                refine Ends.bind (pgdir_found found s rfl) fun g' own' => ?_
                rcases copy_edited ready own' wanted (permOk_low perms) mapped writable with
                  failed | ⟨vm', done, edited⟩
                · exact Ends.bind_ok (liftVm_ok s failed) (.refl _)
                · refine Ends.bind_ok (liftVm_ok s done) (delivered _ (.one ?_ edited) e perm)
                  exact ok e pp found (by simpa using waiting) user wanted perms mapped
              · exact delivered s (.refl _) e _
      · exact delivered s (.refl _) e 0

theorem sysIpcRecv_memory (c : Nat) (cur : Slot) (dstva : Word) :
    Ends (s.sysIpcRecv c cur dstva) (Exit.Leaves (¬s.Calm cur) fun s' => s'.memory = s.memory)
      fun r => r.1.memory = s.memory := by
  unfold sysIpcRecv
  split
  · rfl
  · let waiting : Env :=
      { s.envs cur with envIpcDstva := dstva, envIpcRecving := true, envStatus := .notRunnable }
    let s' := s.setTable (s.setEnv cur waiting)
    have dirs : s'.dirs = s.dirs := dirs_setEnv_self s.toTable cur waiting rfl
    have rooted : s.Calm cur → s'.Rooted := by
      intro calm e live
      rw [dirs]
      by_cases same : e = cur
      · exact same ▸ calm.2
      · have status : s'.status e = s.status e := by simp [s', setTable, status, setEnv, same]
        exact calm.1 e (status ▸ live)
    refine Exit.Leaves.mono (schedYield_memory (s := s') c) (mt rooted) fun s'' same => ?_
    exact same.trans (congrArg (Memory.mk s.vm) dirs)

end Calls

end Kernel

end Jos.Kern
