import Jos.Kern.Table

namespace Jos.Kern.Kernel

open Jos.Shared Table

variable {α : Type} {P : Table → Prop} {E : Exit → Prop} [Exit.Lax E] (s : Kernel)

section Quiet

theorem panic_ends {Q : α → Prop} (why : Panic) :
    Ends (.error (.panic why s) : Except Exit α) E Q := Exit.Lax.panic why s

theorem liftVm_quiet (result : Except Panic (Pmap × α)) : Ends (s.liftVm result) E fun x =>
    x.1.toTable = s.toTable := by
  cases result with
  | ok pair => exact rfl
  | error why => exact panic_ends s why

theorem updateVm_quiet (result : Except Panic Pmap) : Ends (s.updateVm result) E fun s' =>
    s'.toTable = s.toTable := by
  cases result with
  | ok vm => exact rfl
  | error why => exact panic_ends s why

theorem readVm_quiet (result : Except Panic α) : Ends (s.readVm result) E fun value =>
    result = .ok value := by
  cases result with
  | ok value => exact rfl
  | error why => exact panic_ends s why

theorem pgdir_quiet (e : Slot) : Ends (s.pgdir e) E fun g => (s.envs e).envPgdir = some g := by
  unfold pgdir
  cases own : (s.envs e).envPgdir with
  | none => exact panic_ends s _
  | some g => exact rfl

theorem loadWords_reads (cur : Slot) (va : Word) (count : Nat) :
    Ends (s.loadWords cur va count) E fun x => x.1.toTable = s.toTable ∧ x.1.vm = s.vm := by
  refine Ends.bind (pgdir_quiet _ cur) fun g _ => ?_
  exact Ends.bind (readVm_quiet _ _) fun words _ => ⟨rfl, rfl⟩

theorem loadByte_reads (cur : Slot) (va : Word) :
    Ends (s.loadByte cur va) E fun x => x.1.toTable = s.toTable ∧ x.1.vm = s.vm := by
  refine Ends.bind (pgdir_quiet _ cur) fun g _ => ?_
  exact Ends.bind (readVm_quiet _ _) fun byte _ => ⟨rfl, rfl⟩

theorem scanString_reads (cur : Slot) (va : Word) (limit : Option Nat) (fuel : Nat) :
    Ends (s.scanString cur va limit fuel) E fun s' => s'.toTable = s.toTable ∧ s'.vm = s.vm := by
  induction fuel generalizing s va limit with
  | zero => exact panic_ends s _
  | succ fuel ih =>
    refine Ends.bind (loadByte_reads s cur va) fun x same => ?_
    dsimp only
    split
    · exact same
    · exact same.1 ▸ same.2 ▸ ih x.1 (va + 1) (limit.map (· - 1))

theorem e1000Transmit_reads (cur : Slot) (data : Word) (len : BitVec 16) :
    Ends (s.e1000Transmit cur data len) E fun x => x.1.toTable = s.toTable ∧ x.1.vm = s.vm := by
  unfold e1000Transmit
  dsimp only
  split
  · exact ⟨rfl, rfl⟩
  split
  · exact ⟨rfl, rfl⟩
  refine Ends.bind (pgdir_quiet s cur) fun g _ => ?_
  refine Ends.bind (readVm_quiet s _) fun walked _ => ?_
  rcases walked with ⟨vm, ptr | ptr⟩
  · exact Ends.bind (readVm_quiet s _) fun _ _ => ⟨rfl, rfl⟩
  · exact ⟨rfl, rfl⟩

theorem loadWords_quiet (cur : Slot) (va : Word) (count : Nat) :
    Ends (s.loadWords cur va count) E fun x => x.1.toTable = s.toTable :=
  (loadWords_reads s cur va count).mono (fun _ => id) fun _ => And.left

theorem scanString_quiet (cur : Slot) (va : Word) (limit : Option Nat) (fuel : Nat) :
    Ends (s.scanString cur va limit fuel) E fun s' => s'.toTable = s.toTable :=
  (scanString_reads s cur va limit fuel).mono (fun _ => id) fun _ => And.left

theorem storeBytes_quiet (cur : Slot) (va : Word) (bytes : List Byte) :
    Ends (s.storeBytes cur va bytes) E fun s' => s'.toTable = s.toTable := by
  refine Ends.bind (pgdir_quiet _ cur) fun g _ => ?_
  exact updateVm_quiet _ _

theorem e1000Receive_quiet (cur : Slot) (bufIdx : Word) :
    Ends (s.e1000Receive cur bufIdx) E fun x => x.1.toTable = s.toTable := by
  unfold e1000Receive
  dsimp only
  split
  · exact rfl
  · exact Ends.bind (storeBytes_quiet s cur bufIdx _) fun _ same => same

theorem sysPageAlloc_quiet (cur : Slot) (envid va perm : Word) :
    Ends (s.sysPageAlloc cur envid va perm) E fun x => x.1.toTable = s.toTable := by
  unfold sysPageAlloc
  split
  · exact rfl
  split
  · exact rfl
  refine Ends.bind (liftVm_quiet s _) fun x same => ?_
  rcases x with ⟨s₁, page | page⟩
  · exact same
  refine Ends.bind (pgdir_quiet s₁ _) fun g _ => ?_
  refine Ends.bind (liftVm_quiet s₁ _) fun y same' => ?_
  rcases y with ⟨s₂, done | done⟩
  · exact Ends.bind (updateVm_quiet s₂ _) fun s₃ same'' => same''.trans (same'.trans same)
  · exact same'.trans same

theorem sysPageMap_quiet (cur : Slot) (srcenvid srcva dstenvid dstva perm : Word) :
    Ends (s.sysPageMap cur srcenvid srcva dstenvid dstva perm) E
      fun x => x.1.toTable = s.toTable := by
  unfold sysPageMap
  split
  · split
    · exact rfl
    refine Ends.bind (pgdir_quiet s _) fun g _ => ?_
    refine Ends.bind (readVm_quiet s _) fun looked _ => ?_
    rcases looked with - | ⟨page, pte⟩
    · exact rfl
    dsimp only
    split
    · exact rfl
    refine Ends.bind (pgdir_quiet s _) fun g' _ => ?_
    refine Ends.bind (liftVm_quiet s _) fun y same => ?_
    rcases y with ⟨s₂, done | done⟩ <;> exact same
  · exact rfl

theorem sysPageUnmap_quiet (cur : Slot) (envid va : Word) :
    Ends (s.sysPageUnmap cur envid va) E fun x => x.1.toTable = s.toTable := by
  unfold sysPageUnmap
  split
  · exact rfl
  split
  · exact rfl
  refine Ends.bind (pgdir_quiet s _) fun g _ => ?_
  exact Ends.bind (updateVm_quiet s _) fun _ same => same

end Quiet

section Envs

theorem setEnv_twice (t : Table) (e : Slot) (env env' : Env) :
    (t.setEnv e env).setEnv e env' = t.setEnv e env' := by
  simp [setEnv]

theorem envs_setEnv_self (t : Table) (e : Slot) (env : Env) : (t.setEnv e env).envs e = env := by
  simp [setEnv]

theorem envSetupVm_table (e : Slot) :
    Ends (s.envSetupVm e) E fun x =>
      (x.2 = false ∧ x.1.toTable = s.toTable) ∨
      (x.2 = true ∧ ∃ g, x.1.toTable = s.setEnv e { s.envs e with envPgdir := some g }) := by
  refine Ends.bind (liftVm_quiet s _) fun x same => ?_
  rcases x with ⟨s₁, page | page⟩
  · exact .inl ⟨rfl, same⟩
  · refine Ends.bind (readVm_quiet s₁ _) fun kva _ => .inr ⟨rfl, kva, ?_⟩
    change s₁.toTable.setEnv e { s₁.toTable.envs e with envPgdir := some kva } = _
    rw [same]

theorem envAlloc_table (parentId : Word) :
    Ends (s.envAlloc parentId) E fun x =>
      (∃ err, x.2 = .error err ∧ x.1.toTable = s.toTable) ∨
      (∃ e g, x.2 = .ok e ∧ s.envFreeList = some e ∧
      x.1.toTable = s.toTable.act (.alloc e g parentId)) := by
  unfold envAlloc
  cases head : s.envFreeList with
  | none => exact .inl ⟨_, rfl, rfl⟩
  | some e =>
    refine Ends.bind (envSetupVm_table s e) fun x effect => ?_
    rcases x with ⟨s₁, done⟩
    rcases effect with ⟨rfl, same⟩ | ⟨rfl, g, table⟩
    · exact .inl ⟨_, rfl, same⟩
    · refine .inr ⟨e, g, rfl, rfl, ?_⟩
      change ({ s₁.toTable.setEnv e (freshEnv (s₁.toTable.envs e) e parentId) with
        envFreeList :=
          ((s₁.toTable.setEnv e (freshEnv (s₁.toTable.envs e) e parentId)).envs e).envLink } :
          Table) = _
      change s₁.toTable = _ at table
      rw [table, setEnv_twice, envs_setEnv_self, envs_setEnv_self]
      rfl

theorem envFree_table (e : Slot) :
    Ends (s.envFree e) E fun s' =>
      (s.envs e).envPgdir ≠ none ∧ s'.toTable = s.toTable.act (.free e) := by
  refine Ends.bind (pgdir_quiet s e) fun g own => ?_
  refine Ends.bind (updateVm_quiet s _) fun s₁ same => ?_
  exact ⟨by simp [own], congrArg (fun t => Table.release t e) same⟩

theorem yieldCpu_pgdir (t : Table) (c : Nat) (e : Slot) :
    ((t.yieldCpu c).envs e).envPgdir = (t.envs e).envPgdir := by
  unfold yieldCpu
  split
  next cur _ =>
    split
    · by_cases same : e = cur <;> simp [Table.setStatus, setEnv, same]
    · rfl
  · rfl

theorem envRun_lands (c : Nat) (e : Slot)
    (lands : (s.envs e).envPgdir ≠ none → P (s.toTable.act (.run c e))) : (s.envRun c e).Lands P := by
  unfold envRun
  dsimp only
  split
  · trivial
  next g own =>
    refine lands fun none => ?_
    have kept := yieldCpu_pgdir s.toTable c e
    simp [setTable, runOn, leave, setCpu, setEnv, kept, none] at own

theorem schedHalt_lands (c : Nat) (halts : P (s.toTable.act (.halt c))) (stops : P s.toTable) :
    (s.schedHalt c).Lands P := by
  unfold schedHalt
  split
  · exact halts
  · exact stops

theorem nextRunnable_status {start : Nat} {e : Slot} (found : s.nextRunnable start = some e) :
    s.status e = .runnable := by
  have holds := List.find?_some found
  simpa using holds

theorem nextRunnable_eq (start : Nat) : s.nextRunnable start = s.firstRunnable start := by
  have order : slots = List.finRange 1024 := by
    unfold slots
    rfl
  unfold nextRunnable Table.firstRunnable firstFrom
  simp only [order, bind_pure_comp, List.map_eq_map, List.map_map]
  rfl

theorem schedYield_yielded (c : Nat) : (s.schedYield c).Lands (s.toTable.Yielded c) := by
  unfold schedYield Table.Yielded Table.choice Table.schedStart
  cases current : s.curenv c with
  | none =>
    dsimp only
    rw [nextRunnable_eq]
    cases found : s.firstRunnable 0 with
    | some e => exact envRun_lands s c e fun own => by simpa using own
    | none => exact schedHalt_lands s c (by simp) (by simp)
  | some idle =>
    dsimp only
    rw [nextRunnable_eq]
    cases found : s.firstRunnable ((envx (s.envs idle).envId).val + 1) with
    | some e => exact envRun_lands s c e fun own => by simpa using own
    | none =>
      dsimp only
      by_cases running : s.status idle = .running
      · rw [if_pos running, Option.none_or, Option.filter_some, decide_eq_true running]
        exact envRun_lands s c idle fun own => ⟨own, rfl⟩
      · rw [if_neg running, Option.none_or, Option.filter_some, decide_eq_false running]
        exact schedHalt_lands s c (.inl rfl) (.inr rfl)

theorem envRun_unlocks (c : Nat) (e : Slot) : (s.envRun c e).Unlocks c s.lock := by
  have before : (s.toTable.yieldCpu c).lock = s.lock := by
    unfold yieldCpu
    split
    · split <;> rfl
    · rfl
  unfold envRun
  dsimp only
  split
  · trivial
  · exact congrArg (fun found => (none, LockOp.release c :: found.2)) before

theorem schedHalt_unlocks (c : Nat) : (s.schedHalt c).Unlocks c s.lock := by
  unfold schedHalt
  split <;> exact rfl

theorem schedYield_unlocks (c : Nat) : (s.schedYield c).Unlocks c s.lock := by
  unfold schedYield
  dsimp only
  split
  next e _ => exact envRun_unlocks s c e
  next idle _ _ =>
    split
    · exact envRun_unlocks s c idle
    · exact schedHalt_unlocks s c
  · exact schedHalt_unlocks s c

theorem schedYield_path (x : Entry) : x.Exits s.toTable (s.schedYield x.c) :=
  ⟨(schedYield_yielded s x.c).mono fun _ => .yield, schedYield_unlocks s x.c⟩

theorem envDestroy_path (x : Entry) (e : Slot) (destroys : x.cur = some e ∨ x.named = some e)
    (same : s.toTable = x.s.toTable) : Ends (s.envDestroy x.c e) (x.Exits s.toTable) fun s' =>
      Path x.Inner s.toTable s'.toTable := by
  unfold envDestroy
  split
  next elsewhere => exact .one (show x.Inner s.toTable (.dying e) from ⟨same, elsewhere, destroys⟩)
  next here =>
    refine Ends.bind (envFree_table s e) fun s' ⟨own, table⟩ => ?_
    have freed : Path x.Inner s.toTable s'.toTable := by
      rw [table]
      exact .one ⟨same, own, here, destroys⟩
    dsimp only
    split
    · have cleared : Path x.Inner s'.toTable (s'.toTable.act (.clear x.c)) := .one rfl
      exact (schedYield_path _ x).after (freed.trans cleared)
    · exact freed

theorem envDestroy_current (x : Entry) (e : Slot) (destroys : x.cur = some e ∨ x.named = some e)
    (same : s.toTable = x.s.toTable) (current : s.curenv x.c = some e) :
    Ends (s.envDestroy x.c e) (x.Exits s.toTable) fun _ => False := by
  have paths := envDestroy_path s x e destroys same
  unfold envDestroy at paths ⊢
  rw [if_neg (fun elsewhere => elsewhere.2 current)] at paths ⊢
  cases freed : s.envFree e with
  | error exit =>
    rw [freed] at paths
    exact paths
  | ok s' =>
    have table := envFree_table (E := Exit.Lands fun _ => True) s e
    rw [freed] at paths table
    have still : s'.curenv x.c = some e := by
      rw [show s'.toTable = _ from table.2]
      exact current
    simp only [bind, Except.bind, if_pos still] at paths ⊢
    exact paths

theorem userMemAssert_path (x : Entry) (e : Slot) (va len perm : Word)
    (destroys : x.cur = some e ∨ x.named = some e) (same : s.toTable = x.s.toTable) :
    Ends (s.userMemAssert x.c e va len perm) (x.Exits s.toTable) fun s' =>
      Path x.Inner s.toTable s'.toTable := by
  refine Ends.bind (pgdir_quiet s e) fun g _ => ?_
  refine Ends.bind (readVm_quiet s _) fun ok _ => ?_
  dsimp only
  split
  · exact .refl s.toTable
  · exact envDestroy_path (s.note _) x e destroys same

theorem userMemAssert_current (x : Entry) (e : Slot) (va len perm : Word)
    (destroys : x.cur = some e ∨ x.named = some e) (same : s.toTable = x.s.toTable)
    (current : s.curenv x.c = some e) :
    Ends (s.userMemAssert x.c e va len perm) (x.Exits s.toTable) fun s' =>
      s'.toTable = s.toTable := by
  refine Ends.bind (pgdir_quiet s e) fun g _ => ?_
  refine Ends.bind (readVm_quiet s _) fun ok _ => ?_
  dsimp only
  split
  · exact rfl
  · exact (envDestroy_current (s.note _) x e destroys same current).mono (fun _ => id) fun _ => False.elim

end Envs

section Calls

theorem controls_of_found {x : Entry} {cur e : Slot} {envid : Word} (here : x.cur = some cur)
    (found : x.s.envid2env cur envid true = some e) : x.Controls e := by
  refine ⟨cur, here, ?_⟩
  unfold envid2env at found
  split at found
  · exact .inl (Option.some.inj found).symm
  split at found
  · cases found
  · split at found
    · cases found
    next permitted =>
      obtain rfl := Option.some.inj found
      by_contra foreign
      push Not at foreign
      exact permitted ⟨rfl, foreign.1, foreign.2⟩

variable (x : Entry) (cur : Slot) (no : Word) (a : Args) (here : x.cur = some cur)
  (asked : x.request = .call no a) (current : x.s.curenv x.c = some cur)

include here current

theorem sysCputs_quiet (str len : Word) :
    Ends (x.s.sysCputs x.c cur str len) (x.Exits x.s.toTable) fun s' =>
      s'.toTable = x.s.toTable := by
  refine Ends.bind (userMemAssert_current x.s x cur _ _ _ (.inl here) rfl current) fun s₁ same => ?_
  split
  · exact same
  · exact (scanString_quiet s₁ cur str _ _).mono (fun _ => id) fun _ same' => same'.trans same

theorem sysTryTransmit_quiet (data len : Word) :
    Ends (x.s.sysTryTransmit x.c cur data len) (x.Exits x.s.toTable) fun r =>
      r.1.toTable = x.s.toTable := by
  refine Ends.bind (userMemAssert_current x.s x cur _ _ _ (.inl here) rfl current) fun s₁ same => ?_
  exact (e1000Transmit_reads s₁ cur data _).mono (fun _ => id) fun _ same' => same'.1.trans same

theorem sysGetMacAddr_quiet (addr : Word) :
    Ends (x.s.sysGetMacAddr x.c cur addr) (x.Exits x.s.toTable) fun s' =>
      s'.toTable = x.s.toTable := by
  refine Ends.bind (userMemAssert_current x.s x cur _ _ _ (.inl here) rfl current) fun s₁ same => ?_
  refine Ends.foldlM _ same fun s₂ i _ same' => ?_
  exact (storeBytes_quiet s₂ cur _ _).mono (fun _ => id) fun _ same'' => same''.trans same'

theorem sysDraw_quiet (shape : Word) :
    Ends (x.s.sysDraw x.c cur shape) (x.Exits x.s.toTable) fun r =>
      r.1.toTable = x.s.toTable := by
  refine Ends.bind (userMemAssert_current x.s x cur _ _ _ (.inl here) rfl current) fun s₁ same₁ => ?_
  refine Ends.bind (loadWords_quiet s₁ cur _ _) fun k₂ same₂ => ?_
  dsimp only
  split
  · refine Ends.bind (loadWords_quiet k₂.1 cur _ _) fun k₃ same₃ => ?_
    refine Ends.bind (loadWords_quiet k₃.1 cur _ _) fun k₄ same₄ => ?_
    refine Ends.bind (scanString_quiet k₄.1 cur _ _ _) fun s₅ same₅ => ?_
    exact same₅.trans (same₄.trans (same₃.trans (same₂.trans same₁)))
  · split
    · exact same₂.trans same₁
    · refine Ends.bind (loadWords_quiet k₂.1 cur _ _) fun k₃ same₃ => ?_
      refine Ends.bind (loadWords_quiet k₃.1 cur _ _) fun k₄ same₄ => ?_
      exact same₄.trans (same₃.trans (same₂.trans same₁))

theorem sysMouseGetp_quiet (pkt : Word) (next : Option MousePkt) :
    Ends (x.s.sysMouseGetp x.c cur pkt next) (x.Exits x.s.toTable) fun r =>
      r.1.toTable = x.s.toTable := by
  refine Ends.bind (userMemAssert_current x.s x cur _ _ _ (.inl here) rfl current) fun s₁ same => ?_
  cases next with
  | some m => exact Ends.bind (storeBytes_quiet s₁ cur _ _) fun _ same' => same'.trans same
  | none => exact Ends.bind (storeBytes_quiet s₁ cur _ _) fun _ same' => same'.trans same

include asked

omit current in
theorem sysEnvDestroy_path (number : syscalls[no.toNat]? = some .envDestroy) :
    Ends (x.s.sysEnvDestroy x.c cur a.a1) (x.Exits x.s.toTable) fun r =>
      Path x.Inner x.s.toTable r.1.toTable := by
  unfold sysEnvDestroy
  split
  · exact .refl _
  next e found =>
    have named : x.named = some e := by simp [Entry.named, Entry.calls, here, asked, number, found]
    exact Ends.bind (envDestroy_path x.s x e (.inr named) rfl) fun _ path => path

omit current in
theorem sysExofork_path (number : syscalls[no.toNat]? = some .exofork) :
    Ends (x.s.sysExofork cur) (x.Exits x.s.toTable) fun r =>
      Path x.Inner x.s.toTable r.1.toTable := by
  refine Ends.bind (envAlloc_table x.s _) fun k effect => ?_
  obtain ⟨s₁, outcome⟩ := k
  rcases effect with ⟨err, rfl, same⟩ | ⟨e, g, rfl, head, table⟩
  · exact same ▸ .refl _
  · have allowed : x.Inner x.s.toTable (.fork e g cur) :=
      ⟨rfl, head, a, by simp [Entry.calls, here, asked, number]⟩
    have last : (s₁.toTable.forked e cur) = x.s.toTable.act (.fork e g cur) :=
      congrArg (fun t => Table.forked t e cur) table
    show Path x.Inner x.s.toTable (s₁.toTable.forked e cur)
    rw [last]
    exact .one allowed

omit current in
theorem sysEnvSetStatus_path (number : syscalls[no.toNat]? = some .envSetStatus) :
    Path x.Inner x.s.toTable (x.s.sysEnvSetStatus cur a.a1 a.a2).1.toTable := by
  unfold sysEnvSetStatus
  split
  · exact .refl _
  next status valid =>
    split
    · exact .refl _
    next e found =>
      have allowed : x.Inner x.s.toTable (.setStatus e status) :=
        ⟨rfl, by simp [Entry.statusSet, Entry.calls, here, asked, number, valid, found]⟩
      exact .one allowed

omit current in
theorem sysEnvSetTrapframe_path (number : syscalls[no.toNat]? = some .envSetTrapframe) :
    Ends (x.s.sysEnvSetTrapframe x.c cur a.a1 a.a2) (x.Exits x.s.toTable) fun r =>
      Path x.Inner x.s.toTable r.1.toTable := by
  unfold sysEnvSetTrapframe
  split
  · exact .refl _
  next e found =>
    have named : x.named = some e := by simp [Entry.named, Entry.calls, here, asked, number, found]
    refine Ends.bind (userMemAssert_path x.s x e _ _ _ (.inr named) rfl).with_eq
      fun s₁ ⟨checked, path⟩ => ?_
    refine Ends.bind (loadWords_quiet s₁ cur _ _).with_eq fun k ⟨loaded, same⟩ => ?_
    have called : x.calls .envSetTrapframe = some (cur, a) := by simp [Entry.calls, here, asked, number]
    have copied : x.copiedFrame = some (e, trapframeOf k.2) := by
      rw [Entry.copiedFrame, called]
      simp only [Option.bind_eq_bind, Option.bind_some, found, checked, loaded, Except.toOption]
    have allowed : x.Inner s₁.toTable (.frame e (maskFrame (trapframeOf k.2))) :=
      .inr (.inr ⟨_, copied, rfl⟩)
    have last : (k.1.setTable (k.1.setTf e (maskFrame (trapframeOf k.2)))).toTable =
        s₁.toTable.act (.frame e (maskFrame (trapframeOf k.2))) :=
      congrArg (fun t => Table.setTf t e (maskFrame (trapframeOf k.2))) same
    show Path x.Inner x.s.toTable (k.1.setTable (k.1.setTf e (maskFrame (trapframeOf k.2)))).toTable
    rw [last]
    exact path.trans (.one allowed)

omit current asked in
theorem sysEnvSetPgfaultUpcall_path :
    Path x.Inner x.s.toTable (x.s.sysEnvSetPgfaultUpcall cur a.a1 a.a2).1.toTable := by
  unfold sysEnvSetPgfaultUpcall
  split
  · exact .refl _
  next e found =>
    have allowed : x.Inner x.s.toTable (.edit e (x.s.envs e).envType a.a2 (x.s.envs e).envPriority) :=
      ⟨controls_of_found here found, .inl rfl⟩
    exact .one allowed

omit current in
theorem sysIpcTrySend_path (number : syscalls[no.toNat]? = some .ipcTrySend) :
    Ends (x.s.sysIpcTrySend cur a.a1 a.a2 a.a3 a.a4) (x.Exits x.s.toTable) fun r =>
      Path x.Inner x.s.toTable r.1.toTable := by
  unfold sysIpcTrySend
  split
  · exact .refl _
  next e found =>
    split
    · exact .refl _
    next waiting =>
      have receiver : x.receiver = some e := by
        simp only [Bool.not_eq_false] at waiting
        simp [Entry.receiver, Entry.calls, here, asked, number, found, waiting]
      have allowed : ∀ value perm,
          x.Inner x.s.toTable (.deliver e (x.s.envs cur).envId value perm) :=
        fun _ _ => ⟨rfl, receiver, cur, here, rfl⟩
      split
      · split
        · exact .refl _
        refine Ends.bind (pgdir_quiet x.s _) fun g _ => ?_
        refine Ends.bind (readVm_quiet x.s _) fun looked _ => ?_
        rcases looked with - | ⟨page, pte⟩
        · exact .refl _
        dsimp only
        split
        · exact .refl _
        split
        · refine Ends.bind (pgdir_quiet x.s _) fun g' _ => ?_
          refine Ends.bind (liftVm_quiet x.s _) fun k same => ?_
          rcases k with ⟨s₂, done | done⟩
          · exact same ▸ .refl _
          · have last : (s₂.deliver cur e a.a2 a.a4).toTable =
                x.s.toTable.act (.deliver e (x.s.envs cur).envId a.a2 a.a4) :=
              congrArg (fun t => Table.setEnv t e
                (received (t.envs e) (t.envs cur).envId a.a2 a.a4)) same
            show Path x.Inner x.s.toTable (s₂.deliver cur e a.a2 a.a4).toTable
            rw [last]
            exact .one (allowed _ _)
        · exact .one (allowed _ _)
      · exact .one (allowed _ _)

omit current in
theorem sysIpcRecv_path (number : syscalls[no.toNat]? = some .ipcRecv) :
    Ends (x.s.sysIpcRecv x.c cur a.a1) (x.Exits x.s.toTable) fun r =>
      Path x.Inner x.s.toTable r.1.toTable := by
  unfold sysIpcRecv
  split
  · exact .refl _
  · have called : x.calls .ipcRecv = some (cur, a) := by simp [Entry.calls, here, asked, number]
    have blocked : Path x.Inner x.s.toTable (x.s.toTable.act (.block cur a.a1)) :=
      .one ⟨rfl, a, called, rfl⟩
    exact (schedYield_path _ x).after blocked

omit asked current in
theorem sysChangePriority_path (p : Byte) :
    Path x.Inner x.s.toTable (x.s.sysChangePriority cur p).1.toTable := by
  unfold sysChangePriority
  split
  · exact .refl _
  · have allowed : x.Inner x.s.toTable
        (.edit cur (x.s.envs cur).envType (x.s.envs cur).envPgfaultUpcall p) :=
          ⟨⟨cur, here, .inl rfl⟩, .inl rfl⟩
    exact .one allowed

omit current in
theorem sysEnvSetType_path (number : syscalls[no.toNat]? = some .envSetType) :
    Path x.Inner x.s.toTable (x.s.sysEnvSetType cur a.a1).1.toTable := by
  unfold sysEnvSetType
  split
  · exact .refl _
  next type valid =>
    split
    · exact .refl _
    next unused =>
      have sets : x.typeSet = some (cur, type) := by
        simpa [Entry.typeSet, Entry.calls, here, asked, number, valid] using unused
      have allowed : x.Inner x.s.toTable
          (.edit cur type (x.s.envs cur).envPgfaultUpcall (x.s.envs cur).envPriority) :=
        ⟨⟨cur, here, .inl rfl⟩, .inr ⟨rfl, sets⟩⟩
      exact .one allowed

theorem syscall_path (hw : Inputs) :
    Ends (x.s.syscall x.c cur hw no a) (x.Exits x.s.toTable) fun r =>
      Path x.Inner x.s.toTable r.1.toTable := by
  have quiet : ∀ {r : Except Exit (Kernel × Word)},
      Ends r (x.Exits x.s.toTable) (fun k => k.1.toTable = x.s.toTable) →
      Ends r (x.Exits x.s.toTable) fun k => Path x.Inner x.s.toTable k.1.toTable :=
    fun ends => ends.mono (fun _ => id) fun k same => same ▸ .refl _
  have silent : ∀ {r : Except Exit Kernel},
      Ends r (x.Exits x.s.toTable) (fun s' => s'.toTable = x.s.toTable) →
      Ends (void r) (x.Exits x.s.toTable) fun k => Path x.Inner x.s.toTable k.1.toTable := by
    intro r ends
    cases r with
    | ok s' => exact (show s'.toTable = _ from ends) ▸ .refl _
    | error exit => exact ends
  unfold syscall
  cases number : syscalls[no.toNat]? with
  | none => exact .refl _
  | some call =>
    cases call with
    | cputs => exact silent (sysCputs_quiet x cur here current _ _)
    | cgetc | getenvid | timeMsec | clearScreen | freeRxBuf => exact .refl _
    | envDestroy => exact sysEnvDestroy_path x cur no a here asked number
    | pageAlloc => exact quiet (sysPageAlloc_quiet _ _ _ _ _)
    | pageMap => exact quiet (sysPageMap_quiet _ _ _ _ _ _ _)
    | pageUnmap => exact quiet (sysPageUnmap_quiet _ _ _ _)
    | exofork => exact sysExofork_path x cur no a here asked number
    | envSetStatus => exact sysEnvSetStatus_path x cur no a here asked number
    | envSetTrapframe => exact sysEnvSetTrapframe_path x cur no a here asked number
    | envSetPgfaultUpcall => exact sysEnvSetPgfaultUpcall_path x cur a here
    | yield => exact schedYield_path x.s x
    | ipcTrySend => exact sysIpcTrySend_path x cur no a here asked number
    | ipcRecv => exact sysIpcRecv_path x cur no a here asked number
    | changePriority => exact sysChangePriority_path x cur here _
    | tryTransmit => exact quiet (sysTryTransmit_quiet x cur here current _ _)
    | receive => exact quiet (e1000Receive_quiet _ _ _)
    | envSetType => exact sysEnvSetType_path x cur no a here asked number
    | getMacAddr => exact silent (sysGetMacAddr_quiet x cur here current _)
    | draw => exact quiet (sysDraw_quiet x cur here current _)
    | mouseGetp => exact quiet (sysMouseGetp_quiet x cur here current _ _)

end Calls

section Traps

def requestOf (tf : Trapframe) (hw : Inputs) : Request :=
  match trapKind tf.tfTrapno with
  | .pageFault => .fault
  | .syscall => .call tf.tfRegs.regEax
      ⟨tf.tfRegs.regEdx, tf.tfRegs.regEcx, tf.tfRegs.regEbx, tf.tfRegs.regEdi, tf.tfRegs.regEsi⟩
  | .e1000 => .interrupt hw.icr
  | .breakpoint | .spurious | .timer | .device | .other => .other

def entryLocked (s : Kernel) (c : Nat) (tf : Trapframe) (hw : Inputs) : Entry :=
  if tf.fromUser then
    match s.curenv c with
    | none => ⟨s, c, none, .other⟩
    | some cur =>
      if s.status cur = .dying then ⟨s, c, some cur, .other⟩
      else ⟨s.setTable (s.setTf cur tf), c, some cur, requestOf tf hw⟩
  else
    ⟨s, c, none, requestOf tf hw⟩

def entry (s : Kernel) (c : Nat) (tf : Trapframe) (hw : Inputs) : Entry := (s.enter c).entryLocked c tf hw

theorem wake_path (x : Entry) (t : Table) (woken : Option Slot)
    (wakes : ∀ e, woken = some e → e ∈ x.woken)
    (early : t = x.s.toTable ∨ ∃ other, t = x.s.toTable.setStatus other .runnable) :
    Path x.Inner t (wake t woken) := by
  cases woken with
  | none => exact .refl t
  | some e => exact .one (show x.Inner t (.wake e) from ⟨wakes e rfl, early⟩)

theorem e1000Intr_path (x : Entry) (icr : Word) (asked : x.request = .interrupt icr) :
    Path x.Inner x.s.toTable (x.s.e1000Intr icr).toTable := by
  have table : (x.s.e1000Intr icr).toTable = wake (wake x.s.toTable (wokenBy x.s.helpers.1 icr icrTXDW))
    (wokenBy x.s.helpers.2 icr icrRXT0) := rfl
  rw [table]
  refine (wake_path x _ _ (fun e woken => ?_) (.inl rfl)).trans (wake_path x _ _ (fun e woken => ?_) ?_)
  · simp [Entry.woken, asked, woken]
  · simp [Entry.woken, asked, woken]
  · cases wokenBy x.s.helpers.1 icr icrTXDW with
    | none => exact .inl rfl
    | some other => exact .inr ⟨other, rfl⟩

theorem pageFaultHandler_path (x : Entry) (cur : Slot) (faultVa : Word) (here : x.cur = some cur)
    (asked : x.request = .fault) (current : x.s.curenv x.c = some cur) :
    Ends (x.s.pageFaultHandler x.c cur faultVa) (x.Exits x.s.toTable) fun _ => False := by
  unfold pageFaultHandler
  dsimp only
  split
  · refine Ends.bind (userMemAssert_current x.s x cur _ _ _ (.inl here) rfl current) fun s₁ same₁ => ?_
    refine Ends.bind (storeBytes_quiet s₁ cur _ _) fun s₂ same₂ => ?_
    have same : s₂.toTable = x.s.toTable := same₂.trans same₁
    let tf := { (s₂.envs cur).envTf with
      tfEip := (s₂.envs cur).envPgfaultUpcall, tfEsp := faultFrame (x.s.envs cur).envTf.tfEsp }
    have framed : Path x.Inner s₂.toTable (s₂.toTable.act (.frame cur tf)) :=
      .one (.inr (.inl ⟨here, asked, _, _, rfl⟩))
    have resumes : ((s₂.toTable.act (.frame cur tf)).envs cur).envPgdir ≠ none →
        x.Cause (s₂.toTable.act (.frame cur tf)) (.run x.c cur) := by
      refine fun own => ⟨rfl, own, .inr ⟨?_, .inr ⟨asked, here, ?_⟩⟩⟩
      · rw [same]
        exact current
      · rw [same]
        simp [act, setTf, setEnv, Table.status]
    have start : Path x.Inner x.s.toTable s₂.toTable := by
      rw [same]
      exact .refl _
    refine Entry.Exits.after ⟨envRun_lands _ x.c cur fun own => .resume (resumes own) ?_,
      envRun_unlocks _ x.c cur⟩ (start.trans framed)
    rw [same]
    exact current
  · exact envDestroy_current x.s x cur (.inl here) rfl current

theorem dispatchUser_path (x : Entry) (cur : Slot) (hw : Inputs) (here : x.cur = some cur)
    (asked : x.request = requestOf (x.s.envs cur).envTf hw) (current : x.s.curenv x.c = some cur) :
    Ends (x.s.dispatchUser x.c cur hw) (x.Exits x.s.toTable) fun s' =>
      Path x.Inner x.s.toTable s'.toTable := by
  unfold dispatchUser
  unfold requestOf at asked
  dsimp only
  cases kind : trapKind (x.s.envs cur).envTf.tfTrapno with
  | pageFault =>
    rw [kind] at asked
    exact (pageFaultHandler_path x cur _ here asked current).mono (fun _ => id) fun _ => False.elim
  | syscall =>
    rw [kind] at asked
    refine Ends.bind (syscall_path x cur _ _ here asked current hw) fun r path => ?_
    exact path.trans (.one (a := .frame cur _) (.inl ⟨here, r.2, rfl⟩))
  | timer => exact schedYield_path x.s x
  | e1000 =>
    rw [kind] at asked
    exact e1000Intr_path x hw.icr asked
  | breakpoint | spurious | device => exact .refl _
  | other =>
    exact (envDestroy_current x.s x cur (.inl here) rfl current).mono (fun _ => id) fun _ => False.elim

theorem dispatchKernel_path (x : Entry) (tf : Trapframe) (hw : Inputs)
    (asked : x.request = requestOf tf hw) :
    Ends (x.s.dispatchKernel x.c tf hw) (x.Exits x.s.toTable) fun s' =>
      Path x.Inner x.s.toTable s'.toTable := by
  unfold dispatchKernel
  unfold requestOf at asked
  cases kind : trapKind tf.tfTrapno with
  | timer => exact schedYield_path x.s x
  | e1000 =>
    rw [kind] at asked
    exact e1000Intr_path x hw.icr asked
  | breakpoint | spurious | device => exact .refl _
  | pageFault | syscall | other => trivial

theorem trapReturn_path (x : Entry) : x.Exits s.toTable (s.trapReturn x.c) := by
  unfold trapReturn
  split
  next cur current =>
    split
    next running =>
      exact ⟨envRun_lands s x.c cur fun own => .resume ⟨rfl, own, .inr ⟨current, .inl running⟩⟩
        current, envRun_unlocks s x.c cur⟩
    · exact schedYield_path s x
  · exact schedYield_path s x

theorem finish_path (x : Entry) {result : Except Exit Kernel}
    (ends : Ends result (x.Exits x.s.toTable) fun s' => Path x.Inner x.s.toTable s'.toTable) :
    x.Exits x.s.toTable (finish x.c result) := by
  cases result with
  | ok s' => exact (trapReturn_path s' x).after ends
  | error exit => exact ends

theorem trapLocked_path (c : Nat) (tf : Trapframe) (hw : Inputs) :
    (s.entryLocked c tf hw).Exits (s.entryLocked c tf hw).s.toTable (s.trapLocked c tf hw) := by
  unfold trapLocked entryLocked
  split
  · cases current : s.curenv c with
    | none => exact ⟨trivial, trivial⟩
    | some cur =>
      dsimp only
      split
      next zombie =>
        let x : Entry := ⟨s, c, some cur, .other⟩
        have freed := envFree_table (E := x.Exits s.toTable) s cur
        split
        next exit left =>
          rw [left] at freed
          exact freed
        next s' done =>
          rw [done] at freed
          have free : Path x.Inner s.toTable s'.toTable := by
            rw [show s'.toTable = _ from freed.2]
            refine .one ⟨rfl, freed.1, fun running => ?_, .inl rfl⟩
            exact absurd (zombie.symm.trans running.1) (by decide)
          have cleared : Path x.Inner s'.toTable (s'.toTable.act (.clear c)) := .one rfl
          exact (schedYield_path _ x).after (free.trans cleared)
      · let x : Entry := ⟨s.setTable (s.setTf cur tf), c, some cur, requestOf tf hw⟩
        refine finish_path x (dispatchUser_path x cur hw rfl ?_ current)
        simp [x, setTable, setTf, setEnv]
  · let x : Entry := ⟨s, c, none, requestOf tf hw⟩
    exact finish_path x (dispatchKernel_path x tf hw rfl)

theorem trapLocked_unlocks (c : Nat) (tf : Trapframe) (hw : Inputs) :
    (s.trapLocked c tf hw).Unlocks c s.lock := by
  have found : (s.entryLocked c tf hw).c = c ∧ (s.entryLocked c tf hw).s.lock = s.lock := by
    unfold entryLocked
    repeat' split
    all_goals exact ⟨rfl, rfl⟩
  have unlocks := (trapLocked_path s c tf hw).2
  rwa [found.1, found.2] at unlocks

theorem trap_path (c : Nat) (tf : Trapframe) (hw : Inputs) :
    (s.trap c tf hw).Lands ((s.entry c tf hw).Went (s.entry c tf hw).s.toTable) :=
  (trapLocked_path (s.enter c) c tf hw).1

end Traps

section Creation

theorem regionAlloc_quiet (e : Slot) (va len : Word) :
    Ends (s.regionAlloc e va len) E fun s' => s'.toTable = s.toTable := by
  refine Ends.foldlM _ rfl fun s₁ k _ same => ?_
  refine Ends.bind (liftVm_quiet s₁ _) fun x same₁ => ?_
  rcases x with ⟨s₂, page | page⟩
  · exact panic_ends s₂ _
  refine Ends.bind (pgdir_quiet s₂ _) fun g _ => ?_
  refine Ends.bind (liftVm_quiet s₂ _) fun y same₂ => ?_
  rcases y with ⟨s₃, done | done⟩
  · exact panic_ends s₃ _
  · exact same₂.trans (same₁.trans same)

theorem loadIcode_table (e : Slot) (segments : List Proghdr) (entry : Word) :
    Ends (s.loadIcode e segments entry) E fun s' =>
      s'.toTable = s.setTf e { (s.envs e).envTf with tfEip := entry } := by
  have loaded : Ends (segments.foldlM (fun s ph => do
      if ph.pMemsz.toNat < ph.content.length then
        .error (.panic .envCreate s)
      else
        let s ← s.regionAlloc e ph.pVa ph.pMemsz
        let g ← s.pgdir e
        let padding := List.replicate (ph.pMemsz.toNat - ph.content.length) 0
        s.updateVm (s.vm.storeBytes g ph.pVa (ph.content ++ padding))) s)
      E fun s' => s'.toTable = s.toTable := by
    refine Ends.foldlM _ rfl fun s₁ ph _ same => ?_
    dsimp only
    split
    · exact panic_ends s₁ _
    refine Ends.bind (regionAlloc_quiet s₁ e _ _) fun s₂ same₂ => ?_
    refine Ends.bind (pgdir_quiet s₂ _) fun g _ => ?_
    exact (updateVm_quiet s₂ _).mono (fun _ => id) fun _ same₃ => same₃.trans (same₂.trans same)
  refine Ends.bind loaded fun s₁ same => ?_
  refine (regionAlloc_quiet _ e _ _).mono (fun _ => id) fun s₂ same₂ => same₂.trans ?_
  exact congrArg (fun t => Table.setTf t e { (t.envs e).envTf with tfEip := entry }) same

theorem envCreate_table (type : EnvType) (segments : List Proghdr) (entry : Word) :
    Ends (s.envCreate type segments entry) E fun s' =>
      ∃ e g, s.envFreeList = some e ∧ s'.toTable = s.toTable.act (.create e g type entry) := by
  refine Ends.bind (envAlloc_table s 0) fun k effect => ?_
  obtain ⟨s₁, outcome⟩ := k
  rcases effect with ⟨err, rfl, same⟩ | ⟨e, g, rfl, head, table⟩
  · exact panic_ends s₁ _
  · refine (loadIcode_table _ e segments entry).mono (fun _ => id) fun s₂ loaded => ⟨e, g, head, ?_⟩
    change s₁.toTable = _ at table
    rw [loaded]
    simp only [setTable, table]
    by_cases server : type = .fs <;> simp [server, act, take, setTf, setEnv, createdEnv, freshEnv]

end Creation

def entryOf (s : Kernel) : Event → Option Entry
  | .trap c tf hw => some (s.entry c tf hw)
  | .start c => some ⟨s.enter c, c, none, .other⟩
  | _ => none

structure Finds (s : Kernel) (x : Entry) : Prop where
  locked : x.s.kernelLock = some x.c
  cpus : x.s.cpus = s.cpus
  ncpu : x.s.ncpu = s.ncpu
  head : x.s.envFreeList = s.envFreeList
  envs : ∀ e, ∃ tf, x.s.envs e = { s.envs e with envTf := tf }
  others : ∀ e, x.cur ≠ some e → x.s.envs e = s.envs e
  cur : ∀ cur ∈ x.cur, s.curenv x.c = some cur

theorem entry_c (c : Nat) (tf : Trapframe) (hw : Inputs) : (s.entry c tf hw).c = c := by
  unfold entry entryLocked
  repeat' split
  all_goals rfl

theorem entry_finds (c : Nat) (tf : Trapframe) (hw : Inputs) : s.Finds (s.entry c tf hw) := by
  unfold entry entryLocked
  split
  · split
    · exact ⟨rfl, rfl, rfl, rfl, fun _ => ⟨_, rfl⟩, fun _ _ => rfl, by rintro _ ⟨⟩⟩
    next cur current =>
      have here : ∀ cur' ∈ some cur, s.curenv c = some cur' := by
        rintro cur' same
        obtain rfl := Option.some.inj same
        exact current
      split
      · exact ⟨rfl, rfl, rfl, rfl, fun _ => ⟨_, rfl⟩, fun _ _ => rfl, here⟩
      · have others : ∀ e, some cur ≠ some e → ((s.enter c).setTf cur tf).envs e = s.envs e := by
          intro e other
          simp [Table.setTf, Table.setEnv, enter, show e ≠ cur from fun same => other (same ▸ rfl)]
        refine ⟨rfl, rfl, rfl, rfl, fun e => ?_, others, here⟩
        by_cases same : cur = e
        · subst same
          exact ⟨tf, by simp [setTable, Table.setTf, Table.setEnv, enter]⟩
        · exact ⟨(s.envs e).envTf, others e (mt Option.some.inj same)⟩
  · exact ⟨rfl, rfl, rfl, rfl, fun _ => ⟨_, rfl⟩, fun _ _ => rfl, by rintro _ ⟨⟩⟩

theorem entryOf_finds {ev : Event} {x : Entry} (entered : s.entryOf ev = some x) : s.Finds x := by
  cases ev with
  | trap c tf hw =>
    obtain rfl := Option.some.inj entered
    exact entry_finds s c tf hw
  | start c =>
    obtain rfl := Option.some.inj entered
    exact ⟨rfl, rfl, rfl, rfl, fun _ => ⟨_, rfl⟩, fun _ _ => rfl, nofun⟩
  | create | store | txDone | rxDone => cases entered

theorem Exit.Lands.of_state {exit : Exit} {s' : Kernel} (lands : exit.Lands P)
    (left : exit.state? = some s') : P s'.toTable := by
  cases exit with
  | user s | halted s | monitor s =>
    obtain rfl := Option.some.inj left
    exact lands
  | panic => cases left

theorem step_table {ev : Event} {s' : Kernel} (stepped : s.step ev = some s') :
    (∃ x, s.entryOf ev = some x ∧
    (s.kernelLock = none ∧ (x.c < s.ncpu ∨ (s.cpus x.c).cpuMode ≠ .unused)) ∧
      x.Went x.s.toTable s'.toTable) ∨
    (∃ e g type segments entry, ev = .create type segments entry ∧ s.kernelLock = none ∧
      s.envFreeList = some e ∧ s'.toTable = s.toTable.act (.create e g type entry)) ∨
    (s.entryOf ev = none ∧ s'.toTable = s.toTable) := by
  cases ev with
  | create type segments entry =>
    have effect := envCreate_table (E := Exit.Lands fun _ => True) s type segments entry
    simp only [step] at stepped
    split at stepped
    next unlocked =>
      cases created : s.envCreate type segments entry with
      | error exit =>
        rw [created] at stepped
        cases stepped
      | ok s₁ =>
        rw [created] at effect stepped
        obtain rfl := Option.some.inj stepped
        obtain ⟨e, g, head, table⟩ := effect
        exact .inr (.inl ⟨e, g, type, segments, entry, rfl, unlocked, head, table⟩)
    · cases stepped
  | start c =>
    simp only [step] at stepped
    split at stepped
    next ready =>
      have path := schedYield_path (s.enter c) ⟨s.enter c, c, none, .other⟩
      exact .inl ⟨_, rfl, ⟨ready.1, .inl ready.2.1⟩, Exit.Lands.of_state path.1 stepped⟩
    · cases stepped
  | trap c tf hw =>
    simp only [step] at stepped
    split at stepped
    next ready =>
      have awake : (s.cpus c).cpuMode ≠ .unused := by
        intro unused
        simp [canTrap, unused] at ready
      rw [← entry_c s c tf hw] at awake
      exact .inl ⟨_, rfl, ⟨ready.1, .inr awake⟩, Exit.Lands.of_state (trap_path s c tf hw) stepped⟩
    · cases stepped
  | store c va value =>
    simp only [step, storeUser] at stepped
    split at stepped
    · simp only [Option.bind_eq_bind, Option.bind_eq_some_iff] at stepped
      obtain ⟨cur, -, g, -, vm, -, same⟩ := stepped
      obtain rfl := Option.some.inj same
      exact .inr (.inr ⟨rfl, rfl⟩)
    · cases stepped
  | txDone i =>
    obtain rfl := Option.some.inj stepped
    exact .inr (.inr ⟨rfl, rfl⟩)
  | rxDone i length =>
    obtain rfl := Option.some.inj stepped
    exact .inr (.inr ⟨rfl, rfl⟩)

end Jos.Kern.Kernel
