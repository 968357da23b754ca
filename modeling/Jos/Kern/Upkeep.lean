import Jos.Kern.Accounts
import Jos.Kern.Integrity
import Jos.Kern.Stores

namespace Jos.Kern

open Jos.Shared

def Entry.Moved (managed : Nat → Prop) (x : Entry) (s : Kernel) : Prop :=
  Memory.Moves managed x.Edits x.s.memory s.memory

namespace Kernel

open Memory

variable {managed : Nat → Prop} {x : Entry} {s s' : Kernel} {cur : Slot}

theorem memory_eq (same : s'.toTable = s.toTable ∧ s'.vm = s.vm) : s'.memory = s.memory := by
  rw [memory, memory, same.1, same.2]

theorem moved_of_eq (same : s'.memory = x.s.memory) : x.Moved managed s' := by
  rw [Entry.Moved, same]
  exact .refl _

theorem storeBytes_memory (allowed : Memory → Edit → Prop) {P : Kernel → Prop} {va : Word}
    {bytes : List Byte} (ready : s.Ready managed) (below : va.toNat + bytes.length ≤ utop.toNat)
    (keeps : ∀ a, allowed a .keep) : Ends (s.storeBytes cur va bytes) (Exit.Leaves True P) fun s' =>
      Moves managed allowed s.memory s'.memory ∧ s'.Ready managed := by
  refine Ends.bind (pgdir_quiet _ cur) fun g own => ?_
  have stores := Memory.storeBytes_moves (m := s.memory) ready own below keeps
  have vm : (s.note (.write va (BitVec.ofNat 32 bytes.length))).vm = s.memory.vm := rfl
  rw [vm]
  cases stored : s.memory.vm.storeBytes g va bytes with
  | error why => trivial
  | ok vm' =>
    rw [stored] at stores
    exact stores

theorem storeBytes_moved {P : Kernel → Prop} {va : Word} {bytes : List Byte}
    (moved : x.Moved managed s ∧ s.Ready managed) (below : va.toNat + bytes.length ≤ utop.toNat) :
    Ends (s.storeBytes cur va bytes) (Exit.Leaves True P) fun s' => x.Moved managed s' ∧
    s'.Ready managed :=
  (storeBytes_memory x.Edits moved.2 below fun _ => trivial).mono (fun _ => id) fun _ stores =>
    ⟨moved.1.trans stores.1, stores.2⟩

section Checks

variable {e : Slot} {va len perm : Word}

theorem userMemAssert_moved (ready : x.s.Ready managed) (destroys : x.cur = some e ∨ x.named = some e) :
    Ends (x.s.userMemAssert x.c e va len perm) (Exit.Leaves True (x.Moved managed))
    (x.Moved managed) := by
  refine Ends.bind (pgdir_quiet x.s e) fun g _ => ?_
  refine Ends.bind (readVm_quiet x.s _) fun ok _ => ?_
  dsimp only
  split
  · exact .refl _
  · have after : (x.s.note (.check e va len perm ok)).Ready managed := ready
    exact (envDestroy_memory x.c after destroys).mono
      (fun _ leaves => leaves.mono (fun _ => trivial) fun _ => id) fun _ => id

theorem userMemAssert_same (ready : x.s.Ready managed) (here : x.cur = some cur)
    (current : x.s.curenv x.c = some cur) :
    Ends (x.s.userMemAssert x.c cur va len perm) (Exit.Leaves True (x.Moved managed)) fun s' =>
      s'.memory = x.s.memory := by
  refine Ends.bind (pgdir_quiet x.s cur) fun g _ => ?_
  refine Ends.bind (readVm_quiet x.s _) fun ok _ => ?_
  dsimp only
  split
  · exact rfl
  · have after : (x.s.note (.check cur va len perm ok)).Ready managed := ready
    have destroys : x.cur = some cur ∨ x.named = some cur := .inl here
    have moves := envDestroy_memory x.c after (show x.Edits x.s.memory (.close cur) from destroys)
    have gone := envDestroy_current (x.s.note (.check cur va len perm ok)) x cur destroys rfl current
    exact (moves.and gone).mono (fun _ both => both.1.mono (fun _ => trivial) fun _ => id) fun _
      both => both.2.elim

end Checks

section Calls

variable {no : Word} {a : Args} (here : x.cur = some cur) (asked : x.request = .call no a)
  (current : x.s.curenv x.c = some cur) (ready : x.s.Ready managed)

theorem reads_moved {α : Type} {result : Except Exit (Kernel × α)} (same : s.memory = x.s.memory)
    (reads : Ends result (Exit.Leaves True (x.Moved managed)) fun r => r.1.toTable = s.toTable ∧
    r.1.vm = s.vm) : Ends result (Exit.Leaves True (x.Moved managed)) fun r => r.1.memory =
    x.s.memory :=
  reads.mono (fun _ => id) fun _ kept => (memory_eq kept).trans same

include here current ready

theorem sysCputs_moved (str len : Word) :
    Ends (x.s.sysCputs x.c cur str len) (Exit.Leaves True (x.Moved managed)) (x.Moved managed) := by
  refine Ends.bind (userMemAssert_same ready here current) fun s₁ same => ?_
  split
  · exact moved_of_eq same
  · exact (scanString_reads s₁ cur str _ _).mono (fun _ => id) fun _ kept =>
      moved_of_eq ((memory_eq kept).trans same)

theorem sysTryTransmit_moved (data len : Word) :
    Ends (x.s.sysTryTransmit x.c cur data len) (Exit.Leaves True (x.Moved managed)) fun r =>
      x.Moved managed r.1 := by
  refine Ends.bind (userMemAssert_same ready here current) fun s₁ same => ?_
  exact (reads_moved same (e1000Transmit_reads s₁ cur data _)).mono (fun _ => id) fun _ => moved_of_eq

theorem sysDraw_moved (shape : Word) :
    Ends (x.s.sysDraw x.c cur shape) (Exit.Leaves True (x.Moved managed)) fun r =>
    x.Moved managed r.1 := by
  refine Ends.bind (userMemAssert_same ready here current) fun s₁ same₁ => ?_
  refine Ends.bind (reads_moved same₁ (loadWords_reads s₁ cur _ _)) fun k₂ same₂ => ?_
  dsimp only
  split
  · refine Ends.bind (reads_moved same₂ (loadWords_reads k₂.1 cur _ _)) fun k₃ same₃ => ?_
    refine Ends.bind (reads_moved same₃ (loadWords_reads k₃.1 cur _ _)) fun k₄ same₄ => ?_
    refine Ends.bind (scanString_reads k₄.1 cur _ _ _) fun s₅ kept => ?_
    exact moved_of_eq ((memory_eq kept).trans same₄)
  · split
    · exact moved_of_eq same₂
    · refine Ends.bind (reads_moved same₂ (loadWords_reads k₂.1 cur _ _)) fun k₃ same₃ => ?_
      refine Ends.bind (reads_moved same₃ (loadWords_reads k₃.1 cur _ _)) fun k₄ same₄ => ?_
      exact moved_of_eq same₄

theorem sysGetMacAddr_moved {addr : Word} (below : addr.toNat + 6 ≤ utop.toNat) :
    Ends (x.s.sysGetMacAddr x.c cur addr) (Exit.Leaves True (x.Moved managed)) (x.Moved managed) := by
  refine Ends.bind (userMemAssert_same ready here current) fun s₁ same => ?_
  have start : x.Moved managed s₁ ∧ s₁.Ready managed :=
    ⟨moved_of_eq same, by rw [Ready, same]; exact ready⟩
  refine Ends.mono (Ends.foldlM _ start fun s₂ i _ moved => storeBytes_moved moved ?_) (fun _ => id)
    fun _ => And.left
  have bound := i.isLt
  have top : utop.toNat = 0xEEC00000 := rfl
  rw [BitVec.toNat_add, BitVec.toNat_ofNat, Nat.mod_eq_of_lt (show i.val < 2 ^ 32 by omega),
    Nat.mod_eq_of_lt (by omega)]
  simp only [List.length_singleton]
  omega

theorem sysMouseGetp_moved {pkt : Word} (next : Option MousePkt) (below : pkt.toNat + 12 ≤ utop.toNat) :
    Ends (x.s.sysMouseGetp x.c cur pkt next) (Exit.Leaves True (x.Moved managed)) fun r =>
    x.Moved managed r.1 := by
  refine Ends.bind (userMemAssert_same ready here current) fun s₁ same => ?_
  have start : x.Moved managed s₁ ∧ s₁.Ready managed :=
    ⟨moved_of_eq same, by rw [Ready, same]; exact ready⟩
  cases next with
  | some m => exact Ends.bind (storeBytes_moved start below) fun _ => And.left
  | none =>
    refine Ends.bind (storeBytes_moved start ?_) fun _ => And.left
    have top : utop.toNat = 0xEEC00000 := rfl
    rw [BitVec.toNat_add, Nat.mod_eq_of_lt (by simp; omega)]
    simp [Pmap.bytesOf]
    omega

omit here current in
theorem sysReceive_moved {bufIdx : Word} (below : bufIdx.toNat + 4 ≤ utop.toNat) :
    Ends (x.s.sysReceive cur bufIdx) (Exit.Leaves True (x.Moved managed)) fun r =>
    x.Moved managed r.1 := by
  unfold sysReceive e1000Receive
  dsimp only
  split
  · exact .refl _
  · exact Ends.bind (storeBytes_moved ⟨.refl _, ready⟩ below) fun _ => And.left

include asked

omit current in
theorem sysEnvSetTrapframe_moved (number : syscalls[no.toNat]? = some .envSetTrapframe) :
    Ends (x.s.sysEnvSetTrapframe x.c cur a.a1 a.a2) (Exit.Leaves True (x.Moved managed)) fun r =>
      x.Moved managed r.1 := by
  unfold sysEnvSetTrapframe
  split
  · exact .refl _
  next e found =>
    have named : x.named = some e := by simp [Entry.named, Entry.calls, here, asked, number, found]
    refine Ends.bind (userMemAssert_moved ready (.inr named)) fun s₁ moved => ?_
    refine Ends.bind (loadWords_reads s₁ cur _ _) fun k kept => ?_
    have memory : (k.1.setTable (k.1.setTf e (maskFrame (trapframeOf k.2)))).memory = s₁.memory :=
      (congrArg (Memory.mk k.1.vm) (Table.dirs_setTf _ _ _)).trans (memory_eq kept)
    show Moves managed x.Edits x.s.memory _
    rw [memory]
    exact moved

theorem syscall_moved (hw : Inputs) (vacant : ∀ e, x.s.envFreeList = some e → x.s.dirs e = none)
    (tame : x.tame = true) :
    Ends (x.s.syscall x.c cur hw no a) (Exit.Leaves True (x.Moved managed)) fun r =>
    x.Moved managed r.1 := by
  have silent : ∀ {r : Except Exit Kernel},
    Ends r (Exit.Leaves True (x.Moved managed)) (x.Moved managed) →
      Ends (void r) (Exit.Leaves True (x.Moved managed)) fun k => x.Moved managed k.1 := by
    intro r ends
    cases r with
    | ok s' => exact ends
    | error exit => exact ends
  have buffered : ∀ range, x.buffer = some range → range.1.toNat + range.2 ≤ utop.toNat := by
    simpa [Entry.tame, Option.all_eq_true] using tame
  cases number : syscalls[no.toNat]? with
  | none =>
    unfold syscall
    rw [number]
    exact .refl _
  | some call =>
    by_cases member : call ∈ envCalls
    · refine (envCall_moves here asked number member ready vacant hw).mono (fun _ leaves => ?_)
        fun _ => id
      exact leaves.mono (fun _ => trivial) fun _ => id
    have called : ∀ call', syscalls[no.toNat]? = some call' → x.calls call' = some (cur, a) := by
      intro call' number'
      simp [Entry.calls, here, asked, number']
    have others : ∀ call', call' ≠ call → x.calls call' = none :=
      fun call' other => Entry.calls_other (called call number) other
    unfold syscall
    rw [number]
    cases call with
    | cputs => exact silent (sysCputs_moved here current ready _ _)
    | cgetc | getenvid | timeMsec | clearScreen | freeRxBuf => exact .refl _
    | envSetTrapframe => exact sysEnvSetTrapframe_moved here asked ready number
    | yield =>
      exact Exit.Leaves.mono (schedYield_memory (s := x.s) x.c) (fun _ => trivial) fun _ => moved_of_eq
    | changePriority =>
      have same : (x.s.sysChangePriority cur (a.a1.setWidth 8)).1.memory = x.s.memory := by
        unfold sysChangePriority
        split
        · rfl
        · exact congrArg (Memory.mk x.s.vm) (Table.dirs_setEnv_self _ _ _ rfl)
      exact moved_of_eq same
    | tryTransmit => exact sysTryTransmit_moved here current ready _ _
    | receive =>
      refine sysReceive_moved ready (buffered (a.a1, 4) ?_)
      simp [Entry.buffer, called _ number]
    | envSetType =>
      have same : (x.s.sysEnvSetType cur a.a1).1.memory = x.s.memory := by
        unfold sysEnvSetType
        repeat' split
        · rfl
        · rfl
        · exact congrArg (Memory.mk x.s.vm) (Table.dirs_setEnv_self _ _ _ rfl)
      exact moved_of_eq same
    | getMacAddr =>
      refine silent (sysGetMacAddr_moved here current ready (buffered (a.a1, 6) ?_))
      simp [Entry.buffer, called _ number, others .receive (by decide)]
    | draw => exact sysDraw_moved here current ready _
    | mouseGetp =>
      refine sysMouseGetp_moved here current ready _ (buffered (a.a1, 12) ?_)
      simp [Entry.buffer, called _ number, others .receive (by decide), others .getMacAddr (by decide)]
    | _ => simp [envCalls] at member

end Calls

section Traps

theorem faultFrame_below (esp : Word) : (faultFrame esp).toNat + 52 ≤ utop.toNat := by
  have stack : uxstacktop = 0xEEC00000#32 := rfl
  have top : utop = 0xEEC00000#32 := rfl
  unfold faultFrame
  rw [stack, top]
  split <;> bv_omega

theorem e1000Intr_memory (s : Kernel) (icr : Word) : (s.e1000Intr icr).memory = s.memory := by
  have woken : ∀ (t : Table) (e : Option Slot), (wake t e).dirs = t.dirs := by
    intro t e
    cases e with
    | none => rfl
    | some e => exact Table.dirs_setStatus t e .runnable
  exact congrArg (Memory.mk s.vm) ((woken _ _).trans (woken _ _))

theorem pageFaultHandler_moved (faultVa : Word) (here : x.cur = some cur)
    (current : x.s.curenv x.c = some cur) (ready : x.s.Ready managed) :
    Ends (x.s.pageFaultHandler x.c cur faultVa) (Exit.Leaves True (x.Moved managed))
    (x.Moved managed) := by
  unfold pageFaultHandler
  dsimp only
  split
  · refine Ends.bind (userMemAssert_same ready here current) fun s₁ same => ?_
    have start : x.Moved managed s₁ ∧ s₁.Ready managed :=
      ⟨moved_of_eq same, by rw [Ready, same]; exact ready⟩
    refine Ends.bind (storeBytes_moved start (faultFrame_below _)) fun s₂ moved => ?_
    refine Exit.Leaves.mono (envRun_memory x.c cur) (fun _ => trivial) fun s₃ kept => ?_
    have memory : s₃.memory = s₂.memory :=
      kept.trans (congrArg (Memory.mk s₂.vm) (Table.dirs_setTf _ _ _))
    rw [Entry.Moved, memory]
    exact moved.1
  · refine (envDestroy_memory x.c ready (show x.Edits x.s.memory (.close cur) from .inl here)).mono
      (fun _ leaves => leaves.mono (fun _ => trivial) fun _ => id) fun _ => id

theorem dispatchUser_moved (hw : Inputs) (here : x.cur = some cur)
    (asked : x.request = requestOf (x.s.envs cur).envTf hw) (current : x.s.curenv x.c = some cur)
    (ready : x.s.Ready managed) (vacant : ∀ e, x.s.envFreeList = some e → x.s.dirs e = none)
    (tame : x.tame = true) :
    Ends (x.s.dispatchUser x.c cur hw) (Exit.Leaves True (x.Moved managed)) (x.Moved managed) := by
  unfold dispatchUser
  unfold requestOf at asked
  dsimp only
  cases kind : trapKind (x.s.envs cur).envTf.tfTrapno with
  | pageFault => exact pageFaultHandler_moved _ here current ready
  | syscall =>
    rw [kind] at asked
    refine Ends.bind (syscall_moved here asked current ready hw vacant tame) fun r moved => ?_
    have memory : (r.1.setTable (r.1.setTf cur ((r.1.envs cur).envTf.setEax r.2))).memory = r.1.memory :=
      congrArg (Memory.mk r.1.vm) (Table.dirs_setTf _ _ _)
    show Moves managed x.Edits x.s.memory _
    rw [memory]
    exact moved
  | timer =>
    exact Exit.Leaves.mono (schedYield_memory (s := x.s) x.c) (fun _ => trivial) fun _ =>
      moved_of_eq
  | e1000 => exact moved_of_eq (e1000Intr_memory x.s hw.icr)
  | breakpoint | spurious | device => exact .refl _
  | other =>
    refine (envDestroy_memory x.c ready (show x.Edits x.s.memory (.close cur) from .inl here)).mono
      (fun _ leaves => leaves.mono (fun _ => trivial) fun _ => id) fun _ => id

theorem dispatchKernel_moved (x : Entry) (tf : Trapframe) (hw : Inputs) :
    Ends (x.s.dispatchKernel x.c tf hw) (Exit.Leaves True (x.Moved managed)) (x.Moved managed) := by
  unfold dispatchKernel
  cases trapKind tf.tfTrapno with
  | timer =>
    exact Exit.Leaves.mono (schedYield_memory (s := x.s) x.c) (fun _ => trivial) fun _ =>
      moved_of_eq
  | e1000 => exact moved_of_eq (e1000Intr_memory x.s hw.icr)
  | breakpoint | spurious | device => exact .refl _
  | pageFault | syscall | other => trivial

theorem finish_moved {result : Except Exit Kernel}
    (ends : Ends result (Exit.Leaves True (x.Moved managed)) (x.Moved managed)) :
    (finish x.c result).Leaves True (x.Moved managed) := by
  cases result with
  | error exit => exact ends
  | ok s' =>
    have returns : (s'.trapReturn x.c).Leaves True fun s'' => s''.memory = s'.memory := by
      unfold trapReturn
      split
      next cur _ =>
        split
        · exact (envRun_memory x.c cur).mono (fun _ => trivial) fun _ => id
        · exact (schedYield_memory x.c).mono (fun _ => trivial) fun _ => id
      · exact (schedYield_memory x.c).mono (fun _ => trivial) fun _ => id
    refine Exit.Leaves.mono returns id fun s'' same => ?_
    rw [Entry.Moved, same]
    exact ends

theorem entry_memory (c : Nat) (tf : Trapframe) (hw : Inputs) :
    (s.entry c tf hw).s.memory = s.memory := by
  unfold entry entryLocked
  repeat' split
  · rfl
  · rfl
  · exact congrArg (Memory.mk s.vm) (Table.dirs_setTf _ _ _)
  · rfl

theorem trap_moved (c : Nat) (tf : Trapframe) (hw : Inputs) (ready : s.Ready managed)
    (vacant : ∀ e, s.envFreeList = some e → s.dirs e = none) (tame : (s.entry c tf hw).tame = true) :
    (s.trap c tf hw).Leaves True ((s.entry c tf hw).Moved managed) := by
  unfold trap trapLocked
  unfold entry entryLocked at tame ⊢
  split
  next user =>
    rw [if_pos user] at tame
    cases current : (s.enter c).curenv c with
    | none => trivial
    | some cur =>
      rw [current] at tame
      dsimp only at tame ⊢
      split
      · let x : Entry := ⟨s.enter c, c, some cur, .other⟩
        cases own : (s.enter c).dirs cur with
        | none =>
          rw [envFree, pgdir_error own]
          trivial
        | some g =>
          have found : (s.enter c).Ready managed := ready
          obtain ⟨s', freed, -, edited⟩ := envFree_memory found own
          rw [freed]
          refine Exit.Leaves.mono (schedYield_memory c) (fun _ => trivial) fun s'' same => ?_
          rw [Entry.Moved, same]
          exact .one (show x.Edits x.s.memory (.close cur) from .inl rfl) edited
      next alive =>
        rw [if_neg alive] at tame
        let x : Entry := ⟨(s.enter c).setTable ((s.enter c).setTf cur tf), c, some cur, requestOf tf hw⟩
        have dirs : x.s.dirs = s.dirs := Table.dirs_setTf _ _ _
        have found : x.s.Ready managed := by
          rw [Ready, show x.s.memory = s.memory from congrArg (Memory.mk s.vm) dirs]
          exact ready
        refine finish_moved (x := x) (dispatchUser_moved hw rfl ?_ current found ?_ tame)
        · simp [x, setTable, Table.setTf, Table.setEnv]
        · intro e head
          rw [dirs]
          exact vacant e head
  · let x : Entry := ⟨s.enter c, c, none, requestOf tf hw⟩
    exact finish_moved (x := x) (dispatchKernel_moved x tf hw)

end Traps

section Creation

def Single (_ : Memory) (edit : Edit) : Prop := edit.isCopy = false

theorem moves_ready {a b : Memory} (moves : Moves managed Single a b)
    (ready : a.Accounted managed ∧ a.Bounded) : b.Accounted managed ∧ b.Bounded :=
  moves.invariant ready fun _ _ _ _ single edited => edited.ready_after single

theorem region_below {va len : Word} {k : Nat} (inside : va.toNat + len.toNat ≤ utop.toNat)
    (round : k < ((roundUp (va + len) 4096).toNat - (roundDown va 4096).toNat) / pgsize) :
    roundDown va 4096 + BitVec.ofNat 32 (k * pgsize) < utop := by
  have top : utop.toNat = 0xEEC00000 := rfl
  have sum : (va + len + 4096 - 1).toNat = va.toNat + len.toNat + 4095 := by bv_omega
  rw [roundUp, roundDown_toNat, roundDown_toNat, sum] at round
  unfold pgsize at round ⊢
  rw [BitVec.lt_def, BitVec.toNat_add, roundDown_toNat, BitVec.toNat_ofNat]
  omega

variable {e : Slot} {P : Kernel → Prop}

theorem regionAlloc_memory {va len : Word} (ready : s.Ready managed)
    (inside : va.toNat + len.toNat ≤ utop.toNat) :
    Ends (s.regionAlloc e va len) (Exit.Leaves True P) fun s' =>
      Moves managed Single s.memory s'.memory ∧ s'.Ready managed := by
  refine Ends.foldlM _ ⟨.refl _, ready⟩ fun s₁ k member ⟨moves, ready₁⟩ => ?_
  have below := region_below inside (List.mem_range.mp member)
  obtain ⟨⟨free, inv⟩, bounded⟩ := ready₁
  cases free with
  | nil => exact Ends.bind_ok (liftVm_ok s₁ (Pmap.pageAlloc_nil inv false)) trivial
  | cons p rest =>
    let s₂ : Kernel := { s₁ with vm := s₁.vm.taken p false }
    refine Ends.bind_ok (liftVm_ok s₁ (Pmap.pageAlloc_cons inv false)) ?_
    refine Ends.bind (pgdir_quiet s₂ e) fun g own => ?_
    rcases fresh_edited false inv bounded own below (show (pteU ||| pteW).toNat < 2 ^ 12 by decide) with
      ⟨failed, -⟩ | ⟨vm', done, edited⟩
    · exact Ends.bind_ok (liftVm_ok s₂ failed) trivial
    · refine Ends.bind_ok (liftVm_ok s₂ done) ⟨moves.trans (.one ?_ edited), edited.ready_after rfl⟩
      exact rfl

theorem loadIcode_memory {segments : List Proghdr} {entry : Word} (ready : s.Ready managed)
    (tame : ∀ ph ∈ segments, ph.pVa.toNat + ph.pMemsz.toNat ≤ utop.toNat) :
    Ends (s.loadIcode e segments entry) (Exit.Leaves True P) fun s' =>
    Moves managed Single s.memory s'.memory := by
  have loaded : Ends (segments.foldlM (fun s ph => do
      if ph.pMemsz.toNat < ph.content.length then
        .error (.panic .envCreate s)
      else
        let s ← s.regionAlloc e ph.pVa ph.pMemsz
        let g ← s.pgdir e
        let padding := List.replicate (ph.pMemsz.toNat - ph.content.length) 0
        s.updateVm (s.vm.storeBytes g ph.pVa (ph.content ++ padding))) s) (Exit.Leaves True P)
      fun s' => Moves managed Single s.memory s'.memory ∧ s'.Ready managed := by
    refine Ends.foldlM _ ⟨.refl _, ready⟩ fun s₁ ph member ⟨moves, ready₁⟩ => ?_
    split
    · trivial
    next fits =>
      refine Ends.bind (regionAlloc_memory ready₁ (tame ph member)) fun s₂ ⟨moves₂, ready₂⟩ => ?_
      refine Ends.bind (pgdir_quiet s₂ e) fun g own => ?_
      let content := ph.content ++ List.replicate (ph.pMemsz.toNat - ph.content.length) 0
      have below : ph.pVa.toNat + content.length ≤ utop.toNat := by
        have inside := tame ph member
        simp only [content, List.length_append, List.length_replicate]
        omega
      have keeps : ∀ a, Single a .keep := fun _ => rfl
      have stores := Memory.storeBytes_moves (m := s₂.memory) ready₂ own below keeps
      show Ends (s₂.updateVm (s₂.memory.vm.storeBytes g ph.pVa content)) _ _
      cases stored : s₂.memory.vm.storeBytes g ph.pVa content with
      | error why => trivial
      | ok vm' =>
        rw [stored] at stores
        exact ⟨moves.trans (moves₂.trans stores.1), stores.2⟩
  refine Ends.bind loaded fun s₁ ⟨moves, ready₁⟩ => ?_
  let s₂ := s₁.setTable (s₁.setTf e { (s₁.envs e).envTf with tfEip := entry })
  have memory : s₂.memory = s₁.memory := congrArg (Memory.mk s₁.vm) (Table.dirs_setTf _ _ _)
  have ready₂ : s₂.Ready managed := by
    rw [Ready, memory]
    exact ready₁
  refine Ends.mono (regionAlloc_memory ready₂ (by decide)) (fun _ => id) fun s₃ ⟨moves₃, _⟩ => ?_
  rw [memory] at moves₃
  exact moves.trans moves₃

theorem envCreate_memory {type : EnvType} {segments : List Proghdr} {entry : Word}
    (ready : s.Ready managed) (vacant : ∀ e, s.envFreeList = some e → s.dirs e = none)
    (tame : ∀ ph ∈ segments, ph.pVa.toNat + ph.pMemsz.toNat ≤ utop.toNat) :
    Ends (s.envCreate type segments entry) (Exit.Leaves True P) fun s' =>
      Moves managed Single s.memory s'.memory := by
  have allocs : Ends (s.envAlloc 0) (fun _ => False) fun r => Moves managed Single s.memory r.1.memory :=
    envAlloc_memory 0 ready vacant fun _ _ _ => rfl
  refine Ends.bind (allocs.mono (fun _ => False.elim) fun _ => id) fun r moves => ?_
  rcases r with ⟨s₁, err | e⟩
  · trivial
  · let s₂ := s₁.setTable (s₁.setEnv e { s₁.envs e with envType := type })
    let tf :=
      if type = .fs
      then { (s₂.envs e).envTf with tfEflags := (s₂.envs e).envTf.tfEflags ||| flIOPL3 }
      else (s₂.envs e).envTf
    have dirs : (s₂.setTf e tf).dirs = s₁.dirs :=
      (Table.dirs_setTf _ _ _).trans (Table.dirs_setEnv_self _ _ _ rfl)
    have memory : (s₂.setTable (s₂.setTf e tf)).memory = s₁.memory := congrArg (Memory.mk s₁.vm) dirs
    have ready₂ : (s₂.setTable (s₂.setTf e tf)).Ready managed := by
      rw [Ready, memory]
      exact moves_ready moves ready
    refine Ends.mono (loadIcode_memory ready₂ tame) (fun _ => id) fun s₃ moves₃ => ?_
    rw [memory] at moves₃
    exact moves.trans moves₃

end Creation

def Edits (s : Kernel) (ev : Event) (m : Memory) (edit : Edit) : Prop :=
  match ev with
  | .create _ _ _ => Single m edit
  | .trap c tf hw => (s.entry c tf hw).Edits m edit
  | _ => edit = .keep

theorem step_listed {ev : Event} (listed : s.Listed) (stepped : s.step ev = some s') : s'.Listed := by
  rcases step_table s stepped with ⟨x, entered, -, left⟩ |
    ⟨e, g, type, segments, entry, -, -, head, table⟩ | ⟨-, same⟩
  · have finds := entryOf_finds s entered
    have start : x.s.Listed := by
      refine listed.congr finds.head fun e => ?_
      obtain ⟨tf, env⟩ := finds.envs e
      simp [env]
    exact left.path.invariant start fun t a holds cause => holds.act cause.linked
  · rw [table]
    exact listed.act head
  · rw [same]
    exact listed

theorem Exit.Leaves.of_state {P : Kernel → Prop} {exit : Exit} (leaves : exit.Leaves True P)
    (left : exit.state? = some s') : P s' := by
  cases exit with
  | user s | halted s | monitor s =>
    obtain rfl := Option.some.inj left
    exact leaves
  | panic => cases left

theorem step_moves {ev : Event} (ready : s.Ready managed) (listed : s.Listed) (tame : s.Tame ev)
    (stepped : s.step ev = some s') : s.memory.Moves managed (s.Edits ev) s'.memory := by
  have vacant : ∀ e, s.envFreeList = some e → s.dirs e = none := fun _ => listed.vacant
  unfold step at stepped
  cases ev with
  | create type segments entry =>
    dsimp only at stepped
    split at stepped
    · have inside : ∀ ph ∈ segments, ph.pVa.toNat + ph.pMemsz.toNat ≤ utop.toNat := by
        simpa [Event.tame] using tame.1
      have moves : Ends (s.envCreate type segments entry) (Exit.Leaves True fun _ => True) fun s' =>
          s.memory.Moves managed Single s'.memory := envCreate_memory ready vacant inside
      split at stepped
      next s₁ done =>
        obtain rfl := Option.some.inj stepped
        rw [done] at moves
        exact moves
      · cases stepped
    · cases stepped
  | start c =>
    dsimp only at stepped
    split at stepped
    · have same :=
        Exit.Leaves.of_state ((schedYield_memory c).mono (fun _ => trivial) fun _ => id) stepped
      rw [same]
      exact .refl _
    · cases stepped
  | trap c tf hw =>
    dsimp only at stepped
    split at stepped
    · have moved := Exit.Leaves.of_state (trap_moved c tf hw ready vacant (tame.2 _ rfl)) stepped
      rw [Entry.Moved, entry_memory] at moved
      exact moved
    · cases stepped
  | store c va value =>
    dsimp only at stepped
    unfold storeUser at stepped
    split at stepped
    next user =>
      simp only [Option.bind_eq_bind, Option.bind_eq_some_iff] at stepped
      obtain ⟨cur, -, g, own, vm, stored, same⟩ := stepped
      obtain rfl := Option.some.inj same
      obtain ⟨p, reached, rfl⟩ := Option.map_eq_some_iff.mp stored
      have kept : s.Edits (.store c va value) s.memory .keep := rfl
      exact .one kept (poke_edited (m := s.memory) ready own user.2 reached value)
    · cases stepped
  | txDone i =>
    obtain rfl := Option.some.inj stepped
    exact .refl _
  | rxDone i length =>
    obtain rfl := Option.some.inj stepped
    exact .refl _

end Kernel

end Jos.Kern
