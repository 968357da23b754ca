import Jos.Kern.Boot

namespace Jos.Kern

open Jos.Shared
open Function

inductive CpuStatus where
  | unused
  | started
  | halted
  deriving DecidableEq

inductive Pc where
  -- `i386_init` before `lock_kernel`, and after it
  | init
  | boot
  -- `mp_main`: not started yet, started, and before `lock_kernel`
  | off
  | mpMain
  | ready
  -- both before `sched_yield`
  | sched
  | user
  -- the loop around `hlt` at the end of `sched_halt`
  | idle
  -- `trap`: its beginning, before the first `lock_kernel`, after the test for `CPU_HALTED`, before
  -- the second `lock_kernel`, and after both
  | entered (tf : Trapframe)
  | woken (tf : Trapframe)
  | checked (tf : Trapframe)
  | trapped (tf : Trapframe)
  | dispatch (tf : Trapframe)
  -- after `unlock_kernel` in `env_run` and in `sched_halt`
  | popping
  | halting
  -- in the monitor for good, or at the `hlt` for a CPU that finds `panicstr` set
  | stopped
  deriving DecidableEq

/-- All CPUs at once. In `vm86` a CPU runs a program in virtual-8086 mode, where the low bits of
`cs` say nothing about the privilege level; `entries` counts how often a CPU has begun to run in the
kernel. -/
structure Smp where
  kernel : Kernel
  bootcpu : Nat
  cpuStatus : Nat → CpuStatus
  pc : Nat → Pc
  panicstr : Bool
  vm86 : Nat → Bool
  entries : Nat → Nat

inductive SmpEvent where
  -- a CPU in the kernel goes on by one step
  | advance (c : Nat) (hw : Inputs)
  -- the first CPU starts another one in `boot_aps`, and creates an environment
  | startap (c : Nat)
  | create (type : EnvType) (segments : List Kernel.Proghdr) (entry : Word)
  -- the hardware has pushed this frame and calls `trap`
  | trap (c : Nat) (tf : Trapframe)
  -- `env_pop_tf` loads the frame, or faults
  | pop (c : Nat) (loads : Bool)
  -- programs store into their memory, the network card writes descriptors back
  | world (event : Event)

namespace Smp

def go (s : Smp) (c : Nat) (pc : Pc) : Smp := { s with pc := update s.pc c pc }

-- `lock_kernel`: spins while another CPU holds the lock, and panics if this one does.
def lockKernel (s : Smp) (c : Nat) (next : Pc) : Option Smp :=
  match s.kernel.kernelLock with
  | none => some ({ s with kernel := s.kernel.enter c }.go c next)
  | some d => if d = c then some ({ s with panicstr := true }.go c .stopped) else none

-- What becomes of a CPU when the kernel code has run to its end. A panic in `env_run` comes before
-- `unlock_kernel`.
def exit (s : Smp) (c : Nat) : Exit → Smp
  | .user k => { s with kernel := k }.go c .popping
  | .halted k => { s with kernel := k, cpuStatus := update s.cpuStatus c .halted }.go c .halting
  | .monitor k => { s with kernel := k }.go c .stopped
  | .panic _ k =>
    { s with
      kernel := { k with kernelLock := s.kernel.kernelLock, lockOps := s.kernel.lockOps }
      panicstr := true }.go c .stopped

def advance (s : Smp) (c : Nat) (hw : Inputs) : Option Smp :=
  match s.pc c with
  | .init => s.lockKernel c .boot
  | .boot => some (s.go c .sched)
  | .mpMain => some ({ s with cpuStatus := update s.cpuStatus c .started }.go c .ready)
  | .ready => s.lockKernel c .sched
  | .sched => some (s.exit c (s.kernel.schedYield c))
  | .entered tf =>
    if s.panicstr then
      some (s.go c .stopped)
    else
      -- The old value of `cpu_status` is what `xchg` returns.
      some ({ s with cpuStatus := update s.cpuStatus c .started }.go c
        (if s.cpuStatus c = CpuStatus.halted then .woken tf else .checked tf))
  | .woken tf => s.lockKernel c (.checked tf)
  | .checked tf => some (s.go c (if tf.fromUser then .trapped tf else .dispatch tf))
  | .trapped tf => s.lockKernel c (.dispatch tf)
  | .dispatch tf => some (s.exit c (s.kernel.trapLocked c tf hw))
  | .halting => some (s.go c .idle)
  | .off | .user | .idle | .popping | .stopped => none

def isInterrupt (tf : Trapframe) : Bool :=
  trapKind tf.tfTrapno = .timer || trapKind tf.tfTrapno = .e1000 || trapKind tf.tfTrapno = .device ||
    trapKind tf.tfTrapno = .spurious

-- The frames that the hardware may push. Of the traps out of virtual-8086 mode only interrupts are
-- followed.
def canTrap (s : Smp) (c : Nat) (tf : Trapframe) : Bool :=
  match s.pc c with
  | .user => tf.fromUser || s.vm86 c && isInterrupt tf
  | .idle => tf.tfCs = gdKT
  | _ => false

def loadsVm86 (s : Smp) (c : Nat) : Bool :=
  match s.kernel.curenv c with
  | some e => (s.kernel.envs e).envTf.tfEflags &&& flVM ≠ 0
  | none => false

def step (s : Smp) : SmpEvent → Option Smp
  | .advance c hw => s.advance c hw
  | .startap c =>
    if s.pc s.bootcpu = .boot ∧ c < s.kernel.ncpu ∧ s.pc c = .off then
      some ({ s with entries := update s.entries c (s.entries c + 1) }.go c .mpMain)
    else none
  | .create type segments entry =>
    if s.pc s.bootcpu = .boot then
      match s.kernel.envCreate type segments entry with
      | .ok k => some { s with kernel := k }
      | .error exit => some (s.exit s.bootcpu exit)
    else none
  | .trap c tf =>
    if s.canTrap c tf then
      some ({ s with entries := update s.entries c (s.entries c + 1) }.go c (.entered tf))
    else none
  | .pop c loads =>
    if s.pc c = .popping then
      if loads then some ({ s with vm86 := update s.vm86 c (s.loadsVm86 c) }.go c .user)
      -- The fault is a trap from kernel mode: `trap` takes no lock and panics.
      else some ({ s with panicstr := true }.go c .stopped)
    else none
  | .world (.store c va value) =>
    if s.pc c = .user then (s.kernel.step (.store c va value)).map fun k => { s with kernel := k }
      else none
  | .world (.txDone i) => (s.kernel.step (.txDone i)).map fun k => { s with kernel := k }
  | .world (.rxDone i length) => (s.kernel.step (.rxDone i length)).map fun k => { s with kernel := k }
  | .world (.create _ _ _) | .world (.start _) | .world (.trap _ _ _) => none

structure Started (s : Smp) : Prop where
  unlocked : s.kernel.lock = (none, [])
  pc : s.pc = fun c => if c = s.bootcpu then .init else .off
  status : ∀ c, s.cpuStatus c ≠ .halted
  entries : s.entries = fun c => if c = s.bootcpu then 1 else 0

def releases (s : Smp) (c : Nat) : Nat := s.kernel.lockOps.count (.release c)

end Smp

def replay : List LockOp → Option (Option Nat)
  | [] => some none
  | .acquire c :: ops => if replay ops = some none then some (some c) else none
  | .release c :: ops => if replay ops = some (some c) then some none else none

inductive Place where
  | outside
  | waiting
  | holding
  | stopped

def Pc.place : Pc → Place
  | .off | .user | .idle | .popping | .halting => .outside
  | .init | .mpMain | .ready | .entered _ | .woken _ | .trapped _ => .waiting
  | .checked tf => if tf.fromUser then .waiting else .holding
  | .boot | .sched | .dispatch _ => .holding
  | .stopped => .stopped

def Place.Fits : Place → Prop → Nat → Nat → Prop
  | .outside, holds, releases, entries => ¬holds ∧ releases = entries
  | .waiting, holds, releases, entries => ¬holds ∧ releases + 1 = entries
  | .holding, holds, releases, entries => holds ∧ releases + 1 = entries
  | .stopped, _, _, _ => True

def Pc.Agrees : Pc → CpuStatus → Prop
  | .idle, status | .halting, status => status = .halted
  | .entered tf, status => status = .halted ↔ tf.fromUser = false
  | .woken tf, status => status ≠ .halted ∧ tf.fromUser = false
  | .trapped tf, status => status ≠ .halted ∧ tf.fromUser = true
  | .stopped, _ => True
  | .init, status | .boot, status | .off, status | .mpMain, status | .ready, status | .sched, status
  | .user, status | .checked _, status | .dispatch _, status | .popping, status => status ≠ .halted

namespace Smp

def Protected (s : Smp) : SmpEvent → Prop
  | .trap c tf => s.pc c = .user → tf.fromUser = true
  | .advance _ _ | .startap _ | .create _ _ _ | .pop _ _ | .world _ => True

structure Sound (s : Smp) : Prop where
  replays : replay s.kernel.lockOps = some s.kernel.kernelLock
  place : ∀ c, (s.pc c).place.Fits (s.kernel.kernelLock = some c) (s.releases c) (s.entries c)
  agrees : ∀ c, (s.pc c).Agrees (s.cpuStatus c)

variable {s t : Smp} {c : Nat}

theorem Sound.move (sound : s.Sound) (c : Nat)
    (replays : replay t.kernel.lockOps = some t.kernel.kernelLock)
    (lock : ∀ d, d ≠ c → (t.kernel.kernelLock = some d ↔ s.kernel.kernelLock = some d) ∧
    t.releases d = s.releases d)
    (others : ∀ d, d ≠ c → t.pc d = s.pc d ∧ t.cpuStatus d = s.cpuStatus d ∧
    t.entries d = s.entries d)
    (place : (t.pc c).place.Fits (t.kernel.kernelLock = some c) (t.releases c) (t.entries c))
    (agrees : (t.pc c).Agrees (t.cpuStatus c)) : t.Sound := by
  refine ⟨replays, fun d => ?_, fun d => ?_⟩
  · by_cases same : d = c
    · exact same ▸ place
    · obtain ⟨pc, -, entries⟩ := others d same
      obtain ⟨holds, releases⟩ := lock d same
      rw [pc, entries, releases, propext holds]
      exact sound.place d
  · by_cases same : d = c
    · exact same ▸ agrees
    · obtain ⟨pc, status, -⟩ := others d same
      rw [pc, status]
      exact sound.agrees d

theorem releases_congr (same : t.kernel.lock = s.kernel.lock) (c : Nat) :
    t.releases c = s.releases c := by
  rw [releases, releases, (Prod.mk.inj same).2]

theorem Sound.go (sound : s.Sound) {pc : Pc} (same : t.kernel.lock = s.kernel.lock)
    (there : t.pc = update s.pc c pc)
    (others : ∀ d, d ≠ c → t.cpuStatus d = s.cpuStatus d ∧ t.entries d = s.entries d)
    (place : pc.place.Fits (s.kernel.kernelLock = some c) (s.releases c) (t.entries c))
    (agrees : pc.Agrees (t.cpuStatus c)) : t.Sound := by
  obtain ⟨lock, ops⟩ := Prod.mk.inj same
  have here : t.pc c = pc := by rw [there, update_self]
  apply sound.move c
  · rw [lock, ops, sound.replays]
  · exact fun d _ => ⟨by rw [lock], releases_congr same d⟩
  · exact fun d other => ⟨by rw [there, update_of_ne other], others d other⟩
  · rw [here, lock, releases_congr same]
    exact place
  · rw [here]
    exact agrees

theorem Sound.lockKernel (sound : s.Sound) {next : Pc} (locked : s.lockKernel c next = some t)
    (waits : (s.pc c).place = .waiting) (holds : next.place = .holding)
    (agrees : next.Agrees (s.cpuStatus c)) : t.Sound := by
  have place := sound.place c
  rw [waits, Place.Fits] at place
  unfold Smp.lockKernel at locked
  split at locked
  next free =>
    cases locked
    have replays : replay s.kernel.lockOps = some none := free ▸ sound.replays
    refine sound.move c (if_pos replays) (fun d other => ⟨?_, ?_⟩) (fun d other => ⟨?_, rfl, rfl⟩) ?_ ?_
    · simp [Smp.go, Kernel.enter, free, Ne.symm other]
    · simp [Smp.go, Kernel.enter, releases]
    · exact update_of_ne other _ _
    · simp only [Smp.go, update_self, holds, Place.Fits]
      exact ⟨rfl, by simpa [releases, Kernel.enter] using place.2⟩
    · simp only [Smp.go, update_self]
      exact agrees
  next d held =>
    split at locked
    next same => exact absurd (same ▸ held) place.1
    · cases locked

theorem Sound.exit (sound : s.Sound) (holds : (s.pc c).place = .holding) (up : s.cpuStatus c ≠ .halted)
    {exit : Exit} (unlocks : exit.Unlocks c s.kernel.lock) : (s.exit c exit).Sound := by
  have place := sound.place c
  rw [holds, Place.Fits] at place
  obtain ⟨held, missing⟩ := place
  -- Both ways out of the kernel release the lock once.
  have left : ∀ {t : Smp}, t.kernel.lock = (none, .release c :: s.kernel.lockOps) →
    ∀ pc : Pc, pc.place = .outside →
      t.pc = update s.pc c pc → (∀ d, d ≠ c → t.cpuStatus d = s.cpuStatus d) → t.entries = s.entries →
      pc.Agrees (t.cpuStatus c) → t.Sound := by
    intro t lock pc out there status entries agrees
    obtain ⟨unlocked, ops⟩ := Prod.mk.inj lock
    have replays : replay (.release c :: s.kernel.lockOps) = some none := if_pos (held ▸ sound.replays)
    have here : t.pc c = pc := by rw [there, update_self]
    refine sound.move c (by rw [ops, unlocked, replays]) (fun d other => ⟨?_, ?_⟩)
      (fun d other => ⟨?_, status d other, ?_⟩) ?_ (here ▸ agrees)
    · simp [unlocked, held, Ne.symm other]
    · simp [releases, ops, Ne.symm other]
    · rw [there, update_of_ne other]
    · rw [entries]
    · rw [here, out, Place.Fits, unlocked, entries]
      refine ⟨nofun, ?_⟩
      rw [← missing]
      simp [releases, ops]
  cases exit with
  | user k => exact left unlocks .popping rfl rfl (fun _ _ => rfl) rfl up
  | halted k =>
    exact left unlocks .halting rfl rfl (fun d other => update_of_ne other _ _) rfl (update_self ..)
  | monitor k => exact sound.go unlocks rfl (fun _ _ => ⟨rfl, rfl⟩) trivial trivial
  | panic why k => exact sound.go rfl rfl (fun _ _ => ⟨rfl, rfl⟩) trivial trivial

theorem gdKT_fromUser {tf : Trapframe} (kernel : tf.tfCs = gdKT) : tf.fromUser = false := by
  rw [Trapframe.fromUser, kernel]
  rfl

theorem advance_sound (sound : s.Sound) {hw : Inputs} (next : s.advance c hw = some t) : t.Sound := by
  have place := sound.place c
  have agrees := sound.agrees c
  unfold advance at next
  cases pc : s.pc c with
  | off | user | idle | popping | stopped =>
    rw [pc] at next
    cases next
  | init | ready =>
    rw [pc] at next agrees
    dsimp only at next
    exact sound.lockKernel next (by rw [pc]; rfl) rfl agrees
  | woken tf =>
    rw [pc] at next agrees
    dsimp only at next
    have holds : (Pc.checked tf).place = .holding := by simp [Pc.place, agrees.2]
    exact sound.lockKernel next (by rw [pc]; rfl) holds agrees.1
  | trapped tf =>
    rw [pc] at next agrees
    dsimp only at next
    exact sound.lockKernel next (by rw [pc]; rfl) rfl agrees.1
  | boot | halting =>
    rw [pc] at next place agrees
    cases next
    exact sound.go rfl rfl (fun _ _ => ⟨rfl, rfl⟩) place agrees
  | mpMain =>
    rw [pc] at next place agrees
    cases next
    exact sound.go rfl rfl (fun d other => ⟨update_of_ne other _ _, rfl⟩) place
      (by simp [Smp.go, Pc.Agrees])
  | checked tf =>
    rw [pc] at next place agrees
    cases next
    have same : (if tf.fromUser then Pc.trapped tf else .dispatch tf).place = (Pc.checked tf).place := by
      cases user : tf.fromUser <;> simp [Pc.place, user]
    refine sound.go rfl rfl (fun _ _ => ⟨rfl, rfl⟩) ?_ ?_
    · rw [same]
      exact place
    · split
      next user => exact ⟨agrees, user⟩
      · exact agrees
  | entered tf =>
    rw [pc] at next place agrees
    dsimp only at next
    split at next
    · cases next
      exact sound.go rfl rfl (fun _ _ => ⟨rfl, rfl⟩) trivial trivial
    · cases next
      refine sound.go rfl rfl (fun d other => ⟨update_of_ne other _ _, rfl⟩) ?_ ?_
      · split
        · exact place
        next running =>
          have user : tf.fromUser = true := by simpa using mt agrees.mpr running
          rw [show (Pc.checked tf).place = .waiting by simp [Pc.place, user]]
          exact place
      · have started : (update s.cpuStatus c CpuStatus.started c) ≠ .halted := by simp
        split
        next halted => exact ⟨started, agrees.mp halted⟩
        · exact started
  | sched =>
    rw [pc] at next agrees
    cases next
    exact sound.exit (by rw [pc]; rfl) agrees (Kernel.schedYield_unlocks _ c)
  | dispatch tf =>
    rw [pc] at next agrees
    cases next
    exact sound.exit (by rw [pc]; rfl) agrees (Kernel.trapLocked_unlocks _ c tf hw)

theorem Sound.kernel (sound : s.Sound) {k : Kernel} (same : k.lock = s.kernel.lock) :
    { s with kernel := k }.Sound := by
  obtain ⟨lock, ops⟩ := Prod.mk.inj same
  refine ⟨?_, fun c => ?_, sound.agrees⟩
  · rw [lock, ops, sound.replays]
  · rw [releases_congr (s := s) same]
    simp only [lock]
    exact sound.place c

theorem create_sound (sound : s.Sound) {type : EnvType} {segments : List Kernel.Proghdr} {entry : Word}
    (next : s.step (.create type segments entry) = some t) : t.Sound := by
  obtain ⟨boot, made⟩ := Option.ite_none_right_eq_some.mp next
  have creates := Kernel.envCreate_table (E := Exit.Lands fun _ => False) s.kernel type segments entry
  split at made
  next k done =>
    cases made
    rw [done] at creates
    obtain ⟨e, g, -, table⟩ := creates
    exact sound.kernel (by rw [table]; rfl)
  next exit failed =>
    cases made
    rw [failed] at creates
    -- It can only have been a panic.
    cases exit with
    | panic why k => exact sound.go rfl rfl (fun _ _ => ⟨rfl, rfl⟩) trivial trivial
    | user | halted | monitor => exact creates.elim

theorem trap_sound (sound : s.Sound) {tf : Trapframe} (guarded : s.pc c = .user → tf.fromUser = true)
    (next : s.step (.trap c tf) = some t) : t.Sound := by
  obtain ⟨can, same⟩ := Option.ite_none_right_eq_some.mp next
  cases same
  have place := sound.place c
  have agrees := sound.agrees c
  have entries : update s.entries c (s.entries c + 1) c = s.entries c + 1 := update_self ..
  have others : ∀ d, d ≠ c → s.cpuStatus d = s.cpuStatus d ∧
      update s.entries c (s.entries c + 1) d = s.entries d :=
    fun d other => ⟨rfl, update_of_ne other _ _⟩
  cases pc : s.pc c with
  | user =>
    rw [pc] at place agrees
    refine sound.go rfl rfl others ?_ ?_
    · exact ⟨place.1, by rw [place.2]; exact entries.symm⟩
    · exact iff_of_false agrees (by simp [guarded pc])
  | idle =>
    rw [pc] at place agrees
    have kernel : tf.fromUser = false := gdKT_fromUser (by simpa [canTrap, pc] using can)
    refine sound.go rfl rfl others ?_ ?_
    · exact ⟨place.1, by rw [place.2]; exact entries.symm⟩
    · exact iff_of_true agrees kernel
  | _ => simp [canTrap, pc] at can

theorem step_sound {e : SmpEvent} (sound : s.Sound) (guarded : s.Protected e)
    (next : s.step e = some t) : t.Sound := by
  cases e with
  | advance c hw => exact advance_sound sound next
  | create type segments entry => exact create_sound sound next
  | trap c tf => exact trap_sound sound guarded next
  | startap c =>
    obtain ⟨⟨-, -, off⟩, same⟩ := Option.ite_none_right_eq_some.mp next
    cases same
    have place := sound.place c
    have agrees := sound.agrees c
    rw [off] at place agrees
    have entries : update s.entries c (s.entries c + 1) c = s.entries c + 1 := update_self ..
    refine sound.go rfl rfl (fun d other => ⟨rfl, update_of_ne other _ _⟩) ?_ agrees
    exact ⟨place.1, by rw [place.2]; exact entries.symm⟩
  | pop c loads =>
    obtain ⟨popping, popped⟩ := Option.ite_none_right_eq_some.mp next
    have place := sound.place c
    have agrees := sound.agrees c
    rw [popping] at place agrees
    split at popped
    · cases popped
      exact sound.go rfl rfl (fun _ _ => ⟨rfl, rfl⟩) place agrees
    · cases popped
      exact sound.go rfl rfl (fun _ _ => ⟨rfl, rfl⟩) trivial trivial
  | world event =>
    cases event with
    | store d va value =>
      obtain ⟨-, stored⟩ := Option.ite_none_right_eq_some.mp next
      obtain ⟨k, stepped, same⟩ := Option.map_eq_some_iff.mp stored
      cases same
      apply sound.kernel
      rcases Kernel.step_table s.kernel stepped with ⟨x, entered, -⟩ | ⟨_, _, _, _, _, created, -⟩ |
        ⟨-, same⟩
      · cases entered
      · cases created
      · rw [same]
    | txDone i | rxDone i length =>
      cases next
      exact sound.kernel rfl
    | create | start | trap => cases next

theorem Started.sound (started : s.Started) : s.Sound := by
  obtain ⟨lock, ops⟩ := Prod.mk.inj started.unlocked
  have none : ∀ c, s.releases c = 0 := fun c => by rw [releases, ops]; rfl
  refine ⟨by rw [lock, ops]; rfl, fun c => ?_, fun c => ?_⟩
  · rw [started.pc, started.entries, lock, none]
    by_cases same : c = s.bootcpu <;> simp [same, Pc.place, Place.Fits]
  · rw [started.pc]
    by_cases same : c = s.bootcpu <;> simpa [same, Pc.Agrees] using started.status _

section Demo

instance (s : Smp) (e : SmpEvent) : Decidable (s.Protected e) :=
  match e with
  | .trap _ _ => inferInstanceAs (Decidable (_ → _))
  | .advance _ _ | .startap _ | .create _ _ _ | .pop _ _ | .world _ => .isTrue trivial

def demo : Smp where
  kernel := Kern.demo
  bootcpu := 0
  cpuStatus := fun c => if c = 0 then .started else .unused
  pc := fun c => if c = 0 then .init else .off
  panicstr := false
  vm86 := fun _ => false
  entries := fun c => if c = 0 then 1 else 0

theorem demo_started : demo.Started := by
  refine ⟨rfl, rfl, fun c => ?_, rfl⟩
  by_cases first : c = 0 <;> simp [demo, first]

def next (c : Nat) : SmpEvent := .advance c idleInputs

def started : List SmpEvent :=
  [next 0, .create .user [] 0x800020, .startap 1, next 1, next 0, next 0, .pop 0 true, next 1,
    next 1, next 1]

-- The program gives itself a frame with `FL_VM` set; then the timer interrupts it in a segment
-- whose number does not end in 3.
def virtual : List SmpEvent :=
  [.world (.store 0 0xeebfd03a 2), .trap 0 (callFrame 9 0 0xeebfd000 0 0), next 0, next 0, next 0,
    next 0, .pop 0 true, .trap 0 { userFrame 32 0 0 0 0 0 with tfCs := 0x1000 }, next 0,
    next 0, next 0]

end Demo

end Smp

end Jos.Kern
