import Jos.Lib.PipeTables

namespace Jos.Lib

open Jos.Shared
open Jos.Kern (Word)
open Function

def isFd : Option Frame → Bool
  | some (.fd _) => true
  | _ => false

def Place.toData : Place → Place
  | .fd i => .data i
  | .data i => .data i

namespace Envs

variable {E : Type} [Fintype E] [DecidableEq E] {s s' : Envs E}

-- A `fork` or `spawn` of this environment has mapped a descriptor of the pipe in the child, but not
-- yet the data page that goes with it.
def window (s : Envs E) (e : E) : Bool :=
  match s.task e with
  | .copy child rest => decide (∃ i, isFd (s.mem child (.fd i)) ∧ .data i ∈ rest)
  | _ => false

def Settled (s : Envs E) : Prop := ∀ e, (s.task e).creates = none ∧ s.window e = false

-- A `fork` is not interrupted inside its window, and no count of runs overflows.
def Calm (s : Envs E) (event : EnvEvent E) : Prop :=
  (∀ e, s.runs e ≠ BitVec.allOnes 32) ∧ ∀ e, event = .run e → e = s.current ∨ s.window s.current = false

omit [Fintype E] [DecidableEq E] in
theorem Inv.paired (inv : Inv s) (settled : s.Settled) (e : E) : Paired (s.mem e) := by
  have fits := inv.fits e
  cases here : s.task e with
  | free =>
    rw [here] at fits
    exact fun i kind fd => absurd ((fits (.fd i)).symm.trans fd) nofun
  | newborn =>
    obtain ⟨parent, rest, copies⟩ := inv.newborn e here
    obtain ⟨-, done, all, same, none_⟩ := inv.copying parent e rest copies
    have paired := inv.fits parent
    rw [copies] at paired
    intro i kind fd
    have split : ∀ p, p ∈ done ∨ p ∈ rest := fun p => List.mem_append.mp (all ▸ mem_places p)
    have fd_done : .fd i ∈ done := by
      refine (split (.fd i)).resolve_right fun inside => ?_
      exact absurd ((none_ _ inside).symm.trans fd) nofun
    have data_done : .data i ∈ done := by
      refine (split (.data i)).resolve_right fun inside => ?_
      have open_ : s.window parent = true := by
        simp only [window, copies, decide_eq_true_eq]
        exact ⟨i, by rw [fd]; rfl, inside⟩
      exact absurd ((settled parent).2.symm.trans open_) nofun
    rw [same _ data_done]
    rw [same _ fd_done] at fd
    exact paired i kind fd
  | idle => rw [here] at fits; exact fits
  | copy child rest => rw [here] at fits; exact fits
  | unmap rest => rw [here] at fits; exact fits.1
  | dup old new rest => rw [here] at fits; exact fits.1
  | dupFd old new => rw [here] at fits; exact fits.1
  | ask i => rw [here] at fits; exact fits.1
  | asked i n f d => rw [here] at fits; exact fits.1
  | _ =>
    have creates := (settled e).1
    rw [here] at creates
    cases creates

theorem Inv.refs_le (inv : Inv s) (paired : ∀ e, Paired (s.mem e)) :
    s.refs (.fd .read) + s.refs (.fd .write) ≤ s.refs .pipe := by
  have apart : Disjoint (Finset.univ.filter fun q : E × Place => s.mem q.1 q.2 = some (.fd .read))
      (Finset.univ.filter fun q : E × Place => s.mem q.1 q.2 = some (.fd .write)) := by
    refine Finset.disjoint_filter.mpr fun q _ first second => ?_
    exact absurd (first.symm.trans second) (by simp)
  have descriptor : ∀ q : E × Place,
    q ∈ (Finset.univ.filter fun q : E × Place => s.mem q.1 q.2 = some (.fd .read)) ∪
      (Finset.univ.filter fun q : E × Place => s.mem q.1 q.2 = some (.fd .write)) →
      ∃ i kind, q.2 = .fd i ∧ s.mem q.1 (.fd i) = some (.fd kind) := by
    rintro ⟨e, p⟩ inside
    have shown : ∃ kind, s.mem e p = some (.fd kind) := by
      rcases Finset.mem_union.mp inside with here | here
      · exact ⟨.read, (Finset.mem_filter.mp here).2⟩
      · exact ⟨.write, (Finset.mem_filter.mp here).2⟩
    obtain ⟨kind, here⟩ := shown
    cases p with
    | fd i => exact ⟨i, kind, rfl, here⟩
    | data i => exact absurd here ((inv.sorted e).data i kind)
  unfold refs
  rw [← Finset.card_union_of_disjoint apart]
  refine Finset.card_le_card_of_injOn (fun q => (q.1, q.2.toData)) (fun q inside => ?_) ?_
  · obtain ⟨i, kind, place, here⟩ := descriptor q inside
    simp only [Finset.coe_filter, Finset.mem_univ, true_and, Set.mem_ofPred_eq, place, Place.toData]
    exact paired q.1 i kind here
  · rintro ⟨e, p⟩ first ⟨f, q⟩ second same
    obtain ⟨i, -, rfl, -⟩ := descriptor _ first
    obtain ⟨j, -, rfl, -⟩ := descriptor _ second
    simpa [Place.toData] using same

structure Acts (s s' : Envs E) : Prop where
  awake : s.task s.current ≠ .newborn
  current : s'.current = s.current
  runs : ∀ e, e ≠ s.current → s'.runs e = s.runs e
  task : ∀ e, e ≠ s.current → s'.task e = s.task e ∨ s'.task e = .idle ∨ s'.task e = .newborn
  mem : ∀ e, e ≠ s.current → s'.mem e = s.mem e ∨ ∃ rest, s.task s.current = .copy e rest
  -- A load in `_pipeisclosed` is not a system call.
  asked : ∀ i n f d, s'.task s.current = .asked i n f d → s'.mem = s.mem ∧ s'.runs = s.runs ∧
    (n = s.runs s.current ∧ f = none ∧ d = none ∨ ∃ f' d', s.task s.current = .asked i n f' d' ∧
      (f = f' ∨ f = some (s.pageref s.current (.fd i))) ∧
        (d = d' ∨ d = some (s.pageref s.current (.data i))))

theorem Acts.step {event : EnvEvent E} (inv : Inv s) (own : ∀ e, event ≠ .run e)
    (next : s.step event = some s') : Acts s s' := by
  have differ := fun child rest (here : s.task s.current = .copy child rest) => inv.child_ne here
  cases event with
  | run e => exact absurd rfl (own e)
  | _ =>
    simp only [Envs.step, Envs.go] at next
    (repeat' split at next) <;> cases next <;> constructor <;>
      (try simp only [Envs.set, Envs.trap, update_apply]) <;> grind [update_eq_self]

structure Watch (s : Envs E) : Prop where
  still : ∀ e, e ≠ s.current → s.window e = false
  asked : ∀ e i n f d, s.task e = .asked i n f d → n.toNat ≤ (s.runs e).toNat ∧
    (e = s.current → s.runs e = n → (∀ x, f = some x → x = s.pageref e (.fd i)) ∧ ∀ x, d = some x →
    x = s.pageref e (.data i))

namespace Watch

theorem start (first : E) : Watch (start first) where
  still e differ := by
    have here : (Envs.start first).task e = .free := if_neg differ
    rw [window, here]
  asked e i n f d here := by
    have here : (if e = first then Task.idle else .free) = .asked i n f d := here
    split at here <;> cases here

theorem acts (watch : Watch s) (inv : Inv s) (acts : Acts s s') : Watch s' where
  still e differ := by
    rw [acts.current] at differ
    have before := watch.still e differ
    unfold window at before ⊢
    obtain same | idle | newborn := acts.task e differ
    · cases here : s.task e with
      | copy child rest =>
        -- The child belongs to somebody else.
        have alone : s'.mem child = s.mem child := by
          have child_ne : child ≠ s.current := fun own => acts.awake (own ▸ (inv.copying e _ rest here).1)
          refine (acts.mem child child_ne).resolve_right fun ⟨rest', mine⟩ => ?_
          exact differ (inv.single _ _ _ _ _ here mine)
        simpa only [same, here, alone] using before
      | _ => simp only [same, here]
    · rw [idle]
    · rw [newborn]
  asked e i n f d here := by
    have old := watch.asked e
    have refs : s'.mem = s.mem → s'.pageref e = s.pageref e := fun same => by
      funext p
      simp only [pageref, refs, same]
    obtain ⟨-, current, runs, task, -, asked⟩ := acts
    by_cases own : e = s.current
    · subst own
      obtain ⟨mem, runs, values⟩ := asked i n f d here
      rw [refs mem, runs]
      grind
    · have runs := runs e own
      have task := task e own
      grind

theorem run (watch : Watch s) {e : E} (calm : s.Calm (.run e)) : Watch { s with current := e }.trap where
  still f differ := by
    have before := watch.still f
    have last := calm.2 e rfl
    change s.window f = false
    change f ≠ e at differ
    grind
  asked f i n x d here := by
    have low := (watch.asked f i n x d here).1
    by_cases same : f = e
    · subst same
      have more : (s.runs f + 1).toNat = (s.runs f).toNat + 1 := by
        have last : (s.runs f).toNat ≠ 2 ^ 32 - 1 := fun same =>
          calm.1 f (BitVec.eq_of_toNat_eq (by rw [same, BitVec.toNat_allOnes]))
        rw [BitVec.toNat_add, show (1 : Word).toNat = 1 from rfl]
        omega
      have now : ({ s with current := f } : Envs E).trap.runs f = s.runs f + 1 := update_self ..
      rw [now]
      refine ⟨by omega, fun _ again => ?_⟩
      rw [← again] at low
      omega
    · have now : ({ s with current := e } : Envs E).trap.runs f = s.runs f := update_of_ne same ..
      rw [now]
      exact ⟨low, fun current => absurd current same⟩

end Watch

theorem inv_of_run {first : E} {events : List (EnvEvent E)} (run : Run step Calm (start first) events s) :
    Inv s ∧ Watch s := by
  refine run.invariant (motive := fun s => Inv s ∧ Watch s) ⟨Inv.start first, Watch.start first⟩ ?_
  rintro s event t ⟨inv, watch⟩ calm next
  refine ⟨inv.step next, ?_⟩
  by_cases runs : ∃ e, event = .run e
  · obtain ⟨e, rfl⟩ := runs
    simp only [step] at next
    split at next
    · cases next
    · obtain rfl := Option.some.inj next
      exact watch.run calm
  · exact watch.acts inv (Acts.step inv (fun e same => runs ⟨e, same⟩) next)

theorem settled_of_asking (inv : Inv s) (watch : Watch s) {i : Fin 32} {n : Word} {f d : Option Nat}
    (here : s.task s.current = .asked i n f d) : s.Settled := by
  intro e
  by_cases own : e = s.current
  · subst own
    rw [window, here]
    exact ⟨rfl, rfl⟩
  · refine ⟨?_, watch.still e own⟩
    cases creates : (s.task e).creates with
    | none => rfl
    | some ps =>
      have fits := inv.fits s.current
      rw [here] at fits
      obtain ⟨-, kind, fd⟩ := fits
      have ours : Ours (s.mem s.current (.fd i)) := by
        rw [fd]
        trivial
      exact absurd ((inv.creating e ps creates).2 _ _ ours).1.symm own

theorem closed_is_closed (first : E) (events : List (EnvEvent E)) (s : Envs E)
    (run : Run step Calm (start first) events s) :
    (s.Settled → s.refs (.fd .read) + s.refs (.fd .write) ≤ s.refs .pipe) ∧
      ∀ i kind, s.answer = some (i, true) → s.mem s.current (.fd i) = some (.fd kind) →
        ∀ e p, s.mem e p ≠ some (.fd kind.opposite) := by
  obtain ⟨inv, watch⟩ := inv_of_run run
  refine ⟨fun settled => inv.refs_le (inv.paired settled), fun i kind yes fd e p other => ?_⟩
  unfold answer at yes
  split at yes
  next i' n f d here =>
    split at yes
    next current =>
      obtain ⟨rfl, same⟩ := Prod.mk.inj (Option.some.inj yes)
      obtain ⟨fdRefs, dataRefs⟩ := (watch.asked _ _ _ _ _ here).2 rfl current.symm
      have settled := settled_of_asking inv watch here
      have paired := inv.paired settled
      have bound := inv.refs_le paired
      have equal : s.refs (.fd kind) = s.refs .pipe := by
        have first := fdRefs f rfl
        have second := dataRefs d rfl
        rw [pageref, fd] at first
        rw [pageref, paired _ _ _ fd] at second
        exact first.symm.trans ((of_decide_eq_true same).trans second)
      have some_ : 0 < s.refs (.fd kind.opposite) := Finset.card_pos.mpr ⟨(e, p), by simpa using other⟩
      cases kind <;> simp only [PipeEnd.opposite] at some_ <;> omega
    · cases yes
  · cases yes

instance (s : Envs E) (event : EnvEvent E) : Decidable (s.Calm event) :=
  match event with
  | .run e =>
    decidable_of_iff ((∀ e, s.runs e ≠ BitVec.allOnes 32) ∧
      (e = s.current ∨ s.window s.current = false)) ⟨fun h =>
      ⟨h.1, fun _ same => by cases same; exact h.2⟩, fun h => ⟨h.1, h.2 e rfl⟩⟩
  | .go _ | .pipe | .close _ | .dup _ _ | .fork _ | .exit | .pipeisclosed _ | .other _ _ =>
    decidable_of_iff (∀ e, s.runs e ≠ BitVec.allOnes 32) ⟨fun h => ⟨h, fun _ => nofun⟩, And.left⟩

def create : List (EnvEvent E) := [.pipe, .go true, .go true, .go true]

def forkWhole (child : E) : List (EnvEvent E) := .fork child :: List.replicate 65 (.go true)

def closeWhole (i : Fin 32) : List (EnvEvent E) := [.close i, .go true, .go true, .go true, .go true]

def askWhole (i : Fin 32) : List (EnvEvent E) := [.pipeisclosed i, .go true, .go true, .go false]

def bothClose : List (EnvEvent Bool) :=
  List.flatten [create, forkWhole true, closeWhole 1, [.run true], closeWhole 1, askWhole 0]

theorem closed_is_closed_both : ∃ s : Envs Bool, Run step Calm (start false) bothClose s ∧
    s.answer = some (0, true) ∧ ∀ e p, s.mem e p ≠ some (.fd .write) := by
  refine Run.of_exec_imp
    (p := fun s => s.answer = some (0, true) ∧ s.mem s.current (.fd 0) = some (.fd .read))
    (by decide +kernel) ?_
  rintro s run ⟨answer, fd⟩
  exact ⟨answer, (closed_is_closed _ _ s run).2 0 .read answer fd⟩

-- The child of an earlier fork, which has closed its write end, asks when the next fork has mapped
-- only the first page.
def askInside : List (EnvEvent (Fin 3)) :=
  List.flatten [create, forkWhole 1, [.run 1], closeWhole 1, [.run 0, .fork 2, .go true, .run 1],
    askWhole 0]

-- A fork is interrupted after it has mapped the read end in the child. Another environment is told
-- that the pipe is closed, though the parent has the write end open.
theorem open_looks_closed : ∃ s : Envs (Fin 3), Run step (fun _ _ => True) (start 0) askInside s ∧
    s.refs .pipe < s.refs (.fd .read) + s.refs (.fd .write) ∧
    s.answer = some (0, true) ∧ s.mem s.current (.fd 0) = some (.fd .read) ∧
    s.mem 0 (.fd 1) = some (.fd .write) :=
  Run.of_exec_any (by decide +kernel)

end Envs

end Jos.Lib
