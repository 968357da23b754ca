import Jos.Lib.PipeRefs

namespace Jos.Lib

open Jos.Shared
open Jos.Kern (Word)
open Function

variable {E : Type}

def Ours : Option Frame → Prop
  | some (.fd _) => True
  | some .pipe => True
  | _ => False

structure Sorted (m : Pages) : Prop where
  fd : ∀ i, m (.fd i) ≠ some .pipe
  data : ∀ i kind, m (.data i) ≠ some (.fd kind)

def Paired (m : Pages) : Prop := ∀ i kind, m (.fd i) = some (.fd kind) → m (.data i) = some .pipe

def Safe : Pages → List Place → Prop
  | _, [] => True
  | m, .fd i :: rest => Safe (unmap m (.fd i)) rest
  | m, .data i :: rest => (∀ kind, m (.fd i) ≠ some (.fd kind)) ∧ Safe (unmap m (.data i)) rest

def Fits (m : Pages) : Task E → Prop
  | .free => ∀ p, m p = none
  | .newborn => True
  | .undo _ => True
  | .pipeFd i => m (.fd i) = some (.fd .read)
  | .pipeFds i _ => m (.fd i) = some (.fd .read)
  | .pipeData i _ => m (.data i) = some .pipe
  | .idle => Paired m
  | .copy _ _ => Paired m
  | .unmap rest => Paired m ∧ Safe m rest
  | .dup _ new rest => Paired m ∧ Safe m rest ∧ rest.foldl unmap m (.fd new) = none
  | .dupFd old new => Paired m ∧ ∀ kind, m (.fd old) = some (.fd kind) → m (.data new) = some .pipe
  | .ask i => Paired m ∧ ∃ kind, m (.fd i) = some (.fd kind)
  | .asked i _ _ _ => Paired m ∧ ∃ kind, m (.fd i) = some (.fd kind)

def Task.creates : Task E → Option (List Place)
  | .pipeFd i => some [.fd i]
  | .pipeFds i j => some [.fd i, .fd j]
  | .pipeData i j => some [.fd i, .fd j, .data i]
  | .undo rest => some rest
  | _ => none

def Task.Single (t : Task E) : Prop := t ≠ .newborn ∧ ∀ child rest, t ≠ .copy child rest

def Partly (parent child : Pages) (rest : List Place) : Prop :=
  ∃ done, places = done ++ rest ∧ (∀ p ∈ done, child p = parent p) ∧ ∀ p ∈ rest, child p = none

theorem mem_places (p : Place) : p ∈ places := by
  cases p <;> simp [places]

theorem places_nodup : places.Nodup := by decide

theorem unmap_same (m : Pages) (p : Place) : unmap m p p = none := update_self ..

theorem unmap_apply (m : Pages) (p q : Place) : unmap m p q = if q = p then none else m q :=
  update_apply ..

theorem sorted_iff {m : Pages} : Sorted m ↔ (∀ i, m (.fd i) ≠ some .pipe) ∧
    ∀ i kind, m (.data i) ≠ some (.fd kind) :=
  ⟨fun ⟨fd, data⟩ => ⟨fd, data⟩, fun ⟨fd, data⟩ => ⟨fd, data⟩⟩

namespace Sorted

variable {m : Pages}

theorem set (sorted : Sorted m) {p : Place} {x : Option Frame} (fd : ∀ i, p = .fd i → x ≠ some .pipe)
    (data : ∀ i kind, p = .data i → x ≠ some (.fd kind)) : Sorted (update m p x) := by
  obtain ⟨fds, datas⟩ := sorted
  constructor <;> grind -linarith [update_apply]

theorem none : Sorted fun _ => none := ⟨fun _ => nofun, fun _ _ => nofun⟩

end Sorted

theorem Safe.unmap {m : Pages} {p : Place} {rest : List Place} (safe : Safe m (p :: rest))
    (paired : Paired m) : Paired (unmap m p) ∧ Safe (unmap m p) rest := by
  cases p with
  | fd i => exact ⟨by grind -linarith [Paired, unmap_apply], safe⟩
  | data i => exact ⟨by grind -linarith [Paired, Safe, unmap_apply], safe.2⟩

theorem Safe.fresh (m : Pages) (i : Fin 32) : Safe m [.fd i, .data i] := ⟨by simp [unmap_same], trivial⟩

theorem close_safe (m : Pages) (i : Fin 32) : Safe m (close m i) ∧
    (close m i).foldl unmap m (.fd i) = none := by
  unfold close
  split
  next here => exact ⟨trivial, here⟩
  · exact ⟨trivial, unmap_same ..⟩
  · refine ⟨⟨fun kind => ?_, trivial⟩, unmap_same ..⟩
    rw [unmap_same]
    nofun

theorem ours_update {m : Pages} {p q : Place} {x : Option Frame} (ours : Ours (update m p x q)) :
    q = p ∧ Ours x ∨ Ours (m q) := by
  grind -linarith [update_apply]

theorem fdAlloc_free {m : Pages} {i : Fin 32} (found : fdAlloc m = some i) : m (.fd i) = none := by
  simpa using List.find?_some found

namespace Envs

variable [DecidableEq E] {s s' : Envs E}

def Only (s : Envs E) (e : E) (ps : List Place) : Prop := ∀ f p, Ours (s.mem f p) → f = e ∧ p ∈ ps

structure Inv (s : Envs E) : Prop where
  sorted : ∀ e, Sorted (s.mem e)
  fits : ∀ e, Fits (s.mem e) (s.task e)
  creating : ∀ e ps, (s.task e).creates = some ps → s.born = true ∧ s.Only e ps
  unborn : s.born = false → ∀ e p, ¬ Ours (s.mem e p)
  copying : ∀ e child rest, s.task e = .copy child rest →
    s.task child = .newborn ∧ Partly (s.mem e) (s.mem child) rest
  newborn : ∀ child, s.task child = .newborn → ∃ e rest, s.task e = .copy child rest
  single : ∀ e f child rest rest', s.task e = .copy child rest → s.task f = .copy child rest' → e = f

namespace Inv

theorem start (first : E) : Inv (start first) := by
  have task : ∀ e, (Envs.start first).task e = .idle ∨ (Envs.start first).task e = .free := by
    grind -linarith [Envs.start]
  refine ⟨fun _ => Sorted.none, fun e => ?_, ?_, fun _ _ _ => id, ?_, ?_, ?_⟩
  · obtain here | here := task e <;> rw [here]
    · exact fun _ _ => nofun
    · exact fun _ => rfl
  all_goals grind -linarith [Task.creates]

omit [DecidableEq E] in
theorem congr (inv : Inv s) (mem : s'.mem = s.mem) (task : s'.task = s.task)
    (born : s'.born = s.born) : Inv s' := by
  obtain ⟨sorted, fits, creating, unborn, copying, newborn, single⟩ := inv
  constructor <;> simp only [Only, mem, task, born] at creating ⊢ <;> assumption

theorem place (inv : Inv s) {m : Pages} {t : Task E} {born : Bool} (before : (s.task s.current).Single)
    (after : t.Single) (sorted : Sorted m) (fits : Fits m t)
    (creating : ∀ e ps, ((s.set m t).task e).creates = some ps → born = true ∧ (s.set m t).Only e ps)
    (unborn : born = false → ∀ e p, ¬ Ours ((s.set m t).mem e p)) :
    Inv { s.set m t with born := born } := by
  obtain ⟨sorts, fitting, -, -, copying, newborn, single⟩ := inv
  obtain ⟨awake, alone⟩ := before
  obtain ⟨awake', alone'⟩ := after
  refine ⟨?_, ?_, creating, unborn, ?_, ?_, ?_⟩ <;> simp only [Envs.set, update_apply] <;> grind -linarith

theorem set (inv : Inv s) {m : Pages} {t : Task E} (before : (s.task s.current).Single) (after : t.Single)
    (sorted : Sorted m) (fits : Fits m t) (brings : ∀ p, Ours (m p) → ∃ q, Ours (s.mem s.current q))
    (creates : ∀ ps, t.creates = some ps → (s.task s.current).creates ≠ none ∧ ∀ p, Ours (m p) → p ∈ ps) :
    Inv (s.set m t) := by
  obtain ⟨-, -, creating, unborn, -, -, -⟩ := id inv
  have old : (s.task s.current).creates ≠ none → ∃ qs, (s.task s.current).creates = some qs :=
    Option.ne_none_iff_exists'.mp
  refine inv.place before after sorted fits (fun e ps => ?_) fun born f p => ?_
  all_goals
    simp only [Only, Envs.set, update_apply] at creating ⊢
    grind -linarith

theorem go_single [Fintype E] {flag : Bool} (inv : Inv s) (single : (s.task s.current).Single)
    (next : s.go flag = some s') : Inv s' := by
  obtain ⟨ps, old⟩ : ∃ ps, (s.task s.current).creates = ps := ⟨_, rfl⟩
  have only : ∀ qs, ps = some qs → ∀ p, Ours (s.mem s.current p) → p ∈ qs :=
    fun qs same p ours => ((inv.creating s.current qs (old.trans same)).2 s.current p ours).2
  have known : ∀ qs, ps = some qs → ∀ i kind, s.mem s.current (.fd i) = some (.fd kind) → .fd i ∈ qs :=
    fun qs same i kind fd => only qs same (.fd i) (by rw [fd]; trivial)
  have fits := inv.fits s.current
  obtain ⟨fds, datas⟩ := inv.sorted s.current
  have free := @fdAlloc_free (s.mem s.current)
  simp only [Envs.go] at next
  (repeat' split at next) <;> cases next <;> rename_i here
  any_goals exact absurd ‹s.task s.current = .copy _ _› (single.2 _ _)
  all_goals
    simp only [‹s.task s.current = _›, Fits, Task.creates, List.foldl_nil, List.foldl_cons] at fits old
    refine (inv.set single ?_ (sorted_iff.mpr ?_) ?_ ?_ ?_).congr rfl rfl rfl
    · exact ⟨nofun, nofun⟩
    · grind -linarith [unmap_apply, update_apply]
    · grind -linarith [Fits, Paired, Safe.unmap, Safe.fresh, unmap_apply, update_apply]
    · grind -linarith [Ours, unmap_apply, update_apply]
    · grind -linarith [Task.creates, Ours, unmap_apply, update_apply]

omit [DecidableEq E] in
theorem child_ne (inv : Inv s) {e child : E} {rest : List Place}
    (here : s.task e = .copy child rest) : child ≠ e := by
  rintro rfl
  rw [(inv.copying _ _ _ here).1] at here
  cases here

theorem copyPage (inv : Inv s) {child : E} {p : Place} {rest : List Place}
    (here : s.task s.current = .copy child (p :: rest)) : Inv { s with
      mem := update s.mem child (update (s.mem child) p (s.mem s.current p))
      task := update s.task s.current (.copy child rest) } := by
  have differ := inv.child_ne here
  obtain ⟨born, done, all, copied, none_⟩ := inv.copying _ child _ here
  have partly : Partly (s.mem s.current) (update (s.mem child) p (s.mem s.current p)) rest := by
    have distinct : (done ++ p :: rest).Nodup := all ▸ places_nodup
    refine ⟨done ++ [p], by rw [all]; simp, ?_, ?_⟩ <;> grind -linarith [update_apply]
  have from_ : ∀ q, Ours (update (s.mem child) p (s.mem s.current p) q) →
      Ours (s.mem s.current p) ∨ Ours (s.mem child q) :=
        fun q ours => (ours_update ours).imp_left And.right
  have sorts : Sorted (update (s.mem child) p (s.mem s.current p)) := by
    refine (inv.sorted child).set ?_ ?_
    · rintro i rfl; exact (inv.sorted s.current).fd i
    · rintro i kind rfl; exact (inv.sorted s.current).data i kind
  obtain ⟨sorted, fits, creating, unborn, copying, newborn, single⟩ := inv
  constructor <;> simp only [Only, update_apply] at creating ⊢
  case fits =>
    have own := fits s.current
    have kid := fits child
    rw [here] at own
    rw [born] at kid
    grind -linarith [Fits]
  all_goals grind -linarith [Task.creates]

omit [DecidableEq E] in
theorem pages_of_partly {m m' : Pages} (partly : Partly m m' []) : m' = m := by
  obtain ⟨done, all, same, -⟩ := partly
  funext p
  have inside := mem_places p
  rw [all, List.append_nil] at inside
  exact same p inside

theorem copied (inv : Inv s) {child : E} (here : s.task s.current = .copy child []) :
    Inv { s with task := update (update s.task s.current .idle) child .idle } := by
  have differ := inv.child_ne here
  obtain ⟨born, partly⟩ := inv.copying _ child _ here
  have same := pages_of_partly partly
  have paired : Paired (s.mem s.current) := by
    have fits := inv.fits s.current
    rwa [here] at fits
  obtain ⟨sorted, fits, creating, unborn, copying, newborn, single⟩ := inv
  constructor <;> simp only [Only, update_apply] at creating ⊢
  case fits => grind -linarith [Fits]
  all_goals grind -linarith [Task.creates]

theorem fork (inv : Inv s) {child : E} (here : s.task s.current = .idle) (free : s.task child = .free) :
    Inv { s with task := update (update s.task s.current (.copy child places)) child .newborn } := by
  have paired : Paired (s.mem s.current) := by
    have fits := inv.fits s.current
    rwa [here] at fits
  have partly : Partly (s.mem s.current) (s.mem child) places := by
    have nothing := inv.fits child
    rw [free] at nothing
    exact ⟨[], rfl, nofun, fun p _ => nothing p⟩
  obtain ⟨sorted, fits, creating, unborn, copying, newborn, single⟩ := inv
  constructor <;> simp only [Only, update_apply] at creating ⊢
  case fits => grind -linarith [Fits]
  all_goals grind -linarith [Task.creates]

theorem go_copy [Fintype E] {flag : Bool} (inv : Inv s) {child : E} {rest : List Place}
    (here : s.task s.current = .copy child rest) (next : s.go flag = some s') : Inv s' := by
  have differ := inv.child_ne here
  cases rest with
  | nil =>
    simp only [go, here] at next
    obtain rfl := Option.some.inj next
    refine (inv.copied here).congr ?_ rfl rfl
    exact update_eq_self ..
  | cons p rest =>
    simp only [go, here] at next
    split at next <;> obtain rfl := Option.some.inj next
    next f mapped =>
      refine (inv.copyPage here).congr ?_ rfl rfl
      simp [trap, Envs.set, mapped]
    next absent =>
      have unmapped : s.mem child p = none := by
        obtain ⟨-, -, -, -, none_⟩ := inv.copying _ child _ here
        exact none_ p List.mem_cons_self
      refine (inv.copyPage here).congr ?_ rfl rfl
      simp [Envs.set, absent, ← unmapped]

theorem go [Fintype E] {flag : Bool} (inv : Inv s) (next : s.go flag = some s') : Inv s' := by
  by_cases copies : ∃ child rest, s.task s.current = .copy child rest
  · obtain ⟨child, rest, here⟩ := copies
    exact inv.go_copy here next
  · refine inv.go_single ⟨fun here => ?_, fun child rest here => copies ⟨child, rest, here⟩⟩ next
    simp [Envs.go, here] at next

theorem pipe (inv : Inv s) {i : Fin 32} (idle : s.task s.current = .idle) (unborn : s.born = false) :
    Inv { s.set (update (s.mem s.current) (.fd i) (some (.fd .read))) (.pipeFd i) with
      born := true } := by
  have single : (s.task s.current).Single := by
    rw [idle]
    exact ⟨nofun, nofun⟩
  have sorted := (inv.sorted s.current).set (p := .fd i) (x := some (.fd .read)) (fun _ _ => nofun) nofun
  refine inv.place single ⟨nofun, nofun⟩ sorted (update_self ..) (fun e ps => ?_) nofun
  obtain ⟨-, -, creating, none_, -, -, -⟩ := inv
  simp only [Only, Envs.set, update_apply]
  grind -linarith [Task.creates]

theorem step [Fintype E] {event : EnvEvent E} (inv : Inv s) (next : s.step event = some s') : Inv s' := by
  have idle : s.task s.current = .idle → (s.task s.current).Single ∧ Paired (s.mem s.current) := by
    intro idle
    have fits := inv.fits s.current
    rw [idle] at fits ⊢
    exact ⟨⟨nofun, nofun⟩, fits⟩
  obtain ⟨fds, datas⟩ := inv.sorted s.current
  have closes := close_safe (s.mem s.current)
  cases event with
  | go flag => exact inv.go next
  | run e =>
    simp only [Envs.step] at next
    split at next <;> cases next
    exact inv.congr rfl rfl rfl
  | pipe =>
    simp only [Envs.step] at next
    (repeat' split at next) <;> cases next
    exact (inv.pipe ‹_› ‹_›).congr rfl rfl rfl
  | fork child =>
    simp only [Envs.step] at next
    (repeat' split at next) <;> cases next
    exact (inv.fork ‹_› ‹_›).congr (update_eq_self ..) rfl rfl
  | _ =>
    simp only [Envs.step] at next
    (repeat' split at next) <;> cases next
    all_goals
      obtain ⟨single, paired⟩ := idle ‹_›
      refine (inv.set single ?_ (sorted_iff.mpr ?_) ?_ ?_ ?_).congr rfl rfl rfl
      · exact ⟨nofun, nofun⟩
      all_goals grind -linarith [Fits, Paired, Ours, Task.creates, update_apply]

end Inv

end Envs

end Jos.Lib
