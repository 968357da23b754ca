import Jos.Shared.Chain
import Jos.Shared.RefCount

namespace Jos.Shared

open Function

/-- Reference counters of `w` bits with an intrusive list of the free objects. -/
@[ext]
structure Ledger (P : Type) (w : Nat) where
  link : P → Option P
  head : Option P
  count : P → BitVec w

namespace Ledger

variable {P : Type} [DecidableEq P] {w : Nat}

def take (ledger : Ledger P w) (p : P) : Ledger P w :=
  { ledger with link := update ledger.link p none, head := ledger.link p }

def give (ledger : Ledger P w) (p : P) : Ledger P w :=
  { ledger with link := update ledger.link p ledger.head, head := some p }

def attach (ledger : Ledger P w) (p : P) : Ledger P w :=
  { ledger with count := update ledger.count p (ledger.count p + 1) }

def detach (ledger : Ledger P w) (p : P) : Ledger P w :=
  let dropped := { ledger with count := update ledger.count p (ledger.count p - 1) }
  if ledger.count p - 1 = 0 then dropped.give p else dropped

variable {S : Type} [Fintype S]

/-- The counters of the managed objects agree with the references that exist, up to the counters'
width; the free list holds exactly the unreferenced objects that nobody has just taken from it. -/
structure Balanced (ledger : Ledger P w) (target : S → Option P) (managed : P → Prop)
    (held free : List P) : Prop where
  chain : Chain ledger.link ledger.head free
  freeManaged : ∀ p ∈ free, managed p
  freeIff : ∀ p, managed p → (p ∈ free ↔ refs target p = 0 ∧ p ∉ held)
  counted : ∀ p, managed p → ledger.count p = BitVec.ofNat w (refs target p)
  unlinked : ∀ p, managed p → p ∉ free → ledger.link p = none
  targets : ∀ site p, target site = some p → managed p

namespace Balanced

variable {ledger : Ledger P w} {target : S → Option P} {managed : P → Prop} {held free : List P}

theorem free_refs (balanced : ledger.Balanced target managed held free) {p : P} (member : p ∈ free) :
    refs target p = 0 :=
  ((balanced.freeIff p (balanced.freeManaged p member)).mp member).1

theorem notMem_free (balanced : ledger.Balanced target managed held free) {site : S} {p : P}
    (refers : target site = some p) : p ∉ free := fun member =>
  refs_eq_zero.mp (balanced.free_refs member) site refers

theorem count_toNat (balanced : ledger.Balanced target managed held free) {p : P}
    (member : managed p) (bound : refs target p < 2 ^ w) : (ledger.count p).toNat = refs target p := by
  rw [balanced.counted p member, BitVec.toNat_ofNat, Nat.mod_eq_of_lt bound]

theorem take_head {p : P} {rest : List P} (balanced : ledger.Balanced target managed held (p :: rest)) :
    (ledger.take p).Balanced target managed (p :: held) rest := by
  have distinct := List.nodup_cons.mp balanced.chain.nodup
  refine ⟨balanced.chain.pop none, fun q member => balanced.freeManaged q (List.mem_cons_of_mem _ member),
    ?_, balanced.counted, ?_, balanced.targets⟩
  · intro q member
    have before := balanced.freeIff q member
    by_cases same : q = p
    · subst same
      simp [distinct.1]
    · simpa [same] using before
  · intro q member absent
    by_cases same : q = p
    · simp [take, same]
    · simpa [take, same] using balanced.unlinked q member (by simp [same, absent])

theorem give_held {p : P} (balanced : ledger.Balanced target managed (p :: held) free)
    (member : managed p) (unreferenced : refs target p = 0) (once : p ∉ held) :
    (ledger.give p).Balanced target managed held (p :: free) := by
  have absent : p ∉ free := fun inside => ((balanced.freeIff p member).mp inside).2 List.mem_cons_self
  refine ⟨balanced.chain.push absent, ?_, ?_, balanced.counted, ?_, balanced.targets⟩
  · intro q inside
    rcases List.mem_cons.mp inside with same | inside
    · exact same ▸ member
    · exact balanced.freeManaged q inside
  · intro q inside
    have before := balanced.freeIff q inside
    by_cases same : q = p
    · subst same
      simp [unreferenced, once]
    · simpa [same] using before
  · intro q inside outside
    simp only [List.mem_cons, not_or] at outside
    simpa [give, outside.1] using balanced.unlinked q inside outside.2

variable [DecidableEq S]

theorem attach_site {site : S} {p : P} {held' : List P}
    (balanced : ledger.Balanced target managed held free) (vacant : target site = none)
    (member : managed p) (absent : p ∉ free) (heldSame : ∀ q, q ≠ p → (q ∈ held' ↔ q ∈ held)) :
    (ledger.attach p).Balanced (update target site (some p)) managed held' free := by
  have grown := refs_attach vacant p
  refine ⟨balanced.chain, balanced.freeManaged, ?_, ?_, balanced.unlinked, ?_⟩
  · intro q inside
    have before := balanced.freeIff q inside
    by_cases same : q = p
    · subst same
      simp [absent, grown]
    · rw [before, grown, heldSame q same]
      simp [same]
  · intro q inside
    by_cases same : q = p
    · subst same
      simp [attach, grown, balanced.counted q inside, BitVec.ofNat_add]
    · simp [attach, same, grown, balanced.counted q inside]
  · intro other q refers
    by_cases same : other = site
    · subst same
      simp only [update_self, Option.some.injEq] at refers
      exact refers ▸ member
    · rw [update_of_ne same] at refers
      exact balanced.targets other q refers

theorem detach_site {site : S} {p : P} (balanced : ledger.Balanced target managed held free)
    (refers : target site = some p) (bound : refs target p < 2 ^ w) (once : p ∉ held) :
    (ledger.detach p).Balanced (update target site none) managed held
      (if refs target p = 1 then p :: free else free) := by
  have shrunk := refs_detach refers
  have member := balanced.targets site p refers
  have positive := refs_pos refers
  have absent := balanced.notMem_free refers
  have counted : ledger.count p - 1 = BitVec.ofNat w (refs target p - 1) := by
    rw [balanced.counted p member]
    apply BitVec.eq_of_toNat_eq
    obtain ⟨n, eq⟩ : ∃ n, refs target p = n + 1 := ⟨refs target p - 1, by omega⟩
    rw [eq, Nat.add_sub_cancel, BitVec.ofNat_add]
    simp
  have last : ledger.count p - 1 = 0 ↔ refs target p = 1 := by
    rw [counted, ← BitVec.toNat_inj, BitVec.toNat_ofNat, Nat.mod_eq_of_lt (by omega)]
    simp only [BitVec.ofNat_eq_ofNat, BitVec.toNat_ofNat, Nat.zero_mod]
    omega
  have targets : ∀ other q, update target site none other = some q → managed q := by
    intro other q found
    by_cases same : other = site
    · simp [same] at found
    · rw [update_of_ne same] at found
      exact balanced.targets other q found
  have counts : ∀ q, managed q →
      update ledger.count p (ledger.count p - 1) q =
        BitVec.ofNat w (refs (update target site none) q) := by
    intro q inside
    by_cases same : q = p
    · subst same
      have now := shrunk q
      simp only [if_true] at now
      rw [update_self, counted, ← now, Nat.add_sub_cancel]
    · have now := shrunk q
      simp only [same, if_false, Nat.add_zero] at now
      rw [update_of_ne same, now, balanced.counted q inside]
  by_cases one : refs target p = 1
  · have zero : refs (update target site none) p = 0 := by
      have now := shrunk p
      simp only [if_true] at now
      omega
    rw [detach, if_pos (last.mpr one), if_pos one]
    refine ⟨balanced.chain.push absent, ?_, ?_, counts, ?_, targets⟩
    · intro q inside
      rcases List.mem_cons.mp inside with same | inside
      · exact same ▸ member
      · exact balanced.freeManaged q inside
    · intro q inside
      have before := balanced.freeIff q inside
      have now := shrunk q
      by_cases same : q = p
      · subst same
        simp [zero, once]
      · simp only [same, if_false, Nat.add_zero] at now
        simpa [same, now] using before
    · intro q inside outside
      simp only [List.mem_cons, not_or] at outside
      simpa [give, outside.1] using balanced.unlinked q inside outside.2
  · rw [detach, if_neg (fun zero => one (last.mp zero)), if_neg one]
    refine ⟨balanced.chain, balanced.freeManaged, ?_, counts, balanced.unlinked, targets⟩
    intro q inside
    have before := balanced.freeIff q inside
    have now := shrunk q
    by_cases same : q = p
    · subst same
      simp only [if_true] at now
      simp only [absent, false_iff, not_and]
      omega
    · simp only [same, if_false, Nat.add_zero] at now
      rw [before, now]

end Balanced

end Ledger

end Jos.Shared
