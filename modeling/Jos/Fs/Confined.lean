import Jos.Fs.Requests

namespace Jos.Fs

open Jos.Shared
open Jos.Kern (Word Byte)

namespace Image

variable {m m' : Image} {f : FilePtr} {n : Nat}

def Held (m : Image) (f : FilePtr) (n : Nat) : Prop := ∃ c, Cell.ofBlock n = some c ∧ m.cell f c ≠ 0

def Denied (m : Image) (f : FilePtr) (n : Nat) : Prop :=
  ∀ c, Cell.ofBlock n = some c → m.cell f c = 0 ∧ m.Full

theorem Held.not_denied (held : m.Held f n) : ¬m.Denied f n := by
  obtain ⟨c, place, linked⟩ := held
  exact fun denied => linked (denied c place).1

def Taken (m m' : Image) : Prop := ∃ p < 32768, m.free p = true ∧ m'.free p = false

theorem Taken.ne (taken : m.Taken m') : m' ≠ m := by
  rintro rfl
  obtain ⟨p, -, free, used⟩ := taken
  rw [free] at used
  cases used

theorem Taken.of_extends {stale : Set FilePtr} {m'' : Image} (taken : m'.Taken m'')
    (ext : m.Extends m' stale) : m.Taken m'' := by
  obtain ⟨p, inside, free, used⟩ := taken
  exact ⟨p, inside, ext.free p inside free, used⟩

end Image

namespace FsM

variable {v v' : Volume} {f : FilePtr} {n : Nat} {r : Except Errno Nat} {c : Cell} {p : Nat}

theorem attach_taken (inv : v.mem.Inv ∅) (can : v.mem.Attaches ∅ False f c p) :
    v.mem.Taken (v.attach f c p).mem ∧ ¬v.mem.Full := by
  have top := inv.small.high
  have inside := can.inside
  refine ⟨⟨p, by omega, can.free, ?_⟩, fun full => ?_⟩
  · show (v.mem.attach f c p).free p = false
    rw [Image.free_attach inv can (by omega)]
    simp
  · have used := full p can.high inside
    rw [can.free] at used
    cases used

theorem Gets.cases (inv : v.mem.Inv ∅) (gets : Gets v ∅ False f n r v') :
    v.mem.Held f n ∧ v' = v ∧ (∃ blk, r = .ok blk) ∨ v.mem.Denied f n ∧ v' = v ∧ (∃ e, r = .error e) ∨
      (¬v.mem.Held f n ∧ ¬v.mem.Denied f n) ∧ v.mem.Taken v'.mem := by
  have missing : ∀ {c}, Cell.ofBlock n = some c → v.mem.cell f c = 0 → ¬v.mem.Full →
      ¬v.mem.Held f n ∧ ¬v.mem.Denied f n := by
    intro c place hole space
    refine ⟨?_, fun denied => space (denied c place).2⟩
    rintro ⟨c', place', linked⟩
    rw [place, Option.some.injEq] at place'
    exact linked (place' ▸ hole)
  cases gets with
  | outside none =>
    refine .inr (.inl ⟨fun c place => ?_, rfl, _, rfl⟩)
    rw [none] at place
    cases place
  | present place linked => exact .inl ⟨⟨_, place, linked⟩, rfl, _, rfl⟩
  | full place hole full =>
    refine .inr (.inl ⟨fun c place' => ?_, rfl, _, rfl⟩)
    rw [place, Option.some.injEq] at place'
    exact ⟨place' ▸ hole, full⟩
  | attached place can =>
    obtain ⟨taken, space⟩ := attach_taken inv can
    exact .inr (.inr ⟨missing place can.vacant space, taken⟩)
  | half place can _ =>
    obtain ⟨taken, space⟩ := attach_taken inv can
    exact .inr (.inr ⟨missing place (if_pos can.vacant) space, taken⟩)
  | both place can can' =>
    obtain ⟨-, space⟩ := attach_taken inv can
    obtain ⟨taken, -⟩ := attach_taken (Image.attach_inv inv can) can'
    exact .inr (.inr ⟨missing place (if_pos can.vacant) space,
      taken.of_extends (Image.attach_extends inv can)⟩)

section Get

variable (order : v.mem.InOrder) (slot : v.mem.Slot f) (named : v.mem.Named f)
include order slot named

theorem get_held (held : v.mem.Held f n) :
    ∃ blk, Does (fileGetBlock f n) v (.ok blk) v ∧ 3 ≤ blk ∧ v.mem.Valid blk := by
  have room : v.mem.Neat False f → n < Image.blocksOf (v.mem.size f) := by
    intro neat
    obtain ⟨c, place, linked⟩ := held
    by_contra behind
    exact linked ((order.trim f slot neat).2 n c place (by omega))
  obtain ⟨r, v', does, gets⟩ := fileGetBlock_does order.inv slot (Set.notMem_empty f) named room
  obtain ⟨c, place, linked⟩ := held
  rcases gets.cases order.inv with ⟨-, rfl, blk, rfl⟩ | ⟨denied, -⟩ | ⟨⟨missing, -⟩, -⟩
  · refine ⟨blk, does, ?_⟩
    obtain ⟨c', place', target, linked'⟩ := gets.linked order.inv slot
    rw [← target]
    exact order.inv.range f c' slot (.of_mem (Set.notMem_empty f)) (by rw [target]; exact linked')
  · exact absurd (denied c place).1 linked
  · exact absurd ⟨c, place, linked⟩ missing

theorem get_cases (room : v.mem.type f = ftypeDir → n < Image.blocksOf (v.mem.size f)) :
    v.mem.Held f n ∧ (∃ blk, Does (fileGetBlock f n) v (.ok blk) v ∧ v.mem.Valid blk) ∨
    v.mem.Denied f n ∧ (∃ e, Does (fileGetBlock f n) v (.error e) v) ∨
    (¬v.mem.Held f n ∧ ¬v.mem.Denied f n) ∧ ∃ r v', Does (fileGetBlock f n) v r v' ∧ v.mem.Taken v'.mem ∧
      v.mem.Extends v'.mem ∅ ∧ v'.mem.InOrder ∧ ∀ blk, r = .ok blk → v'.mem.Valid blk := by
  obtain ⟨r, v', does, gets⟩ := fileGetBlock_does order.inv slot (Set.notMem_empty f) named
    fun neat => room (neat.resolve_left id)
  rcases gets.cases order.inv with ⟨held, -⟩ | ⟨denied, rfl, e, rfl⟩ | ⟨neither, taken⟩
  · obtain ⟨blk, got, -, valid⟩ := get_held order slot named held
    exact .inl ⟨held, blk, got, valid⟩
  · exact .inr (.inl ⟨denied, e, does⟩)
  · have growth := gets.growth
    have ext := Volume.Growth.extends growth order.inv
    have inv' := Volume.Growth.inv growth order.inv
    refine .inr
      (.inr ⟨neither, r, v', does, taken, ext,
      ⟨inv', Volume.Growth.trim growth order.inv order.trim⟩, ?_⟩)
    rintro blk rfl
    obtain ⟨c, -, target, linked⟩ := gets.linked order.inv slot
    rw [← target]
    exact (inv'.range f c (ext.slot f slot) (.of_mem (Set.notMem_empty f))
      (by rw [target]; exact linked)).2

end Get

theorem direct_walks (i : Fin 10) : Does (fileBlockWalk f i true) v (.ok (f.block, f.fDirect i)) v := by
  rw [fileBlockWalk, if_neg (by simp only [ndirect, nindirect]; omega),
    if_pos (show i.val < ndirect from i.isLt)]
  exact .pure _ _

-- The direct pointers of `f` can be followed and set, whatever its size is.
structure Usable (m : Image) (f : FilePtr) : Prop where
  small : m.Small
  valid : m.Valid f.block
  bitmap : f.block ≠ 2
  super : ∀ i : Fin 10, f.block = 1 → f.fDirect i ≠ 1
  range : ∀ i, m.cell f (.direct i) ≠ 0 → 3 ≤ m.cell f (.direct i) ∧ m.Valid (m.cell f (.direct i))

theorem Usable.of_inv {m : Image} (inv : m.Inv ∅) (slot : m.Slot f) : Usable m f where
  small := inv.small
  valid := slot.valid inv
  bitmap := (inv.away_bitmap f slot).1
  super i := (Image.loc_valid (c := .direct i) inv slot (by rintro _ ⟨⟩)).2.2
  range i linked := inv.range f _ slot (.of_mem (Set.notMem_empty f)) linked

theorem Usable.resize {m : Image} (inv : m.Inv ∅) (slot : m.Slot f) (size : Word) :
    Usable (m.resize f size) f := by
  have same := Image.sameBitmap_put inv slot size 32
  have usable := Usable.of_inv inv slot
  refine ⟨same.small inv.small, same.valid inv.small usable.valid, usable.bitmap, usable.super,
    fun i linked => ?_⟩
  rw [Image.cell_resize inv slot size slot] at linked ⊢
  exact ⟨(usable.range i linked).1, same.valid inv.small (usable.range i linked).2⟩

theorem get_direct (usable : Usable v.mem f) (i : Fin 10) (hole : v.mem.cell f (.direct i) = 0) :
    v.mem.Full ∧ Does (fileGetBlock f i) v (.error .noDisk) v ∨
    ¬v.mem.Full ∧ ∃ p v', Does (fileGetBlock f i) v (.ok p) v' ∧ v.mem.Taken v'.mem ∧ v'.mem.Small ∧
    3 ≤ p := by
  have valid := usable.valid
  have bitmap := usable.bitmap
  have super := usable.super i
  have loaded : Does (load f.block (f.fDirect i)) v (v.mem f.block (f.fDirect i)) v :=
    load_does usable.small valid _
  have zero : v.mem f.block (f.fDirect i) = 0 := BitVec.eq_of_toNat_eq hole
  rcases allocFor_runs usable.small valid bitmap super with ⟨full, does⟩ | ⟨p, ⟨high, inside, free⟩, does⟩
  · refine .inl ⟨full, .bind (direct_walks i) (.bind loaded ?_)⟩
    rw [if_pos zero]
    exact .bind does (.pure _ _)
  · have top := usable.small.high
    have same := sameBitmap_granted (v := v) bitmap super high
    have small : (granted v f.block (f.fDirect i) p).mem.Small := same.small (usable.small.take inside)
    have inside' : p < (granted v f.block (f.fDirect i) p).mem.nblocks := by
      rwa [same.nblocks, Image.nblocks_take]
    have other : f.block ≠ p := by
      intro here
      have used := valid.used
      rw [here, free] at used
      cases used
    have used : (granted v f.block (f.fDirect i) p).mem.free p = false := by
      rw [same.free p (by omega), Image.free_take (by omega) (by omega)]
      simp
    have pointer : (granted v f.block (f.fDirect i) p).mem f.block (f.fDirect i) = BitVec.ofNat 32 p := by
      simp only [granted, Volume.edit, Volume.flush, Function.update_of_ne other, Image.put_self]
    have valid' : (granted v f.block (f.fDirect i) p).mem.Valid f.block :=
      same.valid (usable.small.take inside) (valid.take usable.small inside)
    have found : Does (follow f.block (f.fDirect i)) (granted v f.block (f.fDirect i) p) (.ok p)
        (granted v f.block (f.fDirect i) p) := by
      have again := load_does small valid' (f.fDirect i)
      rw [pointer] at again
      have number : (BitVec.ofNat 32 p).toNat = p := by
        rw [BitVec.toNat_ofNat]
        omega
      refine .bind again ?_
      rw [number]
      exact .bind (diskaddr_does small (by omega) inside') (.pure _ _)
    refine .inr ⟨fun full => ?_, p, _, .bind (direct_walks i) (.bind loaded ?_),
      ⟨p, by omega, free, used⟩, small, high⟩
    · rw [full p high inside] at free
      cases free
    · rw [if_pos zero]
      exact .bind does found

section Any

variable {s : Cache} {b a : Nat}

theorem touch_any (live : s.Live) (small : s.content.Small) (b : Nat) :
    ∃ s', (touch b s = .ok () s' ∨ ∃ why, touch b s = .error why s') ∧ s'.Live ∧
    s'.volume = s.volume := by
  by_cases mapped : s.vaIsMapped b = true
  · obtain ⟨marked, same⟩ := Cache.mark_live live b
    exact ⟨s.mark b, .inl (access_mapped mapped 4), marked, same⟩
  · have unmapped : s.pages b = none := by simpa [Cache.vaIsMapped] using mapped
    have faults : ∀ {why s'}, bcPgfault (access 3) b s = .error why s' → touch b s = .error why s' := by
      intro why s' failed
      rw [touch, access]
      refine (run_bind (show (get : FsM Cache) s = .ok s s from rfl)).trans ?_
      rw [if_neg mapped, run_bind_error failed]
    obtain ⟨marked, same⟩ := Cache.mark_live live 1
    have super : loadBy (access 3) 1 1 s = .ok (s.content 1 1) (s.mark 1) := by
      refine (run_bind (access_mapped live.super 3)).trans ?_
      exact congrArg (fun m : Image => EStateM.Result.ok (m 1 1) (s.mark 1)) (Cache.content_mark s 1)
    by_cases huge : diskBlocks ≤ b
    · refine ⟨s, .inr ⟨.pageFault, faults ?_⟩, live, rfl⟩
      rw [bcPgfault, if_pos huge]
      rfl
    by_cases inside : b < s.content.nblocks
    · cases free : s.content.free b with
      | false =>
        obtain ⟨s', touched, live', looks, -⟩ := touch_ok live small ⟨inside, free⟩
        exact ⟨s', .inl touched, live', looks⟩
      | true =>
        obtain ⟨s', failed, ⟨live', -⟩, looks⟩ := bcPgfault_inside live unmapped small inside 3
        rw [if_pos free] at failed
        exact ⟨s', .inr ⟨_, faults failed⟩, live', looks⟩
    · refine ⟨s.mark 1, .inr ⟨.noBlock, faults ?_⟩, marked, same⟩
      rw [bcPgfault, if_neg huge, run_bind super, if_pos (by unfold Image.nblocks at inside; omega)]
      rfl

theorem loadBytes_any {n : Nat} (live : s.Live) (small : s.content.Small) (page : pagesOf a n = 1) :
    ∃ s', ((∃ bytes, loadBytes a n s = .ok bytes s' ∧ bytes.length = n) ∨
    ∃ why, loadBytes a n s = .error why s') ∧
      s'.Live ∧ s'.volume = s.volume := by
  obtain ⟨s', touched, live', looks⟩ := touch_any live small (a / 4096)
  refine ⟨s', ?_, live', looks⟩
  rw [loadBytes, page]
  rcases touched with ok | ⟨why, failed⟩
  · have swept : sweep touch 1 (a / 4096) s = .ok () s' := run_bind ok
    rw [run_bind swept]
    exact .inl ⟨_, rfl, by simp⟩
  · have swept : sweep touch 1 (a / 4096) s = .error why s' := run_bind_error failed
    exact .inr ⟨why, run_bind_error swept⟩

end Any

end FsM

namespace ServM

def Leaves {α : Type} (x : ServM α) (v : Volume) (d : Desk) (P : Image → Nat → Prop) : Prop :=
  ∀ s : Cache, s.Live → s.volume = v → P (after x (s, d)).1.content (after x (s, d)).2.top

namespace Leaves

variable {α β : Type} {x : ServM α} {k : α → ServM β} {v v' : Volume} {d d' : Desk} {a : α}
    {P : Image → Nat → Prop}

theorem of_serves (served : Serves x v d a v' d') (holds : P v'.mem d'.top) : Leaves x v d P := by
  intro s live looks
  obtain ⟨⟨s', e⟩, done, -, looks'⟩ := served (s, d) live (congrArg (·, d) looks)
  obtain ⟨rfl, rfl⟩ := Prod.mk.inj looks'
  rw [after_ok done]
  exact holds

theorem bind (first : Serves x v d a v' d') (rest : Leaves (k a) v' d' P) : Leaves (x >>= k) v d P := by
  intro s live looks
  obtain ⟨⟨s', e⟩, done, live', looks'⟩ := first (s, d) live (congrArg (·, d) looks)
  obtain ⟨volume, same⟩ := Prod.mk.inj looks'
  rw [after_bind done, show e = d' from same]
  exact rest s' live' volume

theorem mono {Q : Image → Nat → Prop} (leaves : Leaves x v d P)
    (weaker : ∀ m top, P m top → Q m top) : Leaves x v d Q :=
  fun s live looks => weaker _ _ (leaves s live looks)

theorem of_moves {R : Cache × Desk → Cache × Desk → Prop} (moves : Moves R x)
    (holds : ∀ s t, s.volume = v → R (s, d) t → P t.1.content t.2.top) : Leaves x v d P :=
  fun s _ looks => holds s _ looks (moves.after (s, d))

theorem lift_bind {x : FsM α} (good : α → Prop) (any : ∀ s : Cache, s.Live → s.volume = v →
      ∃ s', ((∃ a, x s = .ok a s' ∧ good a) ∨ ∃ why, x s = .error why s') ∧ s'.Live ∧
      s'.volume = s.volume)
    (stops : P v.mem d.top) (rest : ∀ a, good a → Leaves (k a) v d P) :
    Leaves (BufM.lift x >>= k) v d P := by
  intro s live looks
  obtain ⟨s', ran, live', looks'⟩ := any s live looks
  rcases ran with ⟨a, ok, held⟩ | ⟨why, failed⟩
  · have lifted : (BufM.lift x : ServM α) (s, d) = .ok a (s', d) := by simp only [BufM.lift, ok]
    rw [after_bind lifted]
    exact rest a held s' live' (looks'.trans looks)
  · have lifted : (BufM.lift x : ServM α) (s, d) = .error why (s', d) := by simp only [BufM.lift, failed]
    rw [after, run_bind_error lifted]
    rw [← looks'.trans looks] at stops
    exact stops

theorem bind_kept
    (kept : ∀ a,
    Moves (fun s t : Cache × Desk => (t.1.content, t.2.top) = (s.1.content, s.2.top)) (k a))
    (first : Leaves x v d P) : Leaves (x >>= k) v d P := by
  intro s live looks
  obtain ⟨content, top⟩ := Prod.mk.inj (after_bind_kept kept (s, d))
  rw [content, top]
  exact first s live looks

end Leaves

def copyRound (f : FilePtr) (copy : Nat → Nat → Nat → ServM Unit) (stop : Word) (fuel : Nat)
    (pos : Word) (i blk : Nat) : ServM (Except Errno Unit) := do
  copy (BufM.address blk (pos.srem 4096)) i (BufM.chunk pos stop).toNat
  BufM.copyLoop f copy stop fuel (pos + BufM.chunk pos stop) (i + (BufM.chunk pos stop).toNat)

section Loop

variable {v v₁ v₂ : Volume} {d d₁ : Desk} {f : FilePtr} {copy : Nat → Nat → Nat → ServM Unit}
    {stop pos : Word}
  {fuel i blk : Nat} {e : Errno} {P : Image → Nat → Prop}

theorem copyLoop_next (before : pos < stop) :
    BufM.copyLoop f copy stop (fuel + 1) pos i = (do
      match ← BufM.lift (FsM.fileGetBlock f (pos.sdiv 4096).toNat) with
      | .error e => pure (.error e)
      | .ok blk => copyRound f copy stop fuel pos i blk) := by
  rw [BufM.copyLoop, if_pos before]
  rfl

theorem loop_error (before : pos < stop)
    (got : Does (FsM.fileGetBlock f (pos.sdiv 4096).toNat) v (.error e) v₁) :
    Serves (BufM.copyLoop f copy stop (fuel + 1) pos i) v d (.error e) v₁ d := by
  rw [copyLoop_next before]
  exact .bind (BufM.lift_serves got d) (.pure _ _)

theorem loop_round (before : pos < stop)
    (got : Does (FsM.fileGetBlock f (pos.sdiv 4096).toNat) v (.ok blk) v₁)
    (rest : Leaves (copyRound f copy stop fuel pos i blk) v₁ d P) :
    Leaves (BufM.copyLoop f copy stop (fuel + 1) pos i) v d P := by
  rw [copyLoop_next before]
  exact .bind (BufM.lift_serves got d) rest

def Splits {α : Type} (fits : Prop) (x : ServM α) (v : Volume) (d : Desk) : Prop :=
  fits ∧ Leaves x v d (fun m top => m = v.mem ∧ top ≤ 4096) ∨ ¬fits ∧
    Leaves x v d (fun m top => 4096 < top ∨ v.mem.Taken m)

theorem loop_splits (fits : Image → Prop) (order : v.mem.InOrder) (slot : v.mem.Slot f)
    (named : v.mem.Named f) (before : pos < stop) (used : d.top ≤ 4096)
    (room : v.mem.type f = ftypeDir → (pos.sdiv 4096).toNat < Image.blocksOf (v.mem.size f))
    (round : ∀ v' blk, v'.mem.InOrder → v.mem.Extends v'.mem ∅ → v'.mem.Valid blk →
      Splits (fits v'.mem) (copyRound f copy stop fuel pos i blk) v' d) :
    Splits (v.mem.Denied f (pos.sdiv 4096).toNat ∨ v.mem.Held f (pos.sdiv 4096).toNat ∧ fits v.mem)
      (BufM.copyLoop f copy stop (fuel + 1) pos i) v d := by
  rcases FsM.get_cases order slot named room with
    ⟨held, blk, got, valid⟩ | ⟨denied, e, got⟩ |
      ⟨⟨missing, allowed⟩, r, v', got, taken, ext, order', valid⟩
  · rcases round v blk order (.refl _ _) valid with ⟨fit, leaves⟩ | ⟨misfit, leaves⟩
    · exact .inl ⟨.inr ⟨held, fit⟩, loop_round before got leaves⟩
    · exact .inr ⟨fun either => either.elim held.not_denied fun both => misfit both.2,
        loop_round before got leaves⟩
  · exact .inl ⟨.inl denied, .of_serves (loop_error before got) ⟨rfl, used⟩⟩
  · refine .inr ⟨fun either => either.elim allowed fun both => missing both.1, ?_⟩
    cases r with
    | error e => exact .of_serves (loop_error before got) (.inr taken)
    | ok blk =>
      refine loop_round before got ?_
      rcases round v' blk order' ext (valid blk rfl) with ⟨-, leaves⟩ | ⟨-, leaves⟩
      · exact leaves.mono fun m top same => .inr (same.1 ▸ taken)
      · exact leaves.mono fun m top => Or.imp_right fun more => more.of_extends ext

end Loop

theorem top_light (limit : Nat) : Desk.Light limit fun d d' => d.top ≤ d'.top where
  refl _ := Nat.le_refl _
  trans _ _ _ := Nat.le_trans
  setFd d i data := by
    unfold Desk.setFd
    split <;> exact Nat.le_refl _
  setWords d data := by
    unfold Desk.setWords Desk.setFd
    split
    · exact Nat.le_refl _
    · split <;> exact Nat.le_refl _
  reach d top _ := Nat.le_max_left d.top top

section Read

variable {v : Volume} {d : Desk} {f : FilePtr} {blk i n : Nat} {pos stop : Word}

theorem top_setWords (d : Desk) (data : Block) : (d.setWords data).top = d.top := by
  unfold Desk.setWords Desk.setFd
  split
  · rfl
  · split <;> rfl

theorem putReply_top (bytes : List Byte) (room : i + bytes.length ≤ 4096) (v : Volume) (d : Desk) :
    ∃ d', Serves (putReply i bytes) v d () v d' ∧ d'.top = max d.top (i + bytes.length) := by
  refine ⟨(d.setWords (storePage d.words i bytes)).reach (i + bytes.length),
    .bind (update_serves v d _) ?_, ?_⟩
  · rw [if_pos room]
    exact .pure _ _
  · simp only [Desk.reach, top_setWords]

theorem copyOut_serves (small : v.mem.Small) (valid : v.mem.Valid blk)
    (positive : pos.toNat < 2 ^ 31) (some_ : 0 < n) (inside : pos.toNat % 4096 + n ≤ 4096)
    (room : i + n ≤ 4096) :
    ∃ d', Serves (BufM.copyOut putReply (BufM.address blk (pos.srem 4096)) i n) v d () v d' ∧
    d'.top = max d.top (i + n) := by
  have loaded := FsM.loadBytes_does (pos.toNat % 4096) small valid some_ inside
  obtain ⟨d', stored, top⟩ :=
    putReply_top ((List.range n).map fun i => byteAt (v.mem blk) (pos.toNat % 4096 + i))
    (by simpa using room) v d
  rw [BufM.address_of_nonneg positive]
  exact ⟨d', .bind (BufM.lift_serves loaded d) stored, by simpa using top⟩

theorem copyOut_mono (a i n : Nat) :
    Shifts (fun d d' => d.top ≤ d'.top) (BufM.copyOut putReply a i n) := by
  have frame := (top_light 0).frame
  exact .bind frame.trans (BufM.lift_moves frame _) fun bytes =>
    putReply_shifts (top_light _) i bytes (Nat.le_refl _)

theorem loop_mono (f : FilePtr) (stop : Word) (fuel : Nat) (pos : Word) (i : Nat) :
    Shifts (fun d d' => d.top ≤ d'.top) (BufM.copyLoop f (BufM.copyOut putReply) stop fuel pos i) :=
  BufM.copyLoop_moves (top_light (i + (stop - pos).toNat)).frame (i + (stop - pos).toNat)
    (fun a i n _ => copyOut_mono a i n) fuel pos i (Nat.le_refl _)

theorem copyOut_over (small : v.mem.Small) (valid : v.mem.Valid blk) (before : pos < stop)
    (positive : pos.toNat < 2 ^ 31) (beyond : 4096 < i + (BufM.chunk pos stop).toNat) (fuel : Nat) :
    Leaves (copyRound f (BufM.copyOut putReply) stop fuel pos i blk) v d fun m top => 4096 < top ∨
    v.mem.Taken m := by
  obtain ⟨some_, -, -⟩ := BufM.chunk_bounds before
  have length := BufM.chunk_of_nonneg before positive
  rw [copyRound]
  generalize (BufM.chunk pos stop).toNat = n at beyond some_ length ⊢
  have loaded := FsM.loadBytes_does (pos.toNat % 4096) small valid some_ (by omega)
  rw [BufM.address_of_nonneg positive, BufM.copyOut, bind_assoc]
  refine .bind (BufM.lift_serves loaded d) ?_
  rw [putReply, bind_assoc]
  refine .bind (update_serves v d _)
    (.of_moves (R := fun s t => s.2.top ≤ t.2.top) ?_ fun s t _ mono => .inl ?_)
  · refine .bind (fun _ _ _ => Nat.le_trans) ?_ fun _ => loop_mono f stop fuel _ _
    rw [if_neg (by simp only [List.length_map, List.length_range]; omega)]
    exact BufM.lift_moves (top_light 0).frame _
  · simp only [Desk.reach, top_setWords, List.length_map, List.length_range] at mono
    omega

theorem last_round (small : v.mem.Small) (valid : v.mem.Valid blk) (before : pos < stop)
    (positive : pos.toNat < 2 ^ 31) (aligned : pos.toNat % 4096 = 0) (used : d.top ≤ 4096)
    (first : 0 < i) (fuel : Nat) :
    Splits (i + (stop.toNat - pos.toNat) ≤ 4096)
    (copyRound f (BufM.copyOut putReply) stop (fuel + 1) pos i blk) v d := by
  have order : pos.toNat < stop.toNat := before
  have length := BufM.chunk_of_nonneg before positive
  obtain ⟨some_, -, sum⟩ := BufM.chunk_bounds before
  rw [aligned] at length
  by_cases fits : i + (stop.toNat - pos.toNat) ≤ 4096
  · obtain ⟨d', copied, top⟩ :=
      copyOut_serves (i := i) (d := d) small valid positive some_ (by omega) (by omega)
    have done : ¬pos + BufM.chunk pos stop < stop := by
      show ¬(pos + BufM.chunk pos stop).toNat < stop.toNat
      omega
    exact .inl ⟨fits, .bind copied (.of_serves (BufM.copyLoop_empty done fuel _ v d') ⟨rfl, by omega⟩)⟩
  · exact .inr ⟨fits, copyOut_over small valid before positive (by omega) _⟩

theorem read_rest (order : v.mem.InOrder) (slot : v.mem.Slot f) (named : v.mem.Named f)
    (before : pos < stop) (positive : pos.toNat < 2 ^ 31) (aligned : pos.toNat % 4096 = 0)
    (used : d.top ≤ 4096) (first : 0 < i) (fuel : Nat)
    (room : v.mem.type f = ftypeDir → (pos.sdiv 4096).toNat < Image.blocksOf (v.mem.size f)) :
    Splits (v.mem.Denied f (pos.sdiv 4096).toNat ∨ v.mem.Held f (pos.sdiv 4096).toNat ∧
    i + (stop.toNat - pos.toNat) ≤ 4096)
      (BufM.copyLoop f (BufM.copyOut putReply) stop (fuel + 2) pos i) v d :=
  loop_splits (fun _ => _) order slot named before used room fun _ _ order' _ valid =>
    last_round order'.inv.small valid before positive aligned used first fuel

def asked (m : Image) (f : FilePtr) (count offset : Word) : Word := BufM.wordMin count (m.size f - offset)

def RestFits (m : Image) (f : FilePtr) (offset n : Word) : Prop :=
  n.toNat ≤ (BufM.chunk offset (offset + n)).toNat ∨ m.Denied f ((offset.sdiv 4096).toNat + 1) ∨
    m.Held f ((offset.sdiv 4096).toNat + 1) ∧ n.toNat ≤ 4096

-- The read is empty, or it comes only to blocks that are there and to no more bytes than a page
-- has, or it stops in time at a block that cannot be had.
def ReadFits (m : Image) (f : FilePtr) (count offset : Word) : Prop :=
  (m.size f).sle offset = true ∨ ¬offset < offset + asked m f count offset ∨
    m.Denied f (offset.sdiv 4096).toNat ∨ m.Held f (offset.sdiv 4096).toNat ∧
    RestFits m f offset (asked m f count offset)

theorem size_above {size offset : Word} (positive : offset.toNat < 2 ^ 31)
    (more : ¬size.sle offset = true) : offset.toNat < size.toNat ∧ size.toNat < 2 ^ 31 ∧
    (size - offset).toNat = size.toNat - offset.toNat := by
  have offsetInt : offset.toInt = offset.toNat := BitVec.toInt_eq_toNat_of_lt (by omega)
  rw [BitVec.sle, decide_eq_true_eq, offsetInt, BitVec.toInt_eq_toNat_cond] at more
  have bound := size.isLt
  have small : size.toNat < 2 ^ 31 ∧ offset.toNat < size.toNat := by
    split at more <;> omega
  exact ⟨small.2, small.1, BitVec.toNat_sub_of_le (Nat.le_of_lt small.2)⟩

theorem first_round {offset n : Word} (order : v.mem.InOrder) (slot : v.mem.Slot f)
    (named : v.mem.Named f) (valid : v.mem.Valid blk)
    (inside : offset.toNat + n.toNat ≤ (v.mem.size f).toNat) (small : (v.mem.size f).toNat < 2 ^ 31)
    (before : offset < offset + n) (used : d.top ≤ 4096) :
    Splits (RestFits v.mem f offset n)
    (copyRound f (BufM.copyOut putReply) (offset + n) n.toNat offset 0 blk) v d := by
  have positive : offset.toNat < 2 ^ 31 := by omega
  have stop : (offset + n).toNat = offset.toNat + n.toNat := by
    rw [BitVec.toNat_add, Nat.mod_eq_of_lt (by omega)]
  have length := BufM.chunk_of_nonneg before positive
  obtain ⟨some_, -, sum⟩ := BufM.chunk_bounds before
  rw [RestFits, copyRound, sdiv_block positive]
  generalize BufM.chunk offset (offset + n) = c at length some_ sum ⊢
  obtain ⟨d', copied, top⟩ :=
    copyOut_serves (i := 0) (d := d) order.inv.small valid positive some_ (by omega) (by omega)
  by_cases all : n.toNat ≤ c.toNat
  · have done : ¬offset + c < offset + n := by
      show ¬(offset + c).toNat < (offset + n).toNat
      omega
    obtain ⟨fuel, fuel_eq⟩ : ∃ fuel, n.toNat = fuel + 1 := ⟨n.toNat - 1, by omega⟩
    rw [fuel_eq] at all ⊢
    exact .inl ⟨.inl all,
      .bind copied (.of_serves (BufM.copyLoop_empty done fuel _ v d') ⟨rfl, by omega⟩)⟩
  · have before' : offset + c < offset + n := by
      show (offset + c).toNat < (offset + n).toNat
      omega
    have block : ((offset + c).sdiv 4096).toNat = offset.toNat / 4096 + 1 := by
      rw [sdiv_block (by omega)]
      omega
    have rest :=
      read_rest (i := 0 + c.toNat)
      (d := d') order slot named before' (by omega) (by omega) (by omega) (by omega) (n.toNat - 2)
      fun _ => by rw [block, Image.blocksOf]; omega
    rw [block, show n.toNat - 2 + 2 = n.toNat by omega,
      show 0 + c.toNat + ((offset + n).toNat - (offset + c).toNat) = n.toNat by omega] at rest
    rcases rest with ⟨fit, leaves⟩ | ⟨misfit, leaves⟩
    · exact .inl ⟨.inr fit, .bind copied leaves⟩
    · exact .inr ⟨fun fit => misfit (fit.resolve_left all), .bind copied leaves⟩

section Negative

variable {offset n : Word}

theorem negative_pos {k : Nat} (position : offset.toNat + k = 2 ^ 32) (high : k ≤ 2 ^ 31) :
    (offset.sdiv 4096).toNat = (if k < 4096 then 0 else 2 ^ 32 - k / 4096) ∧
      (k < 4096 → offset.srem 4096 = -BitVec.ofNat 32 k) := by
  have sign : offset.msb = true := by
    rw [BitVec.msb_eq_true_iff_two_mul_ge]
    omega
  have value : -offset = BitVec.ofNat 32 k := by
    apply BitVec.eq_of_toNat_eq
    rw [BitVec.toNat_neg, BitVec.toNat_ofNat]
    omega
  have amount : (BitVec.ofNat 32 k).toNat = k := by
    rw [BitVec.toNat_ofNat]
    omega
  constructor
  · rw [BitVec.sdiv_eq, sign, show (4096 : Word).msb = false from rfl]
    dsimp only
    rw [value, BitVec.toNat_neg, BitVec.udiv_eq, BitVec.toNat_udiv, amount,
      show (4096 : Word).toNat = 4096 from rfl]
    split <;> omega
  · intro small
    rw [BitVec.srem_eq, sign, show (4096 : Word).msb = false from rfl]
    dsimp only
    rw [value]
    congr 1
    apply BitVec.eq_of_toNat_eq
    rw [BitVec.toNat_umod, amount, show (4096 : Word).toNat = 4096 from rfl, Nat.mod_eq_of_lt small]

theorem front_chunk {k : Nat} (position : offset.toNat + k = 2 ^ 32) (low : k < 4096)
    (few : n.toNat < k) : BufM.chunk offset (offset + n) = n := by
  obtain ⟨-, rem⟩ := negative_pos position (by omega)
  apply BitVec.eq_of_toNat_eq
  rw [BufM.chunk, BufM.toNat_wordMin, add_sub_cancel_left, rem low, BitVec.toNat_sub,
    BitVec.toNat_neg, BitVec.toNat_ofNat, show (4096 : Word).toNat = 4096 from rfl]
  omega

theorem front_round {k : Nat} (small : v.mem.Small) (high : 1 ≤ blk)
    (position : offset.toNat + k = 2 ^ 32) (low : k < 4096) (some_ : 0 < n.toNat)
    (few : n.toNat < k) (used : d.top ≤ 4096) :
    Leaves (copyRound f (BufM.copyOut putReply) (offset + n) n.toNat offset 0 blk) v d
    (fun m top => m = v.mem ∧ top ≤ 4096) := by
  obtain ⟨-, rem⟩ := negative_pos position (by omega)
  have behind : (offset.srem 4096).toNat = 2 ^ 32 - k := by
    rw [rem low, BitVec.toNat_neg, BitVec.toNat_ofNat]
    omega
  have start : BufM.address blk (offset.srem 4096) = 4096 * (blk - 1) + (4096 - k) := by
    rw [BufM.address, BitVec.toInt_eq_toNat_cond, behind]
    split <;> omega
  have page : FsM.pagesOf (4096 * (blk - 1) + (4096 - k)) n.toNat = 1 := by
    rw [FsM.pagesOf, if_neg (by omega)]
    omega
  have done : ¬offset + n < offset + n := BitVec.lt_irrefl _
  obtain ⟨fuel, fuel_eq⟩ : ∃ fuel, n.toNat = fuel + 1 := ⟨n.toNat - 1, by omega⟩
  rw [copyRound, front_chunk position low few, start, BufM.copyOut, bind_assoc]
  refine .lift_bind (fun bytes => bytes.length = n.toNat) ?_ ⟨rfl, used⟩ fun bytes length => ?_
  · rintro s live rfl
    exact FsM.loadBytes_any live small page
  · obtain ⟨d', stored, top⟩ := putReply_top (i := 0) bytes (by omega) v d
    rw [fuel_eq]
    exact .bind stored (.of_serves (BufM.copyLoop_empty done fuel _ v d') ⟨rfl, by omega⟩)

end Negative

section Transfer

variable {count offset n : Word} (length : asked v.mem f count offset = n) (order : v.mem.InOrder)
    (slot : v.mem.Slot f)
  (named : v.mem.Named f) (more : ¬(v.mem.size f).sle offset = true) (before : offset < offset + n)
    (used : d.top ≤ 4096)
include length order slot named more before used

theorem read_positive (positive : offset.toNat < 2 ^ 31) :
    Splits (ReadFits v.mem f count offset)
    (BufM.copyLoop f (BufM.copyOut putReply) (offset + n) (n.toNat + 1) offset 0) v d := by
  obtain ⟨above, small, rest⟩ := size_above positive more
  have inside : offset.toNat + n.toNat ≤ (v.mem.size f).toNat := by
    have few : n.toNat = min count.toNat (v.mem.size f - offset).toNat := by
      rw [← length, asked, BufM.toNat_wordMin]
    omega
  have room : v.mem.type f = ftypeDir → (offset.sdiv 4096).toNat < Image.blocksOf (v.mem.size f) := by
    intro _
    rw [sdiv_block positive, Image.blocksOf]
    omega
  rw [ReadFits, length, or_iff_right more, or_iff_right (not_not.mpr before)]
  refine loop_splits (RestFits · f offset n) order slot named before used room
    fun v' blk order' ext valid => ?_
  have size := ext.size slot
  exact first_round order' (ext.slot f slot) ((ext.named slot).mpr named) valid (by rwa [size])
    (by rwa [size]) before used

theorem read_negative (negative : 2 ^ 31 ≤ offset.toNat) :
    Splits (ReadFits v.mem f count offset)
    (BufM.copyLoop f (BufM.copyOut putReply) (offset + n) (n.toNat + 1) offset 0) v d := by
  have order' : offset.toNat < (offset + n).toNat := before
  rw [BitVec.toNat_add] at order'
  obtain ⟨k, position⟩ : ∃ k, offset.toNat + k = 2 ^ 32 := ⟨2 ^ 32 - offset.toNat, by omega⟩
  obtain ⟨block, rem⟩ := negative_pos position (by omega)
  rw [ReadFits, length, or_iff_right more, or_iff_right (not_not.mpr before)]
  by_cases far : 4096 ≤ k
  · -- The number of the block is huge.
    rw [if_neg (by omega)] at block
    have outside : v.mem.Denied f (offset.sdiv 4096).toNat := by
      intro c place
      rcases Cell.ofBlock_cases place with ⟨i, -, same⟩ | ⟨i, -, same⟩ <;> omega
    have got : Does (FsM.fileGetBlock f (offset.sdiv 4096).toNat) v (.error .inval) v := by
      have walked : Does (FsM.fileBlockWalk f (offset.sdiv 4096).toNat true) v (.error .inval) v := by
        rw [FsM.fileBlockWalk, if_pos (by simp only [ndirect, nindirect]; omega)]
        exact .pure _ _
      exact .bind walked (.pure _ _)
    exact .inl ⟨.inl outside, .of_serves (loop_error before got) ⟨rfl, used⟩⟩
  · rw [if_pos (by omega)] at block
    have rest : RestFits v.mem f offset n := by
      rw [RestFits, front_chunk position (by omega) (by omega)]
      exact .inl (Nat.le_refl _)
    have place : Cell.ofBlock (offset.sdiv 4096).toNat = some (.direct 0) := by rw [block]; rfl
    by_cases hole : v.mem.cell f (.direct 0) = 0
    · rcases FsM.get_direct (.of_inv order.inv slot) 0 hole with
        ⟨full, got⟩ | ⟨space, p, v', got, taken, small, high⟩
      · have denied : v.mem.Denied f (offset.sdiv 4096).toNat := by
          intro c place'
          rw [place, Option.some.injEq] at place'
          exact ⟨place' ▸ hole, full⟩
        rw [show ((0 : Fin 10) : Nat) = (offset.sdiv 4096).toNat from block.symm] at got
        exact .inl ⟨.inl denied, .of_serves (loop_error before got) ⟨rfl, used⟩⟩
      · rw [show ((0 : Fin 10) : Nat) = (offset.sdiv 4096).toNat from block.symm] at got
        refine .inr ⟨?_, loop_round before got ?_⟩
        · rintro (denied | ⟨⟨c, place', linked⟩, -⟩)
          · exact space (denied _ place).2
          · rw [place, Option.some.injEq] at place'
            exact linked (place' ▸ hole)
        · exact (front_round small (by omega) position (by omega) (by omega) (by omega) used).mono
            fun m top same =>
            .inr (same.1 ▸ taken)
    · obtain ⟨blk, got, high, -⟩ := FsM.get_held order slot named ⟨_, place, hole⟩
      exact .inl ⟨.inr ⟨⟨_, place, hole⟩, rest⟩,
        loop_round before got (front_round order.inv.small (by omega) position (by omega) (by omega)
          (by omega) used)⟩

end Transfer

theorem fileRead_splits (order : v.mem.InOrder) (slot : v.mem.Slot f) (named : v.mem.Named f)
    (used : d.top ≤ 4096) (count offset : Word) :
    Splits (ReadFits v.mem f count offset) (BufM.fileRead putReply f count offset) v d := by
  have loaded : Does (FsM.load f.block f.fSize) v (v.mem.size f) v :=
    FsM.load_does order.inv.small (slot.valid order.inv) _
  by_cases none : (v.mem.size f).sle offset = true
  · refine .inl ⟨.inl none, .bind (BufM.lift_serves loaded d) ?_⟩
    rw [if_pos none]
    exact .of_serves (.pure _ _) ⟨rfl, used⟩
  obtain ⟨n, length⟩ : ∃ n, asked v.mem f count offset = n := ⟨_, rfl⟩
  have whole : ∀ {P : Image → Nat → Prop},
      Leaves (BufM.copyLoop f (BufM.copyOut putReply) (offset + n) (n.toNat + 1) offset 0) v d P →
      Leaves (BufM.fileRead putReply f count offset) v d P := by
    intro P leaves
    refine .bind (BufM.lift_serves loaded d) ?_
    rw [if_neg none, show BufM.wordMin count (v.mem.size f - offset) = n from length]
    refine leaves.bind_kept fun r => ?_
    cases r <;> exact fun _ => rfl
  by_cases before : offset < offset + n
  · have loop : Splits (ReadFits v.mem f count offset) _ v d := if positive : offset.toNat < 2 ^ 31 then
        read_positive length order slot named none before used positive
      else read_negative length order slot named none before used (Nat.le_of_not_lt positive)
    exact loop.imp (And.imp_right whole) (And.imp_right whole)
  · refine .inl ⟨.inr (.inl (by rwa [length])),
      whole (.of_serves (BufM.copyLoop_empty before _ _ v d) ⟨rfl, used⟩)⟩

end Read

structure Ready (s : Cache) (d : Desk) : Prop where
  live : s.Live
  order : s.content.InOrder
  filed : ∀ i f, Asks d i f → s.content.Slot f ∧ s.content.Named f
  fresh : d.top = 0

def ReadConfined (s : Cache × Desk) : Prop :=
  (after serveRead s).2.top ≤ 4096 ∧ (after serveRead s).1.content = s.1.content

def WriteConfined (s : Cache × Desk) : Prop := (after serveWrite s).2.top ≤ 4096

theorem advance_kept (i : Nat) (r : Except Errno Word) :
    Moves (fun s t : Cache × Desk => (t.1.content, t.2.top) = (s.1.content, s.2.top)) (advance i r) := by
  cases r with
  | error e => exact fun _ => rfl
  | ok r =>
    dsimp only [advance]
    split
    · exact fun _ => rfl
    · intro s
      show (s.1.content, (s.2.setFd i _).top) = _
      unfold Desk.setFd
      split <;> rfl

theorem withFile_cases (run : Nat → FilePtr → ServM Word) (s : Cache) (d : Desk) :
    after (withFile run) (s, d) = (s, d) ∧ (∀ i f, ¬Asks d i f) ∨
    ∃ i f, Asks d i f ∧ after (withFile run) (s, d) = after (run i f) (s, d) ∧
    ∀ i' f', Asks d i' f' → i' = i ∧ f' = f := by
  have start : after (withFile run) (s, d) = after _ (s, d) := after_bind rfl
  rw [start]
  cases found : openfileLookup d (d.words 0) with
  | none =>
    refine .inl ⟨rfl, fun i f asks => ?_⟩
    rw [Asks, found] at asks
    cases asks.1
  | some i =>
    dsimp only
    cases file : (d.opentab i).file with
    | none =>
      refine .inl ⟨rfl, fun i' f asks => ?_⟩
      rw [Asks, found, Option.some.injEq] at asks
      obtain ⟨rfl, some_⟩ := asks
      rw [file] at some_
      cases some_
    | some f =>
      refine .inr ⟨i, f, ⟨found, file⟩, rfl, fun i' f' asks => ?_⟩
      rw [Asks, found, Option.some.injEq] at asks
      obtain ⟨rfl, some_⟩ := asks
      rw [file, Option.some.injEq] at some_
      exact ⟨rfl, some_.symm⟩

theorem after_transfer (transfer : Word → Word → ServM (Except Errno Word)) (i : Nat) (s : Cache)
    (d : Desk) : let t := after (do
      let d ← desk
      let r ← transfer (d.words 1) (d.fdData i 1)
      advance i r) (s, d)
    t.1.content = (after (transfer (d.words 1) (d.fdData i 1)) (s, d)).1.content ∧
      t.2.top = (after (transfer (d.words 1) (d.fdData i 1)) (s, d)).2.top := by
  intro t
  have start : t = after (transfer (d.words 1) (d.fdData i 1) >>= advance i) (s, d) := after_bind rfl
  exact Prod.mk.inj (start ▸ after_bind_kept (advance_kept i) (s, d))

theorem readConfined_iff {s : Cache} {d : Desk} (ready : Ready s d) :
    ReadConfined (s, d) ↔ ∀ i f, Asks d i f → ReadFits s.content f (d.words 1) (d.fdData i 1) := by
  have used : d.top ≤ 4096 := by rw [ready.fresh]; decide
  unfold ReadConfined serveRead
  rcases withFile_cases _ s d with ⟨ended, nothing⟩ | ⟨i, f, asks, ended, only⟩
  · rw [ended]
    exact iff_of_true ⟨used, rfl⟩ fun i f asks => absurd asks (nothing i f)
  · obtain ⟨slot, named⟩ := ready.filed i f asks
    obtain ⟨content, top⟩ := after_transfer (BufM.fileRead putReply f) i s d
    rw [ended, content, top]
    rcases fileRead_splits (v := s.volume) (d := d) ready.order slot named used (d.words 1) (d.fdData i 1)
      with ⟨fits, leaves⟩ | ⟨misfit, leaves⟩
    · obtain ⟨same, inside⟩ := leaves s ready.live rfl
      refine iff_of_true ⟨inside, same⟩ fun i' f' asks' => ?_
      obtain ⟨rfl, rfl⟩ := only i' f' asks'
      exact fits
    · refine iff_of_false ?_ fun fits => misfit (fits i f asks)
      rintro ⟨inside, same⟩
      rcases leaves s ready.live rfl with beyond | taken
      · omega
      · exact taken.ne same

end ServM

end Jos.Fs
