import Jos.Fs.Confined
import Jos.Fs.ReadAfterWrite

namespace Jos.Fs

open Jos.Shared
open Jos.Kern (Word Byte)

namespace Image

variable {m : Image} {stale : Set FilePtr} {tidy : Prop} {f : FilePtr} {c : Cell} {p : Nat}

def spare (m : Image) : Finset Nat := (Finset.range m.nblocks).filter fun p => 3 ≤ p ∧ m.free p = true

theorem Full.spare (full : m.Full) : m.spare = ∅ := by
  refine Finset.filter_eq_empty_iff.mpr fun p member ⟨high, free⟩ => ?_
  rw [full p high (Finset.mem_range.mp member)] at free
  cases free

theorem spare_congr {m' : Image} (small : m.Small) (same : m.SameBitmap m') : m'.spare = m.spare := by
  have top := small.high
  unfold spare
  rw [same.nblocks]
  refine Finset.filter_congr fun p member => ?_
  have inside := Finset.mem_range.mp member
  rw [same.free p (by omega)]

theorem spare_attach (inv : m.Inv stale) (can : m.Attaches stale tidy f c p) :
    m.spare.card ≤ (m.attach f c p).spare.card + 1 := by
  have top := inv.small.high
  have rest : m.spare.erase p ⊆ (m.attach f c p).spare := by
    intro q member
    obtain ⟨other, here⟩ := Finset.mem_erase.mp member
    obtain ⟨inside, high, free⟩ := Finset.mem_filter.mp here
    have inside' := Finset.mem_range.mp inside
    refine Finset.mem_filter.mpr ⟨?_, high, ?_⟩
    · rw [nblocks_attach inv can]
      exact inside
    · rw [free_attach inv can (by omega), free]
      simpa using other
  have less := Finset.card_le_card rest
  have one := Finset.pred_card_le_card_erase (s := m.spare) (a := p)
  omega

end Image

namespace FsM

variable {v v' : Volume} {stale : Set FilePtr} {tidy : Prop} {f : FilePtr} {n : Nat}
    {r : Except Errno Nat}

theorem Gets.spare (gets : Gets v stale tidy f n r v') (inv : v.mem.Inv stale) :
    v.mem.spare.card ≤ v'.mem.spare.card + 2 := by
  cases gets with
  | outside | present | full => omega
  | attached _ can | half _ can =>
    have less := Image.spare_attach inv can
    exact less.trans (Nat.add_le_add_left (by decide) _)
  | both _ can can' =>
    have less := Image.spare_attach inv can
    have less' := Image.spare_attach (Image.attach_inv inv can) can'
    exact less.trans (Nat.add_le_add_right less' 1)

theorem Gets.given (gets : Gets v stale tidy f n r v') (inv : v.mem.Inv stale) (inside : n < 1034)
    (enough : 2 ≤ v.mem.spare.card) : ∃ blk, r = .ok blk := by
  cases gets with
  | present | attached | both => exact ⟨_, rfl⟩
  | outside none =>
    rw [Cell.ofBlock] at none
    split at none
    · cases none
    · rw [dif_pos (by omega)] at none
      cases none
  | full _ _ full =>
    rw [full.spare] at enough
    simp at enough
  | half _ can full =>
    have less := Image.spare_attach inv can
    have none : (v.mem.attach f .indirect _).spare = ∅ := full.spare
    rw [none, Finset.card_empty] at less
    omega

theorem get_spare (inv : v.mem.Inv ∅) (file : v.mem.Regular f) (inside : n < 1034)
    (enough : 2 ≤ v.mem.spare.card) : ∃ c v', Cell.ofBlock n = some c ∧
    Does (fileGetBlock f n) v (.ok (v'.mem.cell f c)) v' ∧ v'.mem.cell f c ≠ 0 ∧
      v'.mem.Inv ∅ ∧ v'.mem.Regular f ∧ v'.mem.size f = v.mem.size f ∧
      v.mem.spare.card ≤ v'.mem.spare.card + 2 := by
  have room : v.mem.Neat False f → n < Image.blocksOf (v.mem.size f) :=
    fun neat => absurd (neat.resolve_left id) file.kind
  obtain ⟨r, v', does, gets⟩ := fileGetBlock_does inv file.slot (Set.notMem_empty f) file.named room
  obtain ⟨blk, rfl⟩ := gets.given inv inside enough
  have ext := gets.growth.extends inv
  obtain ⟨c, place, rfl, linked⟩ := gets.linked inv file.slot
  exact ⟨c, v', place, does, linked, gets.growth.inv inv, file.persist ext.toPersists,
    ext.size file.slot, gets.spare inv⟩

end FsM

theorem FsM.fileGetBlock_outside {f : FilePtr} {n : Nat} (outside : 1034 ≤ n) :
    fileGetBlock f n = pure (.error .inval) := by
  rw [fileGetBlock, fileBlockWalk, if_pos (by simp only [ndirect, nindirect]; omega)]
  rfl

namespace ServM

-- The bytes to be written are in the request page, or the loop does not run, or it stops at a block
-- that no file has before it comes to the end of the page.
def WriteFits (count offset : Word) : Prop :=
  8 + count.toNat ≤ 4096 ∨ ¬offset < offset + count ∨ 1034 ≤ (offset.sdiv 4096).toNat ∨
    8 + (BufM.chunk offset (offset + count)).toNat ≤ 4096 ∧ 1034 ≤ (offset.sdiv 4096).toNat + 1

section Enough

variable {f : FilePtr} {count offset pos stop : Word} {fuel i : Nat}

theorem inside_light : Desk.Light 4096 fun d d' => d.top ≤ 4096 → d'.top ≤ 4096 where
  refl _ := id
  trans _ _ _ first second := second ∘ first
  setFd d i data := by
    unfold Desk.setFd
    split <;> exact id
  setWords d data := by
    rw [top_setWords]
    exact id
  reach d top few used := by
    rw [Desk.reach]
    exact Nat.max_le.mpr ⟨used, few⟩

theorem loop_stops (stops : ¬pos < stop ∨ 1034 ≤ (pos.sdiv 4096).toNat) :
    Shifts (fun d d' => d.top ≤ 4096 →
    d'.top ≤ 4096) (BufM.copyLoop f (BufM.copyIn fetchData) stop (fuel + 1) pos i) := by
  have frame := inside_light.frame
  unfold BufM.copyLoop
  split
  next before =>
    rw [FsM.fileGetBlock_outside (stops.resolve_left fun behind => behind before)]
    exact fun s => id
  · exact .pure frame.refl _

theorem loop_inside (fits : WriteFits count offset) :
    Shifts (fun d d' => d.top ≤ 4096 → d'.top ≤ 4096)
      (BufM.copyLoop f (BufM.copyIn fetchData) (offset + count) (count.toNat + 1) offset 0) := by
  have frame := inside_light.frame
  have copies : ∀ a i n, 8 + i + n ≤ 4096 →
    Shifts (fun d d' => d.top ≤ 4096 → d'.top ≤ 4096) (BufM.copyIn fetchData a i n) :=
    fun a i n room => .bind frame.trans (fetchData_shifts inside_light i n room) fun bytes =>
      BufM.lift_moves frame _
  rcases fits with few | behind | outside | ⟨room, last⟩
  · refine BufM.copyLoop_moves frame 4088 (fun a i n room => copies a i n (by omega)) _ _ _ ?_
    rw [add_sub_cancel_left]
    omega
  · exact loop_stops (.inl behind)
  · exact loop_stops (.inr outside)
  · by_cases outside : 1034 ≤ (offset.sdiv 4096).toNat
    · exact loop_stops (.inr outside)
    by_cases before : offset < offset + count
    · have positive : offset.toNat < 2 ^ 31 := by
        by_contra negative
        have sum : offset.toNat + (2 ^ 32 - offset.toNat) = 2 ^ 32 := by omega
        obtain ⟨block, -⟩ := negative_pos sum (by omega)
        split at block <;> omega
      have block := sdiv_block positive
      have order : offset.toNat < (offset + count).toNat := before
      have length := BufM.chunk_of_nonneg before positive
      obtain ⟨-, -, sum⟩ := BufM.chunk_bounds before
      obtain ⟨fuel, fuel_eq⟩ : ∃ fuel, count.toNat = fuel + 1 := by
        refine ⟨count.toNat - 1, ?_⟩
        rw [BitVec.toNat_add] at order
        omega
      simp only [fuel_eq, copyLoop_next before, copyRound]
      generalize BufM.chunk offset (offset + count) = c at room length sum ⊢
      refine .bind frame.trans (BufM.lift_moves frame _) fun r => ?_
      cases r with
      | error e => exact .pure frame.refl _
      | ok blk =>
        refine .bind frame.trans (copies _ _ _ (by omega)) fun _ => loop_stops ?_
        -- The first round ends where the last block of the largest file does.
        by_cases more : offset + c < offset + count
        · have more' : (offset + c).toNat < (offset + count).toNat := more
          right
          rw [sdiv_block (by omega)]
          omega
        · exact .inl more
    · exact loop_stops (.inl before)

end Enough

theorem writeConfined_of_fits {s : Cache} {d : Desk} (fresh : d.top = 0)
    (fits : ∀ i f, Asks d i f → WriteFits (d.words 1) (d.fdData i 1)) : WriteConfined (s, d) := by
  have used : d.top ≤ 4096 := by rw [fresh]; decide
  unfold WriteConfined serveWrite
  rcases withFile_cases _ s d with ⟨ended, -⟩ | ⟨i, f, asks, ended, -⟩
  · rw [ended]
    exact used
  · obtain ⟨-, top⟩ := after_transfer (BufM.fileWrite fetchData f) i s d
    rw [ended, top]
    have frame := inside_light.frame
    have moves : Shifts (fun d d' => d.top ≤ 4096 →
      d'.top ≤ 4096) (BufM.fileWrite fetchData f (d.words 1) (d.fdData i 1)) := by
      refine .bind frame.trans (BufM.lift_moves frame _) fun _ =>
        .bind frame.trans (loop_inside (fits i f asks)) fun r => ?_
      cases r <;> exact .pure frame.refl _
    exact moves.after (s, d) used

section Over

variable {v : Volume} {d : Desk} {f : FilePtr} {count offset pos stop : Word} {a i n : Nat}

theorem copyIn_mono (a i n : Nat) :
    Shifts (fun d d' => d.top ≤ d'.top) (BufM.copyIn fetchData a i n) := by
  have light := top_light (8 + i + n)
  exact .bind light.frame.trans (fetchData_shifts light i n (Nat.le_refl _)) fun bytes =>
    BufM.lift_moves light.frame _

theorem copyIn_over {blk : Nat} (beyond : 4096 < 8 + i + (BufM.chunk pos stop).toNat) (fuel : Nat) :
    Leaves (copyRound f (BufM.copyIn fetchData) stop fuel pos i blk) v d fun _ top => 4096 < top := by
  have frame := (top_light 0).frame
  have loop : ∀ pos j,
    Shifts (fun d d' => d.top ≤ d'.top) (BufM.copyLoop f (BufM.copyIn fetchData) stop fuel pos j) :=
    fun pos j =>
      BufM.copyLoop_moves frame (j + (stop - pos).toNat) (fun a i n _ => copyIn_mono a i n) fuel pos
      j (Nat.le_refl _)
  rw [copyRound]
  generalize (BufM.chunk pos stop).toNat = n at beyond ⊢
  rw [BufM.copyIn, fetchData, bind_assoc, bind_assoc]
  refine .bind (desk_serves v d) ?_
  rw [bind_assoc]
  refine .bind (update_serves v d _)
    (.of_moves (R := fun s t => s.2.top ≤ t.2.top) ?_ fun s t _ mono => ?_)
  · refine .bind (fun _ _ _ => Nat.le_trans) ?_ fun bytes =>
      .bind (fun _ _ _ => Nat.le_trans) (BufM.lift_moves frame _) fun _ => loop _ _
    split
    · exact .pure (fun s => Nat.le_refl s.2.top) _
    · exact .bind (fun _ _ _ => Nat.le_trans) (BufM.lift_moves frame _) fun _ =>
        .pure (fun s => Nat.le_refl s.2.top) _
  · have used : 8 + i + n ≤ (d.reach (8 + i + n)).top := Nat.le_max_right _ _
    exact Nat.lt_of_lt_of_le beyond (used.trans mono)

theorem copyIn_within {c : Cell} {b : Nat} (pos : Word) (inv : v.mem.Inv ∅) (file : v.mem.Regular f)
    (place : Cell.ofBlock b = some c) (linked : v.mem.cell f c ≠ 0) (some_ : 0 < n)
    (inside : pos.toNat % 4096 + n ≤ 4096) (room : 8 + i + n ≤ 4096) :
    ∃ v' d',
    Serves (BufM.copyIn fetchData (4096 * v.mem.cell f c + pos.toNat % 4096) i n) v d () v' d' ∧
      v'.mem.Inv ∅ ∧ v'.mem.Regular f ∧ v'.mem.spare = v.mem.spare := by
  have current : f ∉ (∅ : Set FilePtr) := Set.notMem_empty f
  obtain ⟨bytes, fetched, length⟩ : ∃ bytes,
    Serves (fetchData i n) v d bytes v (d.reach (8 + i + n)) ∧ bytes.length = n := by
    refine ⟨(List.range (min n (4096 - (8 + i)))).map fun k => byteAt d.words (8 + i + k),
      .bind (desk_serves v d) (.bind (update_serves v d _) ?_), ?_⟩
    · dsimp only
      rw [if_pos room]
      exact .pure _ _
    · simp only [List.length_map, List.length_range]
      omega
  have valid := (inv.range f c file.slot (.of_mem current) linked).2
  have stored := FsM.storeBytes_does (pos.toNat % 4096) bytes inv.small valid (by omega) (by omega)
  have data := Cell.ofBlock_data place
  refine ⟨_, _, .bind fetched (BufM.lift_serves stored _),
    Image.data_inv inv file.slot current file.kind data linked _,
    file.persist (Image.data_persists inv file.slot current file.kind data linked _), ?_⟩
  exact Image.spare_congr inv.small (Image.sameBitmap_data inv file.slot current linked _)

theorem fileWrite_over (inv : v.mem.Inv ∅) (file : v.mem.Regular f) (space : 4 ≤ v.mem.spare.card)
    (long : ¬v.mem.size f < offset + count) (misfit : ¬WriteFits count offset) :
    Leaves (BufM.fileWrite fetchData f count offset) v d fun _ top => 4096 < top := by
  have loaded : Does (FsM.load f.block f.fSize) v (v.mem.size f) v :=
    FsM.load_does inv.small (file.slot.valid inv) _
  have sized : Does (FsM.extendTo f (offset + count)) v () v := by
    refine .bind loaded ?_
    rw [if_neg long]
    exact .pure _ _
  refine .bind (BufM.lift_serves sized d) (.bind_kept ?_ ?_)
  · intro r
    cases r <;> exact fun _ => rfl
  simp only [WriteFits, not_or, not_not, not_and_or] at misfit
  obtain ⟨many, before, inside, next⟩ := misfit
  have order : offset.toNat < (offset + count).toNat := before
  obtain ⟨fuel, fuel_eq⟩ : ∃ fuel, count.toNat = fuel + 1 := ⟨count.toNat - 1, by omega⟩
  obtain ⟨c, v₁, place, got, linked, inv₁, file₁, -, space₁⟩ :=
    FsM.get_spare inv file (Nat.lt_of_not_le inside) (by omega)
  refine loop_round before got ?_
  by_cases beyond : 4096 < 8 + 0 + (BufM.chunk offset (offset + count)).toNat
  · exact copyIn_over beyond _
  -- A position in front of the file is in the only round that there is.
  have positive : offset.toNat < 2 ^ 31 := by
    by_contra negative
    have sum : offset.toNat + (2 ^ 32 - offset.toNat) = 2 ^ 32 := by omega
    obtain ⟨block, -⟩ := negative_pos sum (by omega)
    rw [BitVec.toNat_add] at order
    rw [front_chunk sum (by split at block <;> omega) (by omega)] at beyond
    omega
  have length := BufM.chunk_of_nonneg before positive
  obtain ⟨some_, -, sum⟩ := BufM.chunk_bounds before
  rw [sdiv_block positive] at place inside next
  rw [copyRound, BufM.address_of_nonneg positive, fuel_eq]
  generalize BufM.chunk offset (offset + count) = k at length some_ sum beyond next ⊢
  obtain ⟨v₂, d₂, copied, inv₂, file₂, space₂⟩ :=
    copyIn_within (i := 0) (d := d) offset inv₁ file₁ place linked some_ (by omega) (by omega)
  refine .bind copied ?_
  have total : (offset + count).toNat = offset.toNat + count.toNat := by
    rw [BitVec.toNat_add] at order ⊢
    omega
  have before' : offset + k < offset + count := by
    show (offset + k).toNat < (offset + count).toNat
    omega
  have block : (offset + k).toNat / 4096 < 1034 := by omega
  rw [← sdiv_block (by omega)] at block
  obtain ⟨c', v₃, -, got', -⟩ := FsM.get_spare inv₂ file₂ block (by rw [space₂]; omega)
  refine loop_round before' got' (copyIn_over ?_ _)
  rw [BufM.chunk_of_nonneg before' (by omega)]
  omega

end Over

section Requests

variable {f : FilePtr} {count offset : Word} {s : Cache}

def request (f : FilePtr) (count offset : Word) : Desk where
  opentab i := if i = 0 then ⟨0, some f, 2, some ⟨fun k => if k = 1 then offset else 0, [0]⟩⟩
    else ⟨0, none, 0, none⟩
  source := none
  page k := if k = 1 then count else 0
  top := 0

theorem request_asks (f : FilePtr) (count offset : Word) : Asks (request f count offset) 0 f := ⟨rfl, rfl⟩

theorem asks_request {i : Nat} {g : FilePtr} (asks : Asks (request f count offset) i g) : i = 0 ∧
    g = f := by
  obtain ⟨found, file⟩ := asks
  obtain rfl : 0 = i := Option.some.inj ((request_asks f count offset).1.symm.trans found)
  exact ⟨rfl, (Option.some.inj file).symm⟩

theorem request_ready (live : s.Live) (order : s.content.InOrder) (slot : s.content.Slot f)
    (named : s.content.Named f) (count offset : Word) : Ready s (request f count offset) where
  live := live
  order := order
  filed i g asks := by
    obtain ⟨-, rfl⟩ := asks_request asks
    exact ⟨slot, named⟩
  fresh := rfl

def longFile : Cache := .mount ((Cache.twoFiles 32).content.resize (.entry 3 0) (-1))

theorem longFile_ready (count offset : Word) : Ready longFile (request (.entry 3 0) count offset) ∧
    longFile.content.Regular (.entry 3 0) ∧ longFile.content.size (.entry 3 0) = -1 ∧
    longFile.content.spare.card = 28 := by
  obtain ⟨-, well⟩ := Cache.twoFiles_wellFormed (n := 32) (by decide) (by decide)
  have file : (Cache.twoFiles 32).content.Regular (.entry 3 0) :=
    Cache.Shallow.regular (by decide +kernel)
  have content : longFile.content = (Cache.twoFiles 32).content.resize (.entry 3 0) (-1) :=
    Cache.mount_content _
  have order : longFile.content.InOrder := by
    rw [content]
    refine ⟨Image.resize_inv well.inv file.slot (-1) file.named fun dir => absurd dir file.kind, ?_⟩
    refine Image.resize_trim well.inv file.slot well.trim.weaken (fun neat => ?_) fun neat => ?_
    all_goals exact absurd (neat.resolve_left id) file.kind
  have file' : longFile.content.Regular (.entry 3 0) := by
    rw [content]
    exact file.persist (Image.resize_persists well.inv file.slot (-1))
  refine ⟨request_ready (Cache.mount_live _) order file'.slot file'.named count offset, file', ?_, ?_⟩
  · rw [content, Image.size_resize well.inv file.slot (-1) file.slot, if_pos rfl]
  · decide +kernel

theorem request_over (misfit : ¬WriteFits count offset) :
    ¬WriteConfined (longFile, request (.entry 3 0) count offset) := by
  obtain ⟨ready, file, size, space⟩ := longFile_ready count offset
  have long : ¬longFile.content.size (.entry 3 0) < offset + count := by
    rw [size]
    show ¬(2 ^ 32 - 1 < (offset + count).toNat)
    omega
  have leaves :=
    fileWrite_over (v := longFile.volume)
    (d := request (.entry 3 0) count offset) ready.order.inv file
    (show 4 ≤ longFile.content.spare.card by rw [space]; decide) long misfit
  unfold WriteConfined serveWrite
  rcases withFile_cases _ longFile (request (.entry 3 0) count offset) with
    ⟨-, nothing⟩ | ⟨i, f, asks, ended, -⟩
  · exact absurd (request_asks _ count offset) (nothing 0 _)
  · obtain ⟨rfl, rfl⟩ := asks_request asks
    obtain ⟨-, top⟩ :=
      after_transfer (BufM.fileWrite fetchData (.entry 3 0)) 0 longFile
      (request (.entry 3 0) count offset)
    rw [ended, top]
    exact Nat.not_le.mpr (leaves longFile ready.live rfl)

theorem requests_confined_iff {d : Desk} (ready : Ready s d) (count offset : Word) :
    (ReadConfined (s, d) ↔ ∀ i f, Asks d i f → ReadFits s.content f (d.words 1) (d.fdData i 1)) ∧
    ((∀ s d, Ready s d → (∀ i f, Asks d i f → d.words 1 = count ∧ d.fdData i 1 = offset) →
    WriteConfined (s, d)) ↔
      WriteFits count offset) := by
  refine ⟨readConfined_iff ready, fun confined => ?_, fun fits s d ready same => ?_⟩
  · by_contra misfit
    refine request_over misfit (confined _ _ (longFile_ready count offset).1 fun i f asks => ?_)
    obtain ⟨rfl, -⟩ := asks_request asks
    exact ⟨rfl, rfl⟩
  · refine writeConfined_of_fits ready.fresh fun i f asks => ?_
    obtain ⟨rfl, rfl⟩ := same i f asks
    exact fits

def filled : Cache := (Cache.twoFiles 32).perform (.fileWrite (.entry 3 0) [1, 1] 4095)

theorem filled_ready (count offset : Word) : Ready filled (request (.entry 3 0) count offset) := by
  have file : (Cache.twoFiles 32).content.Regular (.entry 3 0) :=
    Cache.Shallow.regular (by decide +kernel)
  have inRange : (Cache.twoFiles 32).InRange (.fileWrite (.entry 3 0) [1, 1] 4095) :=
    ⟨file, by decide, by decide⟩
  obtain ⟨live, well⟩ :=
    Cache.perform_wellFormed (Cache.twoFiles_wellFormed (by decide) (by decide)) inRange
  have file' : filled.content.Regular (.entry 3 0) := Cache.Shallow.regular (by decide +kernel)
  exact request_ready live well.inOrder file'.slot file'.named count offset

theorem requests_confined_hundred : ReadConfined (filled, request (.entry 3 0) 100 0) := by
  refine (requests_confined_iff (filled_ready 100 0) 0 0).1.mpr fun i f asks => ?_
  obtain ⟨rfl, rfl⟩ := asks_request asks
  have held : filled.content.Held (.entry 3 0) 0 := ⟨.direct 0, rfl, by decide +kernel⟩
  refine .inr (.inr (.inr ⟨held, .inl ?_⟩))
  decide +kernel

-- A read of 4097 bytes puts the last one into the boot block.
theorem read_unconfined : Ready filled (request (.entry 3 0) 4097 0) ∧
    (after serveRead (filled, request (.entry 3 0) 4097 0)).2.top = 4097 ∧
    filled.content 0 0 = 0 ∧ (after serveRead (filled, request (.entry 3 0) 4097 0)).1.content 0 0 = 1 ∧
    ¬ReadConfined (filled, request (.entry 3 0) 4097 0) := by
  have ran : (after serveRead (filled, request (.entry 3 0) 4097 0)).2.top = 4097 ∧
    filled.content 0 0 = 0 ∧
      (after serveRead (filled, request (.entry 3 0) 4097 0)).1.content 0 0 = 1 := by decide +kernel
  obtain ⟨top, before, after_⟩ := ran
  refine ⟨filled_ready 4097 0, top, before, after_, fun confined => ?_⟩
  have inside := confined.1
  rw [top] at inside
  omega

end Requests

end ServM

end Jos.Fs
