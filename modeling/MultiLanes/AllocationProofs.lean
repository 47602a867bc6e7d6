import MultiLanes.VirtualDiskProofs
import MultiLanes.CacheNodesProofs
import MultiLanes.LoopStatusProofs

/-! # Blocks that a write allocates

While a bio is served the thread works for it: it finishes what it had begun, serves the
requests that `redirect_bio` makes, and goes on prefetching when the requester has long
gone.  `BioMakes` collects the steps it makes in all of this.

A bio asks for blocks that hold sectors of its own (`inside_redirectBio`), so for blocks
inside the device.  The thread asks the host for the window of such a block
(`gets_serveCio`): one block when the window is one block, and otherwise, for the last
block of the device, also the block after it. -/

namespace VirtualDisk

open InteractProg LoopBio LoopRedirect LoopThread LoopDevice LoopCache
open LoopStatus

section Steps

variable {H : Host} (cfg : Config)

/-- The thread makes the step `q` in what it has still to do. -/
def Device.Makes (d : Device H) (q : ThreadReq) : Prop :=
  q ∈ trace (threadHandler H cfg.blkbits) d.pending d.core

/-- The thread makes the step `q` in serving a request: it takes the request up
    when it has finished what it was doing. -/
def Device.MakesFor (cio : CioReq) (d : Device H) (q : ThreadReq) : Prop :=
  ∃ c, run (threadHandler H cfg.blkbits) d.pending d.core = some ((), c)
    ∧ q ∈ trace (threadHandler H cfg.blkbits)
        (serveCio cfg.prefetchBlocks cfg.blkbits cfg.fuel cio)
        { c with cio := { c.cio with error := 0 } }

/-- The thread makes the step `q` while the requester waits. -/
def Device.MakesAt (d : Device H) (q : ThreadReq) : LoopReq → Prop
  | .cioRequest b rw =>
    d.MakesFor cfg (translationCio cfg.prefetchBlocks b rw) q
  | .flush rw => d.MakesFor cfg (flushCio 0 rw) q
  | _ => False

variable (mem : Loc → SectorData)

/-- The thread makes the step `q` for a requester that runs `p`: before, while
    or after the requester makes its own. -/
def BioMakes {α : Type} (q : ThreadReq) : Prog LoopSig α → Device H → Prop
  | .ret _, d => d.Makes cfg q
  | .ask r k, d => d.Makes cfg q ∨ d.MakesAt cfg q r
      ∨ ∃ x d', deviceHandler H cfg mem r d = some (x, d') ∧ BioMakes q (k x) d'

end Steps

/-- The `j`-th block from `b` on begins inside a device of `capacity` sectors. -/
def InDevice (blkbits capacity b j : Nat) : Prop :=
  (b + j) * 2 ^ blkbits < capacity * 512

/-- A step asks the host to allocate blocks of the device only.  `get_block`
    takes the number of blocks as an `unsigned`, and maps one in any case. -/
def AllocatesInside (blkbits capacity : Nat) (q : ThreadReq) : Prop :=
  ∀ b bSize, q = .getBlock b bSize true →
    ∀ j < max 1 (bSize / 2 ^ blkbits % 2 ^ 32), InDevice blkbits capacity b j

/-- Every write to a device of `capacity` sectors, on any host, with any cache
    and any schedule, has the host allocate blocks of the device only. -/
def AllocationInside (prefetchBlocks : Int) (blkbits capacity : Nat) : Prop :=
  ∀ (H : Host) (fuel : Nat) (sched : Nat → Nat) (mem : Loc → SectorData)
    (bd : Nat) (old : Bio) (d : Device H), d.pending = .ret () →
    old.biRw.write = true → old.biSector + old.nrSectors ≤ capacity →
    ∀ q, BioMakes ⟨prefetchBlocks, blkbits, fuel, sched⟩ mem q
        (redirectBio bd blkbits old) d →
      AllocatesInside blkbits capacity q

/-! ## What a bio asks for -/

section Requests

variable {bd blkbits capacity : Nat} {old : Bio} {B : Nat → Prop}

/-- A request made for the bio `old`: translations are for blocks in `B`. -/
def AsksIn (B : Nat → Prop) (old : Bio) : LoopReq → Prop
  | .cioRequest b rw => B b ∧ rw = old.biRw
  | _ => True

/-- Code that asks for blocks in `B` only. -/
def Inside (B : Nat → Prop) (old : Bio) {α : Type} (R : α → Prop) (p : Prog LoopSig α) : Prop :=
  Asks (S := LoopSig) (AsksIn B old) (fun _ _ => True) R p

theorem inside_touch {α : Type} {R : α → Prop} {f : Unit → Prog LoopSig α}
    (hf : Inside B old R (f ())) :
    Inside B old R (touch >>= f) := ⟨trivial, fun _ _ => hf⟩

theorem inside_loNewBio (start : Nat) : Inside B old (fun _ => True) (loNewBio bd start old) := by
  refine inside_touch ?_
  refine .perform (S := LoopSig) trivial fun (ok : Bool) _ => ?_
  cases ok
  · trivial
  · trivial

/-- The sectors that are still to do. -/
def SameSectors (c c' : Cursor) : Prop :=
  c'.secNrLogical = c.secNrLogical ∧ c'.nrTotalSectors = c.nrTotalSectors

/-- A result of the inner loop, from the cursor `c`. -/
def KeepsSectors (c : Cursor) (r : Option (Bio × Cursor)) : Prop :=
  ∀ nb c', r = some (nb, c') → SameSectors c c'

theorem keepsSectors_none (c : Cursor) : KeepsSectors c none :=
  nofun

theorem keepsSectors_some {c c' : Cursor} (h : SameSectors c c') (nb : Bio) :
    KeepsSectors c (some (nb, c')) := by
  intro nb' c'' heq
  cases heq
  exact h

theorem inside_addPiece (secNrPhys n : Nat) (nb : Bio) (c : Cursor) :
    Inside B old (KeepsSectors c) (addPiece bd old secNrPhys n nb c) := by
  refine .perform (S := LoopSig) trivial fun (r : Nat × Bio) _ => ?_
  by_cases h : r.1 = n * 512
  · rw [if_pos h]
    exact keepsSectors_some ⟨rfl, rfl⟩ r.2
  · rw [if_neg h]
    refine .bind (inside_loNewBio secNrPhys) fun fresh _ => ?_
    cases fresh with
    | none =>
      refine .perform (S := LoopSig) trivial fun _ _ => ?_
      exact keepsSectors_none c
    | some fb =>
      refine .perform (S := LoopSig) trivial fun (r' : Nat × Bio) _ => ?_
      by_cases h' : r'.1 = n * 512
      · rw [if_pos h']
        exact keepsSectors_some ⟨rfl, rfl⟩ r'.2
      · rw [if_neg h']
        exact ⟨trivial, fun x _ => x.elim⟩

theorem inside_loadSegment (c : Cursor) : Inside B old (SameSectors c) (loadSegment old c) := by
  unfold loadSegment
  split
  · exact inside_touch ⟨rfl, rfl⟩
  · exact ⟨rfl, rfl⟩

theorem inside_fillBlock (secNrPhys : Nat) :
    ∀ (fuel r : Nat) (nb : Bio) (c : Cursor), Inside B old (KeepsSectors c)
        (fillBlock bd old secNrPhys fuel r nb c) := by
  intro fuel
  induction fuel with
  | zero =>
    intro r nb c
    cases r with
    | zero => exact keepsSectors_some ⟨rfl, rfl⟩ nb
    | succ r => exact ⟨trivial, fun x _ => x.elim⟩
  | succ fuel ih =>
    intro r nb c
    cases r with
    | zero => exact keepsSectors_some ⟨rfl, rfl⟩ nb
    | succ r =>
      refine .bind (inside_loadSegment c) fun c₁ h₁ => ?_
      refine .bind (inside_addPiece secNrPhys _ nb c₁) fun piece h₂ => ?_
      cases piece with
      | none => exact keepsSectors_none c
      | some nc =>
        obtain ⟨nb', c₂⟩ := nc
        have hsame := h₂ nb' c₂ rfl
        refine (ih _ nb' c₂).mono fun res h₃ nb'' c₃ heq => ?_
        obtain ⟨h₄, h₅⟩ := h₃ nb'' c₃ heq
        exact ⟨h₄.trans (hsame.1.trans h₁.1), h₅.trans (hsame.2.trans h₁.2)⟩

theorem sameSectors_cut (c : Cursor) (secNrPhys : Nat) : SameSectors c (c.cut secNrPhys) := by
  unfold Cursor.cut
  split
  · exact ⟨rfl, rfl⟩
  · exact ⟨rfl, rfl⟩

theorem two_pow_blkbits (hb : 9 ≤ blkbits) : 2 ^ blkbits = 2 ^ (blkbits - 9) * 512 := by
  rw [show 512 = 2 ^ 9 from rfl, ← Nat.pow_add]
  congr 1
  omega

/-- A sector of the device is in a block of the device. -/
theorem inDevice_of_sector (hb : 9 ≤ blkbits) {x : Nat} (hx : x < capacity) :
    InDevice blkbits capacity (x / 2 ^ (blkbits - 9)) 0 := by
  have hpow := two_pow_blkbits hb
  have hle := Nat.div_mul_le_self x (2 ^ (blkbits - 9))
  unfold InDevice
  rw [hpow, ← Nat.mul_assoc, add_zero]
  omega

/-- A device without sectors has no blocks. -/
theorem not_inDevice_zero {b : Nat} : ¬ InDevice blkbits 0 b 0 := by
  intro h
  unfold InDevice at h
  omega

theorem inside_translateBlock {b : Nat} (hb : B b) :
    Inside B old (fun _ => True) (translateBlock old b) := by
  refine .perform (S := LoopSig) trivial fun (p : Nat) _ => ?_
  by_cases hp : p ≠ 0
  · rw [if_pos hp]
    trivial
  · rw [if_neg hp]
    refine inside_touch ?_
    refine .perform (S := LoopSig) ⟨hb, rfl⟩ fun (r : CioReply) _ => ?_
    by_cases he : r.error ≠ 0
    · rw [if_pos he]
      exact .perform (S := LoopSig) trivial fun _ _ => trivial
    · rw [if_neg he]
      trivial

theorem inside_openSlice (secNrPhys : Nat) (c : Cursor) :
    Inside B old (fun _ => True) (openSlice bd secNrPhys old c) := by
  unfold openSlice
  split
  · trivial
  · exact inside_loNewBio secNrPhys

/-- The blocks of the bio are in `B`. -/
def HoldsBio (blkbits : Nat) (old : Bio) (B : Nat → Prop) : Prop :=
  ∀ x, old.biSector ≤ x → x < old.biSector + old.nrSectors → B (x / 2 ^ (blkbits - 9))

/-- The outer loop, whose sectors are those of the bio. -/
theorem inside_blockLoop (hB : HoldsBio blkbits old B) :
    ∀ (fuel : Nat) (c : Cursor), old.biSector ≤ c.secNrLogical →
      c.secNrLogical + c.nrTotalSectors ≤ old.biSector + old.nrSectors →
      Inside B old (fun _ => True) (blockLoop bd blkbits old fuel c) := by
  intro fuel
  induction fuel with
  | zero =>
    intro c _ _
    unfold blockLoop
    split
    · trivial
    · exact ⟨trivial, fun x _ => x.elim⟩
  | succ fuel ih =>
    intro c hge hle
    unfold blockLoop
    by_cases h0 : c.nrTotalSectors = 0
    · rw [if_pos h0]
      trivial
    · rw [if_neg h0]
      refine .bind (inside_translateBlock (hB _ hge (by omega))) fun translated _ => ?_
      cases translated with
      | none => trivial
      | some blkPhys =>
        refine .bind (inside_openSlice _ _) fun opened _ => ?_
        cases opened with
        | none =>
          exact .perform (S := LoopSig) trivial fun _ _ => trivial
        | some nb =>
          refine .bind (inside_fillBlock _ _ _ _ _) fun filled hfilled => ?_
          cases filled with
          | none => trivial
          | some nc =>
            obtain ⟨nb', c'⟩ := nc
            obtain ⟨hsec, htotal⟩ := hfilled nb' c' rfl
            obtain ⟨hcut, hcut'⟩ := sameSectors_cut c (blkPhys * 2 ^ (blkbits - 9)
                + c.secNrLogical % 2 ^ (blkbits - 9))
            refine ih { c' with newBio := some nb' } ?_ ?_
            · show old.biSector ≤ c'.secNrLogical
              rw [hsec]
              show old.biSector ≤ Cursor.secNrLogical (c.cut _) + _
              rw [hcut]
              omega
            · show c'.secNrLogical + c'.nrTotalSectors ≤ old.biSector + old.nrSectors
              rw [hsec, htotal]
              show Cursor.secNrLogical (c.cut _) + _
                + (Cursor.nrTotalSectors (c.cut _) - _) ≤ old.biSector + old.nrSectors
              rw [hcut, hcut']
              omega

theorem inside_flushIfDirty (rw : ReqFlags) : Inside B old (fun _ => True) (flushIfDirty rw) := by
  refine .perform (S := LoopSig) trivial fun (dirty : Bool) _ => ?_
  cases dirty
  · trivial
  · exact ⟨trivial, fun _ _ => trivial⟩

theorem inside_preFlush : Inside B old (fun _ => True) (preFlush old) := by
  refine inside_touch ?_
  by_cases hfl : old.biRw.flush = true
  · rw [if_pos hfl]
    refine .bind (inside_flushIfDirty old.biRw) fun error _ => ?_
    by_cases he : error ≠ 0
    · rw [if_pos he]
      exact .perform (S := LoopSig) trivial fun _ _ => trivial
    · rw [if_neg he]
      trivial
  · rw [if_neg hfl]
    trivial

theorem inside_fuaFlush (rw : ReqFlags) : Inside B old (fun _ => True) (fuaFlush rw) := by
  unfold fuaFlush
  split
  · refine .bind (inside_flushIfDirty rw) fun error _ => ?_
    split
    · exact ⟨trivial, fun _ _ => trivial⟩
    · trivial
  · trivial

theorem inside_submitSlices (nrTotal : Nat) (slices : List Bio) :
    Inside B old (fun _ => True) (submitSlices nrTotal slices) := by
  induction slices with
  | nil => trivial
  | cons b rest ih =>
    refine inside_touch ?_
    exact .perform (S := LoopSig) trivial fun _ _ => ih

theorem inside_redirectData (hB : HoldsBio blkbits old B) :
    Inside B old (fun _ => True) (redirectData bd blkbits old) := by
  have hbuild : Inside B old (fun _ => True) (buildSlices bd blkbits old) := by
    refine .bind (inside_blockLoop hB _ (.start old) (le_refl _) (le_refl _)) fun done _ => ?_
    cases done <;> trivial
  refine .bind hbuild fun built _ => ?_
  cases built with
  | none => trivial
  | some slices =>
    refine inside_touch ?_
    have hsend : Inside B old (fun _ => True) (sendSlices slices) := by
      unfold sendSlices
      split
      · exact ⟨trivial, fun _ _ => trivial⟩
      · exact inside_submitSlices _ slices
    exact .bind hsend fun _ _ => inside_fuaFlush old.biRw

/-- A bio asks for its blocks. -/
theorem inside_redirectBio (hB : HoldsBio blkbits old B) :
    Inside B old (fun _ => True) (redirectBio bd blkbits old) := by
  have hmagic : Inside B old (fun _ => True) (loopHandleBio old) := by
    refine inside_touch ?_
    by_cases hbd : old.biBdev = none
    · rw [if_pos hbd]
      refine .perform (S := LoopSig) trivial fun _ _ => ?_
      exact .perform (S := LoopSig) trivial fun _ _ => trivial
    · rw [if_neg hbd]
      trivial
  refine .bind hmagic fun _ _ => ?_
  refine inside_touch ?_
  split
  · refine .bind (inside_flushIfDirty old.biRw) fun error _ => ?_
    split
    · exact ⟨trivial, fun _ _ => trivial⟩
    · refine inside_touch ?_
      exact ⟨trivial, fun _ _ => trivial⟩
  · refine .bind inside_preFlush fun ok _ => ?_
    split
    · exact inside_redirectData hB
    · trivial

end Requests

/-! ## What the thread asks for -/

section Service

variable {blkbits capacity : Nat} {B : Nat → Prop} {create : Bool}

variable (blkbits) in
/-- The answers of a host: `get_block` maps at least one block and no more than
    it was asked for, or leaves `b_size` alone. -/
def HostAnswers : (q : ThreadReq) → q.Ans → Prop
  | .getBlock _ bSize _, bh => BhResult.ret bh = 0 ∧
      ((BhResult.bBlocknr bh = 0 ∧ BhResult.bSize bh = bSize) ∨
        (BhResult.bBlocknr bh ≠ 0 ∧ ∃ l, 1 ≤ l ∧ l ≤ max 1 (bSize / 2 ^ blkbits % 2 ^ 32)
          ∧ BhResult.bSize bh = l * 2 ^ blkbits))
  | _, _ => True

theorem hostAnswers {H : Host} {q : ThreadReq} {c c' : Core H} {x : q.Ans}
    (hq : threadHandler H blkbits q c = some (x, c')) :
    HostAnswers blkbits q x := by
  cases q with
  | getBlock b bSize create =>
    cases hq
    generalize hr : H.getBlock c.file b (bSize / 2 ^ blkbits % 2 ^ 32) create = r
    cases hres : r.1 with
    | none => exact ⟨rfl, .inl ⟨rfl, rfl⟩⟩
    | some pl =>
      obtain ⟨p, l⟩ := pl
      obtain ⟨h1, hmax, hmap⟩ := H.extent (by rw [hr]; exact hres)
      have hp : p ≠ 0 := H.ne_zero (hmap 0 (by omega))
      exact ⟨rfl, .inr ⟨hp, l, h1, hmax, rfl⟩⟩
  | _ => trivial

/-- A step asks `get_block` with the flag `create`, and for blocks in `B`. -/
def GetsIn (blkbits : Nat) (B : Nat → Prop) (create : Bool) (q : ThreadReq) : Prop :=
  ∀ b bSize c, q = .getBlock b bSize c →
    c = create ∧ ∀ j < max 1 (bSize / 2 ^ blkbits % 2 ^ 32), B (b + j)

/-- Code of the thread that asks `get_block` so. -/
def Gets (blkbits : Nat) (B : Nat → Prop) (create : Bool) (p : Prog ThreadSig Unit) : Prop :=
  Asks (S := ThreadSig) (GetsIn blkbits B create) (HostAnswers blkbits) (fun _ => True) p

theorem gets_answer (p : Nat) : Gets blkbits B create (answer p) := by
  refine .perform (S := ThreadSig) (q := ThreadReq.storeError 0) nofun fun _ _ => ?_
  refine .perform (S := ThreadSig) (q := ThreadReq.storePhys p) nofun fun _ _ => ?_
  exact ⟨nofun, fun _ _ => trivial⟩

theorem gets_setDirty (c : Bool) : Gets blkbits B create (onlyIf (c = true) setDirty) :=
  .onlyIf fun _ => ⟨nofun, fun _ _ => trivial⟩

theorem gets_serveFlush : Gets blkbits B create serveFlush := by
  refine .perform (S := ThreadSig) (q := ThreadReq.fsync) nofun fun (ret : Int) _ => ?_
  refine .perform (S := ThreadSig) (q := ThreadReq.storeError ret) nofun fun _ _ => ?_
  refine .bind (.onlyIf fun _ => ?_) fun _ _ => ?_
  · exact ⟨nofun, fun _ _ => trivial⟩
  · exact ⟨nofun, fun _ _ => trivial⟩

theorem gets_cacheExtent (first : Bool) (blk p : Nat) :
    ∀ n j, Gets blkbits B create (cacheExtent first blk p n j) := by
  intro n
  induction n with
  | zero => exact fun _ => trivial
  | succ n ih =>
    intro j
    refine .bind (.onlyIf fun _ => gets_answer p) fun _ _ => ?_
    exact .perform (S := ThreadSig) nofun fun _ _ => ih (j + 1)

/-- The loop asks for what is left of the window. -/
theorem gets_prefetchLoop {prefetchBlocks : Int} (hf : Fits prefetchBlocks blkbits) :
    ∀ (fuel : Nat) (i : Int) (blk : Nat), 0 ≤ i →
      (∀ j : Nat, j < prefetchBlocks - i → B (blk + j)) →
      Gets blkbits B create (prefetchLoop prefetchBlocks blkbits create fuel i blk) := by
  intro fuel
  induction fuel with
  | zero =>
    intro i blk _ _
    unfold prefetchLoop
    split
    · refine ⟨fun b bSize c h => ?_, fun x _ => x.elim⟩
      cases h
    · trivial
  | succ fuel ih =>
    intro i blk h0 hB
    by_cases hi : i < prefetchBlocks
    · have hasked := asked_blocks hf h0 hi
      rw [prefetchLoop, if_pos hi]
      refine .perform (S := ThreadSig)
        (q := ThreadReq.getBlock blk (askedSize prefetchBlocks i blkbits) create) ?_
        fun (bh : BhResult) hbh => ?_
      · intro b bSize c heq
        obtain ⟨rfl, rfl, rfl⟩ := ThreadReq.getBlock.inj heq
        refine ⟨rfl, fun j hj => hB j ?_⟩
        rw [hasked] at hj
        omega
      · obtain ⟨ret, phys, size⟩ := bh
        obtain ⟨hret, hsize⟩ := hbh
        obtain rfl : ret = 0 := hret
        rcases hsize with ⟨hzero, hs⟩ | ⟨hphys, l, h1, hle, hs⟩
        · obtain rfl : phys = 0 := hzero
          obtain rfl : size = askedSize prefetchBlocks i blkbits := hs
          have hgot : 0 < gotNum (askedSize prefetchBlocks i blkbits) blkbits := by
            rw [gotNum_askedSize hf h0 hi]
            omega
          rw [afterGetBlock_hole hgot]
          refine .bind (gets_setDirty create) fun _ _ => ?_
          refine .bind (.onlyIf fun _ => gets_answer 0) fun _ _ => ?_
          refine ih (i + 1) (blk + 1) (by omega) fun j hj => ?_
          rw [add_assoc]
          exact hB (1 + j) (by omega)
        · rw [hasked] at hle
          obtain rfl : size = l * 2 ^ blkbits := hs
          have hlt := window_lt hf
          rw [afterGetBlock_extent hphys (gotNum_mul (by omega))]
          refine .bind (gets_setDirty create) fun _ _ => ?_
          refine .bind (gets_cacheExtent _ blk phys l 0) fun _ _ => ?_
          refine ih (i + l) (blk + l) (by omega) fun j hj => ?_
          rw [add_assoc]
          exact hB (l + j) (by omega)
    · rw [prefetchLoop, if_neg hi]
      trivial

/-- A flush asks for nothing, and a translation for the window of its block. -/
theorem gets_serveCio {prefetchBlocks : Int} (fuel : Nat) {cio : CioReq}
    (hin : cio.blkNum = -1 ∨ cio.create.write = create
      ∧ (prefetchBlocks ≤ 0 ∨ Fits prefetchBlocks blkbits)
      ∧ ∀ j : Nat, j < prefetchBlocks → B (cio.blkLocal + j)) :
    Gets blkbits B create (serveCio prefetchBlocks blkbits fuel cio) := by
  unfold serveCio
  split
  · exact gets_serveFlush
  · rename_i hnum
    obtain ⟨rfl, hf, hB⟩ := hin.resolve_left hnum
    refine .perform (S := ThreadSig) nofun fun (cur : Option Nat) _ => ?_
    cases cur with
    | some p => exact .onlyIf fun _ => gets_answer p
    | none =>
      show Gets blkbits B _ (prefetchLoop _ _ _ _ _ _)
      rcases hf with hneg | hf
      · rw [prefetchLoop_done (by omega)]
        trivial
      · exact gets_prefetchLoop hf fuel 0 cio.blkLocal (Int.le_refl 0) fun j hj => hB j (by omega)

end Service

/-! ## Both together -/

section Together

variable {H : Host} {cfg : Config} {old : Bio} {mem : Loc → SectorData} {A B : Nat → Prop}

/-- The windows of the blocks in `A` are in `B`, and they fit. -/
def Widens (cfg : Config) (A B : Nat → Prop) : Prop :=
  ∀ b, A b → (cfg.prefetchBlocks ≤ 0 ∨ Fits cfg.prefetchBlocks cfg.blkbits)
    ∧ ∀ j : Nat, j < cfg.prefetchBlocks → B (b + j)

theorem gets_cio (hP : Widens cfg A B) {r : LoopReq} (hr : AsksIn A old r) {cio : CioReq}
    (hc : requestCio cfg.prefetchBlocks 0 r = some cio) :
    Gets cfg.blkbits B old.biRw.write (serveCio cfg.prefetchBlocks cfg.blkbits cfg.fuel cio) := by
  cases r with
  | cioRequest b rw =>
    obtain ⟨hb, rfl⟩ : A b ∧ rw = old.biRw := hr
    cases hc
    exact gets_serveCio cfg.fuel (.inr ⟨rfl, hP b hb⟩)
  | flush rw =>
    cases hc
    exact gets_serveCio cfg.fuel (.inl rfl)
  | _ => cases hc

theorem gets_request {create : Bool} {cio : CioReq}
    (hp : Gets cfg.blkbits B create (serveCio cfg.prefetchBlocks cfg.blkbits cfg.fuel cio))
    {d d' : Device H} {r : CioReply} (hr : d.request cfg cio = some (r, d')) :
    Gets cfg.blkbits B create d'.pending := by
  unfold Device.request at hr
  split at hr
  · cases hr
  · split at hr
    · cases hr
    · rename_i rest c₁ hu
      cases hr
      exact Asks.runUntil hostAnswers hp hu

/-- What the thread has still to do asks for blocks in `B`, whatever the
    requester does next. -/
theorem gets_step (hP : Widens cfg A B) {r : LoopReq} (hr : AsksIn A old r) {d d' : Device H}
    {x : r.Ans} (hd : Gets cfg.blkbits B old.biRw.write d.pending)
    (hq : deviceHandler H cfg mem r d = some (x, d')) :
    Gets cfg.blkbits B old.biRw.write d'.pending := by
  have hwake : Gets cfg.blkbits B old.biRw.write (d.wake cfg).pending :=
    Asks.stepMany hostAnswers (cfg.sched d.tick) (r := (d.pending, d.core)) hd
  cases r with
  | testDirty =>
    cases hq
    exact hwake
  | cacheLookup b =>
    cases hq
    exact hwake
  | flush rw =>
    obtain ⟨⟨r, d₁⟩, hreq, heq⟩ := Option.map_eq_some_iff.mp hq
    cases heq
    exact gets_request (gets_cio hP hr rfl) hreq
  | cioRequest b rw => exact gets_request (gets_cio hP hr rfl) hq
  | submit b n =>
    cases hq
    have hpend := (transfers_core mem b.biRw.write b.placed d).2.1
    show Gets cfg.blkbits B old.biRw.write (d.transfers mem b.biRw.write b.placed).pending
    rw [hpend]
    exact hd
  | bug => cases hq
  | spin => cases hq
  | _ =>
    cases hq
    exact hd

variable (cfg) in
/-- Code that asks for blocks in `A` has the thread ask for blocks in `B`. -/
theorem getsIn_bioMakes (hP : Widens cfg A B) {q : ThreadReq} {p : Prog LoopSig Unit}
    (hp : Inside A old (fun _ => True) p) :
    ∀ {d : Device H}, Gets cfg.blkbits B old.biRw.write d.pending →
      BioMakes cfg mem q p d → GetsIn cfg.blkbits B old.biRw.write q := by
  induction p with
  | ret a => exact fun hd hq => Asks.trace hostAnswers hd q hq
  | ask r k ih =>
    rintro d hd (hq | hq | ⟨x, d', hx, hq⟩)
    · exact Asks.trace hostAnswers hd q hq
    · cases r with
      | cioRequest b rw =>
        obtain ⟨c, -, hmem⟩ := hq
        exact Asks.trace hostAnswers (gets_cio hP hp.1 rfl) q hmem
      | flush rw =>
        obtain ⟨c, -, hmem⟩ := hq
        exact Asks.trace hostAnswers (gets_cio hP hp.1 rfl) q hmem
      | _ => exact hq.elim
    · exact ih x (hp.2 x trivial) (gets_step hP hp.1 hd hx) hq

end Together

/-! ## The end of the device -/

section LastBlock

variable {H : Host} {cfg : Config} {mem : Loc → SectorData} {q : ThreadReq}

/-- What is made after a step is made. -/
theorem bioMakes_ask {α : Type} {r : LoopReq} {k : r.Ans → Prog LoopSig α} {d d' : Device H}
    {x : r.Ans} (hx : deviceHandler H cfg mem r d = some (x, d')) (hq : BioMakes cfg mem q (k x) d')
    :
    BioMakes cfg mem q (.ask (S := LoopSig) r k) d :=
  .inr (.inr ⟨x, d', hx, hq⟩)

/-- What is made in the first part of a composition is made. -/
theorem bioMakes_bind {α β : Type} {p : Prog LoopSig α} (f : α → Prog LoopSig β) :
    ∀ {d : Device H}, BioMakes cfg mem q p d → BioMakes cfg mem q (p >>= f) d := by
  induction p with
  | ret a =>
    intro d hq
    show BioMakes cfg mem q (f a) d
    cases f a with
    | ret b => exact hq
    | ask r k => exact .inl hq
  | ask r k ih =>
    rintro d (hq | hq | ⟨x, d', hx, hq⟩)
    · exact .inl hq
    · exact .inr (.inl hq)
    · exact .inr (.inr ⟨x, d', hx, ih x hq⟩)

/-- A device over an empty file, with an empty cache and an idle thread. -/
def emptyDevice : Device sparseHost where
  core := ⟨initCache, false, fun _ => false, ⟨0, 0⟩⟩
  pending := .ret ()
  disk := fun _ _ => 0
  io := []
  tick := 0

theorem emptyDevice_wake (cfg : Config) :
    (emptyDevice.wake cfg).core = emptyDevice.core ∧ (emptyDevice.wake cfg).pending = .ret () := by
  have h := stepMany_ret (threadHandler sparseHost cfg.blkbits)
    (cfg.sched emptyDevice.tick) () emptyDevice.core
  constructor
  · exact congrArg Prod.snd h
  · exact congrArg Prod.fst h

/-- A block that is not cached is asked of the thread. -/
theorem bioMakes_translateBlock (mem : Loc → SectorData) (old : Bio) {b : Nat}
    (hq : (emptyDevice.wake cfg).MakesFor cfg (translationCio cfg.prefetchBlocks b old.biRw) q) :
    BioMakes cfg mem q (translateBlock old b) emptyDevice := by
  have hmiss : deviceHandler sparseHost cfg mem (.cacheLookup b) emptyDevice
      = some ((0 : Nat), emptyDevice.wake cfg) := by
    show some ((emptyDevice.wake cfg).core.cache.blockCacheLookup b, _) = _
    rw [(emptyDevice_wake cfg).1]
    rfl
  refine bioMakes_ask hmiss ?_
  refine bioMakes_ask (r := LoopReq.touch) rfl ?_
  exact .inr (.inl hq)

/-- The write asks the thread for the block of its sector. -/
theorem bioMakes_sectorBio (mem : Loc → SectorData) (x bd : Nat)
    (hq : (emptyDevice.wake cfg).MakesFor cfg (translationCio
      cfg.prefetchBlocks (x / 2 ^ (cfg.blkbits - 9)) ⟨true, false, false⟩) q) :
    BioMakes cfg mem q (redirectBio bd cfg.blkbits (sectorBio true x))
      emptyDevice := by
  refine bioMakes_ask (r := LoopReq.touch) rfl ?_
  refine bioMakes_ask (r := LoopReq.touch) rfl ?_
  refine bioMakes_ask (r := LoopReq.touch) rfl ?_
  refine bioMakes_bind (p := buildSlices bd cfg.blkbits (sectorBio true x)) _ ?_
  refine bioMakes_bind _ ?_
  exact bioMakes_bind _ (bioMakes_translateBlock mem (sectorBio true x) hq)

variable (cfg) in
/-- Having allocated the block `b`, the thread goes on to the next one. -/
theorem makesFor_next (hP : 1 < cfg.prefetchBlocks) (hfuel : cfg.fuel = 2) (b : Nat) :
    (emptyDevice.wake cfg).MakesFor cfg (translationCio cfg.prefetchBlocks b ⟨true, false, false⟩)
      (.getBlock (b + 1) (askedSize cfg.prefetchBlocks (0 + 1) cfg.blkbits) true) := by
  obtain ⟨hcore, hpend⟩ := emptyDevice_wake cfg
  refine ⟨emptyDevice.core, by rw [hpend, hcore]; rfl, ?_⟩
  rw [serveCio_translation (by omega), hfuel]
  have hmiss := goesOn_miss cfg.prefetchBlocks cfg.blkbits
    (show emptyDevice.core.cache.findCacheNode b = none from rfl) true 2
  obtain ⟨c, -, -, hgo⟩ := goesOn_mapped cfg.blkbits
    (show (0 : Int) < cfg.prefetchBlocks by omega) (c := emptyDevice.core)
    (Bool.or_true (emptyDevice.core.file b)) 1
  refine (hmiss.trans hgo).makes _ ?_
  rw [prefetchLoop, if_pos (by omega)]
  exact .head _

end LastBlock

theorem not_allocationInside {prefetchBlocks : Int} {blkbits capacity : Nat}
    (hb : 9 ≤ blkbits) (hcap : capacity ≠ 0) (hP : 1 < prefetchBlocks) :
    ¬ AllocationInside prefetchBlocks blkbits capacity := by
  intro hin
  have hmakes := bioMakes_sectorBio (fun _ _ => 0) (capacity - 1) 0 (makesFor_next
      ⟨prefetchBlocks, blkbits, 2, fun _ => 0⟩ hP rfl _)
  have hnext := hin sparseHost 2 (fun _ => 0) (fun _ _ => 0) 0
    (sectorBio true (capacity - 1)) emptyDevice rfl rfl
    (by show capacity - 1 + 1 ≤ capacity; omega) _ hmakes _ _ rfl 0
    (lt_of_lt_of_le Nat.one_pos (Nat.le_max_left _ _))
  -- the block after the last one begins where the device ends
  have hpow : 2 ^ blkbits = 2 ^ (blkbits - 9) * 512 := two_pow_blkbits hb
  have hend := Nat.lt_mul_div_succ (capacity - 1) (Nat.two_pow_pos (blkbits - 9))
  have hlt : ((capacity - 1) / 2 ^ (blkbits - 9) + 1 + 0) * 2 ^ blkbits < capacity * 512 := hnext
  rw [hpow, ← Nat.mul_assoc, add_zero, mul_comm (_ + 1)] at hlt
  omega

/-- With host blocks from 512 bytes to less than 1 GiB: the writes to a device
    allocate blocks of the device only when and only when the device has no
    sectors or the window is at most one block. -/
theorem allocationInside_iff (prefetchBlocks : Int) (blkbits : Nat)
    (hb : 9 ≤ blkbits ∧ blkbits ≤ 29) (offset sizelimit : BitVec 64) (isize : Nat) :
    AllocationInside prefetchBlocks blkbits (getSize offset sizelimit isize).toNat
      ↔ (getSize offset sizelimit isize).toNat = 0 ∨ prefetchBlocks ≤ 1 := by
  generalize (getSize offset sizelimit isize).toNat = capacity
  constructor
  · intro hin
    by_contra h
    rw [not_or] at h
    exact not_allocationInside hb.1 h.1 (by omega) hin
  · intro hP H fuel sched mem bd old d hpend hw hle q hq b bSize hget
    have hbio : HoldsBio blkbits old (fun b => InDevice blkbits capacity b 0) :=
      fun x _ hx => inDevice_of_sector hb.1 (by omega)
    have hwin : Widens ⟨prefetchBlocks, blkbits, fuel, sched⟩
        (fun b => InDevice blkbits capacity b 0) (fun b => InDevice blkbits capacity b 0) := by
      intro b hin
      have hone : prefetchBlocks ≤ 1 := by
        refine hP.resolve_left ?_
        rintro rfl
        exact not_inDevice_zero hin
      refine ⟨?_, fun j (hj : (j : Int) < prefetchBlocks) => ?_⟩
      · rcases Int.lt_or_le 0 prefetchBlocks with hpos | hneg
        · obtain rfl : prefetchBlocks = 1 := by omega
          exact .inr (fits_one hb.2)
        · exact .inl hneg
      · obtain rfl : j = 0 := by omega
        exact hin
    have hd : Gets blkbits (fun b => InDevice blkbits capacity b 0) old.biRw.write d.pending := by
      rw [hpend]
      trivial
    have hgets := getsIn_bioMakes ⟨prefetchBlocks, blkbits, fuel, sched⟩ hwin
      (inside_redirectBio hbio) hd hq
    exact (hgets b bSize true hget).2

/-- Without prefetching, on a host with blocks of a page. -/
theorem allocationInside_single :
    (9 ≤ 12 ∧ 12 ≤ 29) ∧ AllocationInside 1 12 (getSize 0 0 1048576).toNat :=
  ⟨by decide, (allocationInside_iff 1 12 (by decide) 0 0 1048576).mpr
    (Or.inr (Int.le_refl 1))⟩

/-- With the default window, a write to the last sector of a device of one
    mebibyte has blocks after its end allocated. -/
theorem allocationInside_fails : ¬ AllocationInside 128 12 (getSize 0 0 1048576).toNat :=
  not_allocationInside (by decide) (by decide) (by decide)

end VirtualDisk
