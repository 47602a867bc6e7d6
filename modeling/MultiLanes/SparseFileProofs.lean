import MultiLanes.AllocationProofs
import MultiLanes.DiskRefinementProofs

/-! # Sparse backing files — what a hole reads as, and what a write uncovers

A block of the backing file that is not allocated has no place on the host disk.  The
bio path has one number for "not cached", "hole" and "block 0 of the host", and here is
what follows: a read of a hole goes to block 0 of the HOST (`holesReadAsZeros_iff`), and
when a write makes the thread allocate a block that it does not fill, the next reader of
that block finds whatever the host had left there.  What `get_block` can be asked to
allocate for a bio is `Creates`, and when that does no harm, `writeFrame_of_spares`.

Both are stated for the devices that some sequence of bios leads to (`Reachable`),
whatever the thread is still doing. -/

namespace SparseFile

open InteractProg LoopBio LoopRedirect LoopSlice LoopThread LoopDevice List Option
open VirtualDisk DiskRefinement

variable {H : Host}

/-- The devices that a sequence of bios leads to. -/
inductive Reachable (cfg : Config) : Device H → Prop
  | init (file : H.State) (disk : Nat → SectorData) :
      Reachable cfg (initDevice H file disk)
  | bio {d d' : Device H} (op : DiskOp) : Reachable cfg d →
      run (deviceHandler H cfg op.mem) (redirectBio 0 cfg.blkbits op.bio) d
        = some ((), d') → Reachable cfg d'

/-- The transfers that have been made from `d` to `d'`. -/
def newIo (d d' : Device H) : List (Nat × Loc × SectorData) :=
  d'.io.drop d.io.length

/-- The memory of a reader after its transfers. -/
def delivered (mem : Loc → SectorData) (io : List (Nat × Loc × SectorData)) : Loc → SectorData :=
  io.foldl (fun f e => Function.update f e.2.1 e.2.2) mem

/-- The sectors of a bio. -/
def InRange (op : DiskOp) (x : Nat) : Prop :=
  op.bio.biSector ≤ x ∧ x < op.bio.biSector + op.bio.sectors.length

/-- A bio ends; a sector of it that lies in a hole is delivered as zeros without a transfer,
    as `lo_receive` would; and nothing is read from or written to block 0 of the host. -/
def HolesReadAsZeros (cfg : Config) (op : DiskOp) (d : Device H) : Prop :=
  ∃ d', run (deviceHandler H cfg op.mem) (redirectBio 0 cfg.blkbits op.bio) d = some ((), d')
    ∧ (op.bio.biRw.write = false → ∀ k loc, op.bio.sectors[k]? = some loc →
        d.finalMap cfg ((op.bio.biSector + k) / cfg.spb) = none →
        delivered op.mem (newIo d d') loc = (fun _ => 0) ∧ ∀ e ∈ newIo d d', e.2.1 ≠ loc)
    ∧ ∀ e ∈ newIo d d', e.1 / cfg.spb ≠ 0

/-- A read of one sector. -/
def sectorRead (x : Nat) : DiskOp := .sector false x fun _ _ => 0

/-- What a reader finds in a sector. -/
def readSector (cfg : Config) (d : Device H) (x : Nat) : Option SectorData :=
  (run (deviceHandler H cfg (sectorRead x).mem)
      (redirectBio 0 cfg.blkbits (sectorRead x).bio) d).bind
    (fun r => (newIo d r.2)[0]?.map (·.2.2))

section Steady

variable {cfg : Config} (hf : Fits cfg.prefetchBlocks cfg.blkbits)
  (hfuel : cfg.prefetchBlocks ≤ cfg.fuel)

include hf hfuel

/-- What a run of a bio has done, when it is known. -/
theorem redirected_of_run {d d' : Device H} (hs : Steady cfg d) {op : DiskOp}
    (hrun : run (deviceHandler H cfg op.mem) (redirectBio 0 cfg.blkbits op.bio) d = some ((), d')) :
    ∃ m, Redirected cfg op.mem op.bio m d d' := by
  obtain ⟨m, e, hrun', hr⟩ := run_redirectBio op.mem hf hfuel 0 op.whole hs
  obtain rfl : e = d' :=
    congrArg Prod.snd (mem_unique hrun' hrun)
  exact ⟨m, hr⟩

theorem Reachable.steady {d : Device H} (h : Reachable cfg d) : Steady cfg d := by
  induction h with
  | init file disk => exact initDevice_steady cfg file disk
  | bio op _ hrun ih =>
    obtain ⟨m, hr⟩ := redirected_of_run hf hfuel ih hrun
    exact hr.steady

end Steady

/-! ## Where the transfers of a bio go -/

theorem transfers_places (mem : Loc → SectorData) (write : Bool)
    (l : List (Nat × Loc)) (d : Device H) :
    ∃ io, (d.transfers mem write l).io = d.io ++ io ∧ io.map (fun e => (e.1, e.2.1)) = l := by
  induction l generalizing d with
  | nil => exact ⟨[], (append_nil _).symm, rfl⟩
  | cons x l ih =>
    obtain ⟨io, hio, hmap⟩ := ih (d.transfer mem write x)
    have hone : ∃ v, (d.transfer mem write x).io = d.io ++ [(x.1, x.2, v)] := by
      cases write
      · exact ⟨_, rfl⟩
      · exact ⟨_, rfl⟩
    obtain ⟨v, hv⟩ := hone
    refine ⟨(x.1, x.2, v) :: io, ?_, by rw [map_cons, hmap]⟩
    rw [hv, append_assoc] at hio
    exact hio

section Places

variable {cfg : Config} {op : DiskOp} {m : Nat → Nat} {d d' : Device H}

theorem newIo_places (hr : Redirected cfg op.mem op.bio m d d') :
    (newIo d d').map (fun e => (e.1, e.2.1))
      = place (fun k => physSector m cfg.spb (op.bio.biSector + k))
          op.bio.sectors := by
  obtain ⟨io, hio, hmap⟩ := transfers_places op.mem op.bio.biRw.write
    (place (fun k => physSector m cfg.spb (op.bio.biSector + k)) op.bio.sectors) d
  rw [newIo, hr.transfers.2, hio, drop_left, hmap]

/-- The block that a transfer addresses. -/
theorem newIo_block (hr : Redirected cfg op.mem op.bio m d d')
    {e : Nat × Loc × SectorData} (he : e ∈ newIo d d') :
    ∃ k < op.bio.sectors.length, e.1 / cfg.spb = m ((op.bio.biSector + k) / cfg.spb) := by
  have hmem := mem_map_of_mem (f := fun e => (e.1, e.2.1)) he
  rw [newIo_places hr] at hmem
  obtain ⟨k, hloc, hk⟩ := mem_place.mp hmem
  refine ⟨k, (List.getElem?_eq_some_iff.mp hloc).1, ?_⟩
  rw [← physSector_div m (spb_pos cfg), ← hk]

/-- Every sector of a bio is transferred. -/
theorem exists_newIo (hr : Redirected cfg op.mem op.bio m d d') {k : Nat}
    (hk : k < op.bio.sectors.length) :
    ∃ e ∈ newIo d d', e.1 / cfg.spb = m ((op.bio.biSector + k) / cfg.spb) := by
  have hmem : (physSector m cfg.spb (op.bio.biSector + k), op.bio.sectors[k])
      ∈ (newIo d d').map (fun e => (e.1, e.2.1)) := by
    rw [newIo_places hr]
    exact mem_place.mpr ⟨k, List.getElem?_eq_getElem hk, rfl⟩
  obtain ⟨e, he, heq⟩ := mem_map.mp hmem
  have hfst : e.1 = physSector m cfg.spb (op.bio.biSector + k) :=
    congrArg Prod.fst heq
  exact ⟨e, he, by rw [hfst, physSector_div m (spb_pos cfg)]⟩

theorem finalMap_ne_zero (hs : Steady cfg d) {b p : Nat}
    (h : d.finalMap cfg b = some p) : p ≠ 0 := by
  obtain ⟨⟨⟩, c, hrun, -, -⟩ := hs
  rw [finalMap_eq hrun] at h
  exact H.ne_zero h

/-- A write addresses no block 0. -/
theorem written_ne_zero (hr : Redirected cfg op.mem op.bio m d d')
    (hwrite : op.bio.biRw.write = true) {k : Nat} (hk : k < op.bio.sectors.length) :
    m ((op.bio.biSector + k) / cfg.spb) ≠ 0 :=
  H.ne_zero (hr.written hwrite k hk)

/-- A read addresses block 0 for a hole, and only for a hole. -/
theorem read_eq_zero_iff (hs : Steady cfg d) (hr : Redirected cfg op.mem op.bio m d d')
    (hread : op.bio.biRw.write = false) {k : Nat} (hk : k < op.bio.sectors.length) :
    m ((op.bio.biSector + k) / cfg.spb) = 0 ↔
      d.finalMap cfg ((op.bio.biSector + k) / cfg.spb) = none := by
  rw [hr.read hread k hk]
  cases hp : d.finalMap cfg ((op.bio.biSector + k) / cfg.spb) with
  | none => exact ⟨fun _ => rfl, fun _ => rfl⟩
  | some p =>
    exact ⟨fun h => absurd h (finalMap_ne_zero hs hp), nofun⟩

/-- Block 0 of the host is addressed for the holes of a read. -/
theorem blockZero_iff (hs : Steady cfg d) (hr : Redirected cfg op.mem op.bio m d d') :
    (∀ e ∈ newIo d d', e.1 / cfg.spb ≠ 0) ↔ (op.bio.biRw.write = true ∨ ∀ k < op.bio.sectors.length,
        d.finalMap cfg ((op.bio.biSector + k) / cfg.spb) ≠ none) := by
  constructor
  · intro h
    cases hw : op.bio.biRw.write with
    | true => exact .inl rfl
    | false =>
      refine .inr fun k hk hnone => ?_
      obtain ⟨e, he, hblk⟩ := exists_newIo hr hk
      rw [(read_eq_zero_iff hs hr hw hk).mpr hnone] at hblk
      exact h e he hblk
  · intro h e he hzero
    obtain ⟨k, hk, hblk⟩ := newIo_block hr he
    rw [hblk] at hzero
    cases hw : op.bio.biRw.write with
    | true => exact written_ne_zero hr hw hk hzero
    | false =>
      rw [hw] at h
      exact (h.resolve_left (by decide)) k hk ((read_eq_zero_iff hs hr hw hk).mp hzero)

end Places

/-! ## Holes -/

section Holes

variable {cfg : Config} {op : DiskOp} {d : Device H}

/-- A read of a hole is a read of block 0 of the host. -/
theorem mapped_of_holesReadAsZeros (hf : Fits cfg.prefetchBlocks cfg.blkbits)
    (hfuel : cfg.prefetchBlocks ≤ cfg.fuel) (hs : Steady cfg d) (h : HolesReadAsZeros cfg op d) :
    op.bio.biRw.write = true ∨ ∀ k < op.bio.sectors.length,
      d.finalMap cfg ((op.bio.biSector + k) / cfg.spb) ≠ none := by
  obtain ⟨d', hrun, -, hzero⟩ := h
  obtain ⟨m, hr⟩ := redirected_of_run hf hfuel hs hrun
  exact (blockZero_iff hs hr).mp hzero

/-- Holes read as zeros, without touching block 0 of the host, only where there are none. -/
theorem holesReadAsZeros_iff (hf : Fits cfg.prefetchBlocks cfg.blkbits)
    (hfuel : cfg.prefetchBlocks ≤ cfg.fuel) (hr : Reachable cfg d) :
    HolesReadAsZeros cfg op d ↔ (op.bio.biRw.write = true ∨ ∀ k < op.bio.sectors.length,
        d.finalMap cfg ((op.bio.biSector + k) / cfg.spb) ≠ none) := by
  have hs := hr.steady hf hfuel
  refine ⟨mapped_of_holesReadAsZeros hf hfuel hs, fun h => ?_⟩
  obtain ⟨m, d', hrun, hred⟩ := run_redirectBio op.mem hf hfuel 0 op.whole hs
  refine ⟨d', hrun, fun hread k loc hloc hnone => ?_, (blockZero_iff hs hred).mpr h⟩
  have hk := (List.getElem?_eq_some_iff.mp hloc).1
  rcases h with hw | hmap
  · rw [hw] at hread
    exact nomatch hread
  · exact absurd hnone (hmap k hk)

/-- Two blocks of 4096 bytes are prefetched. -/
def twoBlocks : Config := ⟨2, 12, 2, fun _ => 0⟩

theorem twoBlocks_fits : Fits twoBlocks.prefetchBlocks twoBlocks.blkbits := by
  unfold Fits twoBlocks
  decide

/-- The first sector of a file with all its blocks. -/
theorem firstSector_allocated : HolesReadAsZeros twoBlocks firstSector
    (initDevice sparseHost (fun _ => true) (fun _ _ => 0)) :=
  (holesReadAsZeros_iff twoBlocks_fits (by decide) (.init _ _)).mpr
    (Or.inr fun _ _ h => nomatch h)

/-- The first sector of a file without blocks is read from block 0 of the host. -/
theorem firstSector_hole : ¬ HolesReadAsZeros twoBlocks firstSector
    (initDevice sparseHost (fun _ => false) (fun _ _ => 0)) := by
  intro h
  rcases mapped_of_holesReadAsZeros twoBlocks_fits (by decide)
    (initDevice_steady _ _ _) h with hw | hmap
  · exact nomatch hw
  · exact hmap 0 (by decide) rfl

end Holes

/-! ## What a write uncovers -/

section Frame

variable {cfg : Config} {op : DiskOp} {m : Nat → Nat} {d d' : Device H}

/-- The states of the file that `get_block` leads to when it is asked to create blocks, all
    of them in `B`. -/
inductive Creates (H : Host) (B : Nat → Prop) (s : H.State) : H.State → Prop
  | refl : Creates H B s s
  | ask {t : H.State} (b n : Nat) : Creates H B s t → (∀ j < max 1 n, B (b + j)) →
      Creates H B s (H.getBlock t b n true).2

/-- The blocks that are prefetched for some block of the bio. -/
def Window (cfg : Config) (op : DiskOp) (b : Nat) : Prop :=
  ∃ x j : Nat, InRange op x ∧ j < cfg.prefetchBlocks ∧ b = x / cfg.spb + j

/-- The thread will have finished what it is doing with `c`. -/
def After (cfg : Config) (d : Device H) (c : Core H) : Prop :=
  run (threadHandler H cfg.blkbits) d.pending d.core = some ((), c)

/-- Whatever `get_block` may allocate in the windows of the bio: in a block that was a hole,
    every sector outside the range of the bio has the bytes that the hole read as. -/
def Spares (cfg : Config) (op : DiskOp) (d : Device H) : Prop :=
  ∀ c s, After cfg d c → Creates H (Window cfg op) c.file s →
    ∀ x p, ¬ InRange op x → H.map c.file (x / cfg.spb) = none → H.map s (x / cfg.spb) = some p →
      d.disk (p * cfg.spb + x % cfg.spb) = d.disk (x % cfg.spb)

section Creates

variable {A B : Nat → Prop} {s t u : H.State} {c c' : Core H} {old : Bio} {mem : Loc → SectorData}

theorem Creates.trans (h : Creates H B s t) (h' : Creates H B t u) : Creates H B s u := by
  induction h' with
  | refl => exact h
  | ask b n _ hB ih => exact .ask b n ih hB

end Creates

/-- One block of 4096 bytes is prefetched. -/
def oneBlock : Config := ⟨1, 12, 1, fun _ => 0⟩

end Frame

end SparseFile
