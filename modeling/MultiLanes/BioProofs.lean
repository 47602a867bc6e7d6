import Mathlib.Data.List.Basic
import Mathlib.Tactic.Ring

/-! # Bios — which sector sits where

A bio moves whole 512-byte sectors between consecutive device sectors and places in
memory.  `Bio.sectors` lists the places in transfer order and `Bio.placed` pairs each
with its device sector, so that what a list of bios transfers is the concatenation of
its placements.

`bioStore` is what `bio_add_page` does to a bio when it takes a piece: it grows the last
vector when the piece continues it in the same page and appends a vector otherwise.  In
terms of sectors the two are the same (`bioStore_sectors`). -/

namespace LoopBio

open List

/-- The bits of `bi_rw` that the driver looks at: `REQ_WRITE`, `REQ_FLUSH` and `REQ_FUA`. -/
structure ReqFlags where
  write : Bool
  flush : Bool
  fua : Bool
deriving DecidableEq, Repr

/-- One segment of a bio: `bvLen` bytes at byte `bvOffset` of a page. -/
structure BioVec where
  bvPage : Nat
  bvLen : Nat
  bvOffset : Nat
deriving DecidableEq, Repr, Inhabited

/-- `struct bio`.  `bi_vcnt` is the length of `biIoVec`; `biBdev = none` is the
    null device of the magic bio. -/
structure Bio where
  biBdev : Option Nat
  biSector : Nat
  biRw : ReqFlags
  biIdx : Nat
  biMaxVecs : Nat
  biIoVec : List BioVec
deriving DecidableEq, Repr

/-- A bio of one sector, in the first page. -/
def sectorBio (write : Bool) (x : Nat) : Bio where
  biBdev := some 0
  biSector := x
  biRw := ⟨write, false, false⟩
  biIdx := 0
  biMaxVecs := 1
  biIoVec := [⟨0, 512, 0⟩]

/-- A place in memory: a page and a byte offset in it. -/
abbrev Loc : Type := Nat × Nat

/-- The places of the sectors of one segment. -/
def BioVec.sectors (v : BioVec) : List Loc :=
  (range (v.bvLen / 512)).map (fun t => (v.bvPage, v.bvOffset + 512 * t))

/-- The places of the sectors of a list of segments. -/
def vecSectors (vs : List BioVec) : List Loc := vs.flatMap BioVec.sectors

/-- The segments that `bio_for_each_segment` visits. -/
def Bio.segments (b : Bio) : List BioVec := b.biIoVec.drop b.biIdx

/-- The places of a bio's sectors in transfer order. -/
def Bio.sectors (b : Bio) : List Loc := vecSectors b.segments

/-- The first loop of `redirect_bio`: `nr_total_sectors += bv_len >> 9`. -/
def Bio.nrSectors (b : Bio) : Nat :=
  (b.segments.map (fun v => v.bvLen / 512)).sum

/-- Number the elements of a list of places by device sector. -/
def place (f : Nat → Nat) (ls : List Loc) : List (Nat × Loc) :=
  ls.mapIdx (fun k l => (f k, l))

/-- Every sector of a bio with the device sector it is transferred at. -/
def Bio.placed (b : Bio) : List (Nat × Loc) :=
  place (fun t => b.biSector + t) b.sectors

/-- A bio whose segments are whole sectors. -/
def Bio.Whole (b : Bio) : Prop := ∀ v ∈ b.biIoVec, 512 ∣ v.bvLen

/-- `bio_add_page` when it takes the piece. -/
def bioStore (b : Bio) (page len off : Nat) : Bio :=
  match b.biIoVec.getLast? with
  | some prev =>
    if prev.bvPage = page ∧ off = prev.bvOffset + prev.bvLen then
      { b with biIoVec := b.biIoVec.dropLast ++
          [{ prev with bvLen := prev.bvLen + len }] }
    else { b with biIoVec := b.biIoVec ++ [⟨page, len, off⟩] }
  | none => { b with biIoVec := b.biIoVec ++ [⟨page, len, off⟩] }

/-! ## Counting and splitting sector lists -/

@[simp] theorem BioVec.sectors_length (v : BioVec) : v.sectors.length = v.bvLen / 512 := by
  simp [BioVec.sectors]

@[simp] theorem vecSectors_nil : vecSectors [] = [] := rfl

@[simp] theorem vecSectors_cons (v : BioVec) (vs : List BioVec) :
    vecSectors (v :: vs) = v.sectors ++ vecSectors vs := rfl

@[simp] theorem vecSectors_append (vs ws : List BioVec) :
    vecSectors (vs ++ ws) = vecSectors vs ++ vecSectors ws :=
  flatMap_append

theorem vecSectors_length (vs : List BioVec) :
    (vecSectors vs).length = (vs.map (fun v => v.bvLen / 512)).sum := by
  induction vs with
  | nil => rfl
  | cons v vs ih => simp [ih]

/-- The sector count of the first loop is the number of sectors. -/
theorem Bio.nrSectors_eq (b : Bio) : b.nrSectors = b.sectors.length :=
  (vecSectors_length b.segments).symm

/-- A segment of whole sectors cut after `t` sectors. -/
theorem sectors_split (page off len t : Nat) (ht : t ≤ len / 512) :
    (BioVec.mk page len off).sectors = (BioVec.mk page (t * 512) off).sectors
        ++ (BioVec.mk page (len - t * 512) (off + t * 512)).sectors := by
  have hlen : len / 512 = t + (len - t * 512) / 512 := by omega
  simp only [BioVec.sectors, Nat.mul_div_cancel t (by norm_num : 0 < 512)]
  rw [hlen, range_add, map_append, map_map]
  congr 1
  apply map_congr_left
  intro j _
  simp only [Function.comp_apply, Prod.mk.injEq, true_and]
  ring

@[simp] theorem place_length (f : Nat → Nat) (ls : List Loc) : (place f ls).length = ls.length := by
  simp [place]

theorem place_append (f : Nat → Nat) (ls ms : List Loc) :
    place f (ls ++ ms) = place f ls ++ place (fun k => f (k + ls.length)) ms := by
  simp [place, mapIdx_append]

theorem place_congr {f g : Nat → Nat} {ls : List Loc}
    (h : ∀ k, k < ls.length → f k = g k) : place f ls = place g ls := by
  apply ext_getElem (by simp)
  intro k hk _
  simp only [place, getElem_mapIdx, Prod.mk.injEq, and_true]
  exact h k (by simpa using hk)

/-- Equal placements number equal positions equally. -/
theorem place_inj {f g : Nat → Nat} {ls : List Loc}
    (h : place f ls = place g ls) : ∀ k, k < ls.length → f k = g k := by
  intro k hk
  have h' : (place f ls)[k]? = (place g ls)[k]? := by rw [h]
  simpa [place, getElem?_mapIdx, hk] using h'

/-! ## Storing a piece -/

@[simp] theorem bioStore_biSector (b : Bio) (page len off : Nat) :
    (bioStore b page len off).biSector = b.biSector := by
  unfold bioStore
  split
  · split <;> rfl
  · rfl

@[simp] theorem bioStore_biIdx (b : Bio) (page len off : Nat) :
    (bioStore b page len off).biIdx = b.biIdx := by
  unfold bioStore
  split
  · split <;> rfl
  · rfl

@[simp] theorem bioStore_biRw (b : Bio) (page len off : Nat) :
    (bioStore b page len off).biRw = b.biRw := by
  unfold bioStore
  split
  · split <;> rfl
  · rfl

/-- A bio that took a piece is not empty. -/
theorem bioStore_ne_nil (b : Bio) (page len off : Nat) :
    (bioStore b page len off).biIoVec ≠ [] := by
  unfold bioStore
  split
  · split <;> simp
  · simp

theorem bioStore_whole {b : Bio} {page len off : Nat} (hb : b.Whole)
    (hlen : 512 ∣ len) : (bioStore b page len off).Whole := by
  unfold bioStore
  split
  · rename_i prev hprev
    have hmem : prev ∈ b.biIoVec := mem_of_getLast? hprev
    split
    · intro v hv
      rcases mem_append.mp hv with hd | hl
      · exact hb v (dropLast_subset _ hd)
      · cases mem_singleton.mp hl
        exact Nat.dvd_add (hb prev hmem) hlen
    · intro v hv
      rcases mem_append.mp hv with hd | hl
      · exact hb v hd
      · cases mem_singleton.mp hl
        exact hlen
  · intro v hv
    rcases mem_append.mp hv with hd | hl
    · exact hb v hd
    · cases mem_singleton.mp hl
      exact hlen

/-- Merged or appended, a stored piece adds its sectors at the end. -/
theorem bioStore_sectors {b : Bio} (hb : b.Whole) (hidx : b.biIdx = 0) (page len off : Nat) :
    (bioStore b page len off).sectors = b.sectors ++ (BioVec.mk page len off).sectors := by
  have happ : ∀ (b' : Bio), b'.biIdx = 0 → b'.biIoVec = b.biIoVec ++ [⟨page, len, off⟩] →
      b'.sectors = b.sectors ++ (BioVec.mk page len off).sectors := by
    intro b' h0 hv
    simp [Bio.sectors, Bio.segments, h0, hidx, hv]
  unfold bioStore
  split
  · rename_i prev hprev
    have hmem : prev ∈ b.biIoVec := mem_of_getLast? hprev
    have hsplit : b.biIoVec = b.biIoVec.dropLast ++ [prev] :=
      (dropLast_append_getLast? prev hprev).symm
    split
    · -- the piece continues the last segment in its page
      rename_i hcont
      obtain ⟨hpage, hoff⟩ := hcont
      obtain ⟨q, hq⟩ := hb prev hmem
      have hcut : (BioVec.mk prev.bvPage (prev.bvLen + len) prev.bvOffset).sectors
          = prev.sectors ++ (BioVec.mk page len off).sectors := by
        rw [sectors_split _ _ _ q (by omega)]
        have h1 : q * 512 = prev.bvLen := by omega
        have h2 : prev.bvLen + len - q * 512 = len := by omega
        rw [h2, h1, hpage, hoff]
        subst hpage
        rfl
      have hold : b.sectors = vecSectors b.biIoVec.dropLast ++ prev.sectors := by
        rw [Bio.sectors, Bio.segments, hidx, drop_zero]
        conv_lhs => rw [hsplit]
        simp
      rw [hold, append_assoc, ← hcut]
      simp [Bio.sectors, Bio.segments, hidx]
    · exact happ _ hidx rfl
  · exact happ _ hidx rfl

end LoopBio
