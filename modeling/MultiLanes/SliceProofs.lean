import MultiLanes.RedirectProofs

/-! # Slicing — every sector once, at the sector its block is mapped to

Two unaligned partitions of a bio meet in `redirect_bio`: the blocks of the backing file
and the segments of the bio.  A piece is a maximal run of sectors inside one block and
one segment, and the slices are runs of pieces.

The loop invariant says where the sectors placed so far sit.  It holds as long as no
piece is refused in the MIDDLE of a block: a refused piece opens a slice at
`sec_nr_phys`, the physical sector of the block's first piece, and not at its own.
`slices_placed_iff` makes that exact. -/

namespace LoopSlice

open InteractProg LoopBio LoopRedirect Function List

variable {σ : Type}

/-- The physical sector of a logical one under a block map. -/
def physSector (m : Nat → Nat) (spb x : Nat) : Nat := m (x / spb) * spb + x % spb

/-- Where the first `k` sectors of a bio belong under a block map. -/
def expected (m : Nat → Nat) (spb : Nat) (old : Bio) (k : Nat) : List (Nat × Loc) :=
  place (fun j => physSector m spb (old.biSector + j)) (old.sectors.take k)

/-- Sector `k` of the bio is the first of a segment. -/
def SegmentStart (old : Bio) (k : Nat) : Prop :=
  ∃ j, k = (vecSectors (old.segments.take j)).length

/-- No piece that starts before sector `k` is refused in the middle of a block. -/
def RefusedAtBlockStart (refuse : Nat → Bool) (spb : Nat) (old : Bio) (k : Nat) : Prop :=
  ∀ j, 0 < j → j < k → SegmentStart old j → refuse j = true → spb ∣ old.biSector + j

/-- What the two loops rely on.  `At k s`: in state `s`, `k` sectors have been taken by
    `bio_add_page`; a piece offered then is refused when `refuse k`, unless the slice is empty.
    A piece WITHOUT sectors may be taken or refused as it comes.  `Q b p s` is what a translation
    of block `b` to `p` establishes, and `R` is how states evolve. -/
structure SliceEnv (h : Handler LoopSig σ) (old : Bio)
    (At : Nat → σ → Prop) (R : σ → σ → Prop) (Q : Nat → Nat → σ → Prop)
    (refuse : Nat → Bool) : Prop where
  refl : ∀ s, R s s
  trans : ∀ {s t u}, R s t → R t u → R s u
  keep : ∀ {b p s t}, Q b p s → R s t → Q b p t
  touch : ∀ s, h LoopReq.touch s = some ((), s)
  alloc : ∀ n s, h (LoopReq.bioAlloc n) s = some (true, s)
  refused : ∀ {k s t} (b : Bio) (page off : Nat), At k s → 0 < t →
    refuse k = true → b.biIoVec ≠ [] →
    ∃ s', h (LoopReq.addPage b page (t * 512) off) s = some ((0, b), s') ∧ At k s' ∧ R s s'
  taken : ∀ {k s t} (b : Bio) (page off : Nat), At k s → 0 < t →
    (refuse k = false ∨ b.biIoVec = []) →
    ∃ s', h (LoopReq.addPage b page (t * 512) off) s
        = some ((t * 512, bioStore b page (t * 512) off), s')
      ∧ At (k + t) s' ∧ R s s'
  empty : ∀ {k s} (b : Bio) (page off : Nat), At k s →
    ∃ b' s', h (LoopReq.addPage b page 0 off) s = some ((0, b'), s')
      ∧ (b' = b ∨ b' = bioStore b page 0 off) ∧ At k s' ∧ R s s'
  translate : ∀ {k s} (b : Nat), At k s →
    ∃ p s', run h (translateBlock old b) s = some (some p, s') ∧ At k s' ∧ R s s' ∧ Q b p s'

/-! ## Arithmetic of blocks -/

variable {spb x t k : Nat} {old : Bio} {m m' : Nat → Nat}

/-- Steps inside a block. -/
theorem mod_add (h : x % spb + t < spb) : (x + t) % spb = x % spb + t := by
  conv_lhs => rw [← Nat.div_add_mod x spb]
  rw [add_assoc, Nat.mul_add_mod, Nat.mod_eq_of_lt h]

/-- See `mod_add`. -/
theorem div_add (h : x % spb + t < spb) : (x + t) / spb = x / spb := by
  have hpos : 0 < spb := by omega
  rw [← Nat.div_add_mod x spb, add_assoc, Nat.mul_add_div hpos,
    Nat.mul_add_div hpos, Nat.div_eq_of_lt h,
    Nat.div_eq_of_lt (Nat.mod_lt x hpos)]

theorem not_dvd_add (ht : 0 < t) (h : x % spb + t < spb) : ¬ spb ∣ x + t := by
  intro hd
  have hmod := mod_add h
  rw [Nat.mod_eq_zero_of_dvd hd] at hmod
  omega

theorem physSector_add (m : Nat → Nat) (h : x % spb + t < spb) :
    physSector m spb (x + t) = physSector m spb x + t := by
  rw [physSector, physSector, div_add h, mod_add h, add_assoc]

@[simp] theorem expected_length (m : Nat → Nat) (spb : Nat) (old : Bio)
    (hk : k ≤ old.sectors.length) :
    (expected m spb old k).length = k := by
  simp [expected, hk]

/-- The next `t` sectors of a bio, all in one block, are expected at
    consecutive physical sectors. -/
theorem expected_add (m : Nat → Nat) (hk : k + t ≤ old.sectors.length)
    (hblk : (old.biSector + k) % spb + t ≤ spb) :
    expected m spb old (k + t) = expected m spb old k
        ++ place (fun j => physSector m spb (old.biSector + k) + j)
            ((old.sectors.drop k).take t) := by
  have hlen : (old.sectors.take k).length = k := by
    rw [length_take]
    omega
  rw [expected, take_add, place_append, hlen]
  congr 1
  apply place_congr
  intro j hj
  have hjt : j < t := by
    rw [length_take] at hj
    omega
  show physSector m spb (old.biSector + (j + k)) = _
  rw [show old.biSector + (j + k) = (old.biSector + k) + j by omega]
  exact physSector_add m (by omega)

/-- Only the blocks of the listed sectors matter. -/
theorem expected_congr
    (h : ∀ j, j < k → m ((old.biSector + j) / spb) = m' ((old.biSector + j) / spb)) :
    expected m spb old k = expected m' spb old k := by
  apply place_congr
  intro j hj
  rw [length_take] at hj
  rw [physSector, physSector, h j (by omega)]

/-! ## One piece -/

/-- The sectors of the bio not yet put on a slice. -/
def ahead (old : Bio) (c : Cursor) : List Loc :=
  (BioVec.mk c.page c.curPageLen c.curPageOffset).sectors ++ vecSectors (old.biIoVec.drop c.i)

/-- Everything put on slices so far, with the open slice last. -/
def flat (c : Cursor) (nb : Bio) : List (Nat × Loc) :=
  (c.head ++ [nb]).flatMap Bio.placed

/-- The invariant of the inner loop with `k` sectors placed, the next one of
    the current block due at physical sector `due`. -/
structure Filling (m : Nat → Nat) (spb : Nat) (refuse : Nat → Bool)
    (old : Bio) (k due : Nat) (nb : Bio) (c : Cursor) : Prop where
  whole : nb.Whole
  idx : nb.biIdx = 0
  rwOpen : nb.biRw = old.biRw
  rwHead : ∀ b ∈ c.head, b.biRw = old.biRw
  dvd : 512 ∣ c.curPageLen
  seg : old.biIdx ≤ c.i
  cur : c.curPageLen ≠ 0 → ∃ j v, c.i = old.biIdx + j + 1
    ∧ old.segments[j]? = some v ∧ c.curPageLen ≤ v.bvLen
  ahead_eq : ahead old c = old.sectors.drop k
  length_eq : (flat c nb).length = k
  good : RefusedAtBlockStart refuse spb old k →
    flat c nb = expected m spb old k ∧ nb.biSector + nb.sectors.length = due
  bad : ¬ RefusedAtBlockStart refuse spb old k → flat c nb ≠ expected m spb old k

variable {c : Cursor} {nb : Bio}

theorem flat_store (hw : nb.Whole) (hidx : nb.biIdx = 0) (page len off : Nat) :
    flat c (bioStore nb page len off)
      = flat c nb ++ place (fun j => nb.biSector + nb.sectors.length + j)
          (BioVec.mk page len off).sectors := by
  have hplaced : (bioStore nb page len off).placed
      = nb.placed ++ place (fun j => nb.biSector + nb.sectors.length + j)
          (BioVec.mk page len off).sectors := by
    rw [Bio.placed, bioStore_sectors hw hidx, place_append, bioStore_biSector, Bio.placed]
    congr 1
    apply place_congr
    intro j _
    omega
  simp [flat, hplaced]

theorem flat_advance (c : Cursor) (nb : Bio) (n : Nat) : flat (c.advance n) nb = flat c nb := rfl

theorem flat_send (c : Cursor) (nb fb : Bio) (hf : fb.sectors = []) :
    flat (c.loSendBio nb) fb = flat c nb := by
  have : fb.placed = [] := by rw [Bio.placed, hf]; rfl
  simp [flat, Cursor.loSendBio, this]

/-- A piece is cut off the front of what lies ahead. -/
theorem ahead_advance (old : Bio) (ht : t ≤ c.curPageLen / 512) :
    ahead old c = (BioVec.mk c.page (t * 512) c.curPageOffset).sectors
      ++ ahead old (c.advance t) := by
  rw [ahead, sectors_split _ _ _ t ht, append_assoc]
  rfl

/-- A cursor at the end of a segment is at the start of the next one. -/
theorem segmentStart_of_empty (hlen : c.curPageLen = 0) (hseg : old.biIdx ≤ c.i)
    (hk : k ≤ old.sectors.length) (ha : ahead old c = old.sectors.drop k) : SegmentStart old k := by
  refine ⟨c.i - old.biIdx, ?_⟩
  have h1 : ahead old c = vecSectors (old.biIoVec.drop c.i) := by
    simp [ahead, BioVec.sectors, hlen]
  have h2 : old.biIoVec.drop c.i = old.segments.drop (c.i - old.biIdx) := by
    rw [Bio.segments, drop_drop]
    congr 1
    omega
  have h3 : old.sectors = vecSectors (old.segments.take (c.i - old.biIdx))
      ++ vecSectors (old.segments.drop (c.i - old.biIdx)) := by
    rw [← vecSectors_append, take_append_drop]
    rfl
  have h4 := congrArg length (ha.symm.trans (h1.trans (by rw [h2])))
  have h5 := congrArg length h3
  rw [length_append] at h5
  rw [length_drop] at h4
  omega


/-- The sectors before the `j`-th segment. -/
def before (old : Bio) (j : Nat) : Nat := (vecSectors (old.segments.take j)).length

theorem before_mono (old : Bio) {i j : Nat} (hij : i ≤ j) : before old i ≤ before old j := by
  have hsplit : old.segments.take j = old.segments.take i ++ (old.segments.take j).drop i := by
    conv_lhs => rw [← take_append_drop i (old.segments.take j)]
    rw [take_take, Nat.min_eq_left hij]
  rw [before, before, hsplit, vecSectors_append, length_append]
  exact Nat.le_add_right _ _

theorem before_succ {j : Nat} {v : BioVec} (hv : old.segments[j]? = some v) :
    before old (j + 1) = before old j + v.bvLen / 512 := by
  rw [before, before, take_add_one, hv]
  simp

theorem before_add_drop (old : Bio) (j : Nat) :
    before old j + (vecSectors (old.segments.drop j)).length = old.sectors.length := by
  rw [before, ← length_append, ← vecSectors_append, take_append_drop]
  rfl

/-- No segment starts strictly inside the current piece. -/
theorem no_start_inside
    (hk : k ≤ old.sectors.length) (ht : t ≤ c.curPageLen / 512)
    (hcur : c.curPageLen ≠ 0 → ∃ j v, c.i = old.biIdx + j + 1
      ∧ old.segments[j]? = some v ∧ c.curPageLen ≤ v.bvLen)
    (ha : ahead old c = old.sectors.drop k) :
    ∀ j, k < j → j < k + t → ¬ SegmentStart old j := by
  rintro j hkj hjt ⟨i, hi⟩
  have hne : c.curPageLen ≠ 0 := by
    intro h0
    rw [h0] at ht
    omega
  obtain ⟨a, v, hia, hv, hle⟩ := hcur hne
  -- the piece lies between the start and the end of segment `a`
  have hdrop : old.biIoVec.drop c.i = old.segments.drop (a + 1) := by
    rw [Bio.segments, drop_drop, hia, add_assoc]
  have hlen := congrArg length ha
  rw [ahead, length_append, BioVec.sectors_length, hdrop, length_drop] at hlen
  have hend := before_add_drop old (a + 1)
  have hsucc := before_succ hv
  have hdiv : c.curPageLen / 512 ≤ v.bvLen / 512 :=
    Nat.div_le_div_right hle
  have hi' : j = before old i := hi
  simp only at hlen
  rcases lt_or_ge a i with hlt | hge
  · have := before_mono old (show a + 1 ≤ i from hlt)
    omega
  · have := before_mono old hge
    omega

variable {refuse : Nat → Bool} {due : Nat}

/-- How the refusal condition grows by one piece. -/
theorem refusedAtBlockStart_add (hin : ∀ j, k < j → j < k + t → ¬ SegmentStart old j) :
    RefusedAtBlockStart refuse spb old (k + t) ↔ RefusedAtBlockStart refuse spb old k ∧
        (0 < t → 0 < k → SegmentStart old k → refuse k = true → spb ∣ old.biSector + k) := by
  constructor
  · intro h
    refine ⟨fun j h0 hj => h j h0 (by omega), ?_⟩
    intro ht h0
    exact h k h0 (by omega)
  · rintro ⟨h1, h2⟩ j h0 hj hs hr
    rcases Nat.lt_trichotomy j k with hlt | heq | hgt
    · exact h1 j h0 hlt hs hr
    · subst heq
      exact h2 (by omega) h0 hs hr
    · exact absurd hs (hin j hgt hj)


/-- The next piece is the next `t` sectors. -/
theorem piece_eq (ha : ahead old c = old.sectors.drop k) (ht : t ≤ c.curPageLen / 512) :
    (BioVec.mk c.page (t * 512) c.curPageOffset).sectors = (old.sectors.drop k).take t := by
  rw [← ha, ahead_advance old ht, take_left' (by simp)]

/-- What lies ahead after the next piece. -/
theorem ahead_advance_eq (ha : ahead old c = old.sectors.drop k) (ht : t ≤ c.curPageLen / 512) :
    ahead old (c.advance t) = old.sectors.drop (k + t) := by
  have h := congrArg (List.drop t) (ahead_advance old ht)
  rw [drop_left' (by simp), ha, drop_drop] at h
  exact h.symm

/-- A piece of `t` sectors put down at physical sector `base`.  The invariant goes on when
    `base` is where the piece belongs exactly as long as the refusal condition holds. -/
theorem Filling.grow
    {nb' : Bio}
    (hf : Filling m spb refuse old k due nb c) (base : Nat) (hd : List Bio)
    (hk : k + t ≤ old.sectors.length)
    (hblk : (old.biSector + k) % spb + t ≤ spb)
    (ht : t ≤ c.curPageLen / 512)
    (hw : nb'.Whole) (hidx : nb'.biIdx = 0)
    (hrw : nb'.biRw = old.biRw) (hhd : ∀ b ∈ hd, b.biRw = old.biRw)
    (hflat : flat { c.advance t with head := hd } nb'
      = flat c nb ++ place (fun j => base + j) ((old.sectors.drop k).take t))
    (hgood : RefusedAtBlockStart refuse spb old (k + t) →
      RefusedAtBlockStart refuse spb old k ∧ base = physSector m spb (old.biSector + k)
        ∧ nb'.biSector + nb'.sectors.length = due + t)
    (hbad : ¬ RefusedAtBlockStart refuse spb old (k + t) → ¬ RefusedAtBlockStart refuse spb old k
        ∨ (0 < t ∧ base ≠ physSector m spb (old.biSector + k))) :
    Filling m spb refuse old (k + t) (due + t) nb' { c.advance t with head := hd } := by
  have hexp := expected_add m hk hblk
  have hlen : ((old.sectors.drop k).take t).length = t := by
    rw [length_take, length_drop]
    omega
  refine
    { whole := hw
      idx := hidx
      rwOpen := hrw
      rwHead := hhd
      dvd := Nat.dvd_sub hf.dvd ⟨t, mul_comm t 512⟩
      seg := hf.seg
      cur := ?_
      ahead_eq := ahead_advance_eq hf.ahead_eq ht
      length_eq := by rw [hflat, length_append, hf.length_eq, place_length, hlen]
      good := ?_
      bad := ?_ }
  · intro hne
    have hne' : c.curPageLen ≠ 0 := by
      intro h0
      exact hne (by simp [Cursor.advance, h0])
    obtain ⟨j, v, hi, hv, hle⟩ := hf.cur hne'
    exact ⟨j, v, hi, hv, le_trans (Nat.sub_le _ _) hle⟩
  · intro hg
    obtain ⟨hg', hbase, hend⟩ := hgood hg
    exact ⟨by rw [hflat, hexp, (hf.good hg').1, hbase], hend⟩
  · intro hb heq
    rw [hflat, hexp] at heq
    have hparts := append_inj heq (by rw [hf.length_eq, expected_length m spb old (by omega)])
    rcases hbad hb with hb' | ⟨htpos, hne⟩
    · exact hf.bad hb' hparts.1
    · have h0 := place_inj hparts.2 0 (by omega)
      exact hne (by simpa using h0)

/-- A piece that the open slice takes. -/
theorem Filling.store (hf : Filling m spb refuse old k due nb c) (hk : k + t ≤ old.sectors.length)
    (hblk : (old.biSector + k) % spb + t ≤ spb) (hdue : due = physSector m spb (old.biSector + k))
    (ht : t ≤ c.curPageLen / 512)
    (hok : 0 < t → 0 < k → SegmentStart old k → refuse k = true → spb ∣ old.biSector + k) :
    Filling m spb refuse old (k + t) (due + t)
      (bioStore nb c.page (t * 512) c.curPageOffset) (c.advance t) := by
  have hin := no_start_inside (by omega) ht hf.cur hf.ahead_eq
  have hsame : RefusedAtBlockStart refuse spb old (k + t) ↔
      RefusedAtBlockStart refuse spb old k := by
    rw [refusedAtBlockStart_add hin]
    exact ⟨fun h => h.1, fun h => ⟨h, hok⟩⟩
  by_cases hg : RefusedAtBlockStart refuse spb old k
  · obtain ⟨-, hend⟩ := hf.good hg
    refine hf.grow due c.head hk hblk ht (bioStore_whole hf.whole ⟨t, mul_comm t 512⟩)
      ((bioStore_biIdx ..).trans hf.idx) ((bioStore_biRw ..).trans hf.rwOpen)
      hf.rwHead ?_ ?_ ?_
    · show flat (c.advance t) _ = _
      rw [flat_advance, flat_store hf.whole hf.idx, piece_eq hf.ahead_eq ht, hend]
    · intro _
      refine ⟨hg, hdue, ?_⟩
      rw [bioStore_biSector, bioStore_sectors hf.whole hf.idx,
        length_append, BioVec.sectors_length, ← hend]
      simp [add_assoc]
    · exact fun hb => absurd (hsame.mpr hg) hb
  · refine hf.grow (nb.biSector + nb.sectors.length) c.head hk hblk ht
      (bioStore_whole hf.whole ⟨t, mul_comm t 512⟩)
      ((bioStore_biIdx ..).trans hf.idx) ((bioStore_biRw ..).trans hf.rwOpen)
      hf.rwHead ?_ ?_ ?_
    · show flat (c.advance t) _ = _
      rw [flat_advance, flat_store hf.whole hf.idx, piece_eq hf.ahead_eq ht]
    · exact fun h => absurd (hsame.mp h) hg
    · exact fun _ => .inl hg

/-- A slice that has just been opened at physical sector `due`. -/
structure Fresh (old : Bio) (due : Nat) (fb : Bio) : Prop where
  sector : fb.biSector = due
  idx : fb.biIdx = 0
  vecs : fb.biIoVec = []
  rw : fb.biRw = old.biRw

variable {fb : Bio}

theorem Fresh.sectors (hfb : Fresh old due fb) : fb.sectors = [] := by
  rw [Bio.sectors, Bio.segments, hfb.vecs]
  simp

theorem Fresh.whole (hfb : Fresh old due fb) : fb.Whole := by
  intro v hv
  rw [hfb.vecs] at hv
  cases hv

/-- Sending the open slice and opening one where the next sector belongs. -/
theorem Filling.send {due' : Nat} (hf : Filling m spb refuse old k due nb c)
    (hfb : Fresh old due' fb) (hm : expected m spb old k = expected m' spb old k) :
    Filling m' spb refuse old k due' fb (c.loSendBio nb) := by
  have hsend : flat (c.loSendBio nb) fb = flat c nb :=
    flat_send c nb fb hfb.sectors
  refine
    { whole := hfb.whole
      idx := hfb.idx
      rwOpen := hfb.rw
      rwHead := ?_
      dvd := hf.dvd
      seg := hf.seg
      cur := hf.cur
      ahead_eq := hf.ahead_eq
      length_eq := by rw [hsend]; exact hf.length_eq
      good := ?_
      bad := ?_ }
  · intro b hb
    rcases mem_append.mp hb with hd | hl
    · exact hf.rwHead b hd
    · cases mem_singleton.mp hl
      exact hf.rwOpen
  · intro hg
    refine ⟨by rw [hsend, (hf.good hg).1, hm], ?_⟩
    rw [hfb.sectors, hfb.sector]
    rfl
  · intro hb
    rw [hsend, ← hm]
    exact hf.bad hb

/-- A refused piece on a fresh slice: the slice starts where the block's first piece
    belongs, so the sectors are misplaced unless the piece is that one. -/
theorem Filling.reopen
    {d : Nat}
    (hf : Filling m spb refuse old k (due + d) nb c)
    (hk : k + t ≤ old.sectors.length)
    (hblk : (old.biSector + k) % spb + t ≤ spb)
    (hdue : due + d = physSector m spb (old.biSector + k))
    (ht : t ≤ c.curPageLen / 512) (htpos : 0 < t)
    (hfb : Fresh old due fb) (hr : refuse k = true)
    (hpos : (d = 0 ∧ (k = 0 ∨ spb ∣ old.biSector + k)) ∨
      (0 < d ∧ 0 < k ∧ ¬ spb ∣ old.biSector + k ∧ SegmentStart old k)) :
    Filling m spb refuse old (k + t) (due + d + t) (bioStore fb c.page (t * 512) c.curPageOffset)
      ((c.loSendBio nb).advance t) := by
  rcases hpos with ⟨rfl, hal⟩ | ⟨hd, hk0, hndvd, hss⟩
  · -- the first piece of a block: the fresh slice starts at the right sector
    refine (hf.send hfb rfl).store hk hblk hdue ht ?_
    intro _ h0 _ _
    rcases hal with hz | hdvd
    · omega
    · exact hdvd
  · -- a piece in the middle of a block: from here on the invariant is broken
    have hin := no_start_inside (by omega) ht hf.cur hf.ahead_eq
    have hnot : ¬ RefusedAtBlockStart refuse spb old (k + t) := by
      intro hg
      exact hndvd (((refusedAtBlockStart_add hin).mp hg).2 htpos hk0 hss hr)
    have hsent := hf.send hfb rfl
    refine hf.grow due (c.head ++ [nb]) hk hblk ht (bioStore_whole hfb.whole ⟨t, mul_comm t 512⟩)
      ((bioStore_biIdx ..).trans hfb.idx) ((bioStore_biRw ..).trans hfb.rw)
      hsent.rwHead ?_ ?_ ?_
    · show flat ((c.loSendBio nb).advance t) _ = _
      rw [flat_advance, flat_store hfb.whole hfb.idx,
        flat_send c nb fb hfb.sectors, piece_eq hf.ahead_eq ht, hfb.sectors,
        hfb.sector]
      rfl
    · exact fun hg => absurd hg hnot
    · intro _
      exact .inr ⟨htpos, by omega⟩

theorem load_segment (hi : c.i < old.biIoVec.length) : c.load old = { c with
      page := old.biIoVec[c.i].bvPage
      curPageOffset := old.biIoVec[c.i].bvOffset
      curPageLen := old.biIoVec[c.i].bvLen
      i := c.i + 1 } := by
  have hget : old.biIoVec.getD c.i default = old.biIoVec[c.i] := by
    simp [List.getD, hi]
  rw [Cursor.load, hget]

/-- Loading the next segment changes nothing that lies ahead. -/
theorem ahead_load (h0 : c.curPageLen = 0)
    (hi : c.i < old.biIoVec.length) : ahead old (c.load old) = ahead old c := by
  rw [load_segment hi, ahead, ahead, h0, drop_eq_getElem_cons hi, vecSectors_cons]
  simp [BioVec.sectors]

/-- As long as sectors lie ahead of an exhausted segment, another one follows. -/
theorem segments_left (h0 : c.curPageLen = 0)
    (ha : 0 < (ahead old c).length) : c.i < old.biIoVec.length := by
  by_contra hge
  have hnil : ahead old c = [] := by
    rw [ahead, drop_eq_nil_of_le (Nat.le_of_not_lt hge), h0]
    simp [BioVec.sectors]
  rw [hnil] at ha
  exact absurd ha (Nat.not_lt_zero 0)

theorem Filling.load (hf : Filling m spb refuse old k due nb c) (hw : old.Whole)
    (h0 : c.curPageLen = 0) (hi : c.i < old.biIoVec.length) :
    Filling m spb refuse old k due nb (c.load old) := by
  have hahead := ahead_load h0 hi
  rw [load_segment hi] at hahead ⊢
  have hseg := hf.seg
  refine
    { whole := hf.whole
      idx := hf.idx
      rwOpen := hf.rwOpen
      rwHead := hf.rwHead
      dvd := hw _ (getElem_mem hi)
      seg := Nat.le_succ_of_le hf.seg
      cur := fun _ => ⟨c.i - old.biIdx, old.biIoVec[c.i], ?_, ?_, le_refl _⟩
      ahead_eq := hahead.trans hf.ahead_eq
      length_eq := hf.length_eq
      good := hf.good
      bad := hf.bad }
  · show c.i + 1 = _
    omega
  · rw [Bio.segments, getElem?_drop, show old.biIdx + (c.i - old.biIdx) = c.i by omega]
    exact getElem?_eq_getElem hi

/-- See `segments_left`. -/
theorem Filling.segments_left (hf : Filling m spb refuse old k due nb c) (h0 : c.curPageLen = 0)
    (hk : k < old.sectors.length) : c.i < old.biIoVec.length := by
  refine LoopSlice.segments_left h0 ?_
  rw [hf.ahead_eq, length_drop]
  omega

/-- The inner loop leaves the locals of the outer one alone. -/
structure SameBlock (c c' : Cursor) : Prop where
  secNrLogical : c'.secNrLogical = c.secNrLogical
  nextSector : c'.nextSector = c.nextSector
  nrTotalSectors : c'.nrTotalSectors = c.nrTotalSectors
  count : c'.count = c.count

theorem SameBlock.refl (c : Cursor) : SameBlock c c := ⟨rfl, rfl, rfl, rfl⟩

theorem SameBlock.trans {c' c'' : Cursor} (h : SameBlock c c')
    (h' : SameBlock c' c'') : SameBlock c c'' :=
  ⟨h'.1.trans h.1, h'.2.trans h.2, h'.3.trans h.3, h'.4.trans h.4⟩

/-! ## Between two blocks -/

/-- The invariant does not see the locals of the outer loop. -/
theorem Filling.of_same {c' : Cursor} (hf : Filling m spb refuse old k due nb c) (hi : c'.i = c.i)
    (hpage : c'.page = c.page) (hoff : c'.curPageOffset = c.curPageOffset)
    (hlen : c'.curPageLen = c.curPageLen) (hhead : c'.head = c.head) :
    Filling m spb refuse old k due nb c' := by
  have hflat : flat c' nb = flat c nb := by rw [flat, flat, hhead]
  have hahead : ahead old c' = ahead old c := by
    rw [ahead, ahead, hi, hpage, hoff, hlen]
  exact
    { whole := hf.whole
      idx := hf.idx
      rwOpen := hf.rwOpen
      rwHead := by rw [hhead]; exact hf.rwHead
      dvd := by rw [hlen]; exact hf.dvd
      seg := by rw [hi]; exact hf.seg
      cur := by rw [hlen, hi]; exact hf.cur
      ahead_eq := hahead.trans hf.ahead_eq
      length_eq := by rw [hflat]; exact hf.length_eq
      good := by rw [hflat]; exact hf.good
      bad := by rw [hflat]; exact hf.bad }

/-- Only the blocks of the sectors placed so far are read from the map. -/
theorem Filling.remap (hf : Filling m spb refuse old k due nb c)
    (hm : expected m spb old k = expected m' spb old k) :
    Filling m' spb refuse old k due nb c :=
  { hf with
    good := fun hg => by rw [← hm]; exact hf.good hg
    bad := fun hb => by rw [← hm]; exact hf.bad hb }

/-- Between two rounds of the outer loop: no slice yet, or an open one. -/
def Between (m : Nat → Nat) (spb : Nat) (refuse : Nat → Bool) (old : Bio)
    (k : Nat) (c : Cursor) : Prop :=
  match c.newBio with
  | none => k = 0 ∧ c.count = 0 ∧ c.head = [] ∧ c.i = old.biIdx ∧ c.curPageLen = 0
  | some nb => c.count ≠ 0 ∧ Filling m spb refuse old k c.nextSector nb c

/-- The first slice. -/
theorem Fresh.filling (hfb : Fresh old due fb) (hhead : c.head = []) (hi : c.i = old.biIdx)
    (hlen : c.curPageLen = 0) :
    Filling m spb refuse old 0 due fb c := by
  have hflat : flat c fb = [] := by
    simp [flat, hhead, Bio.placed, hfb.sectors, place]
  refine
    { whole := hfb.whole
      idx := hfb.idx
      rwOpen := hfb.rw
      rwHead := by rw [hhead]; exact forall_mem_nil _
      dvd := by rw [hlen]; exact Nat.dvd_zero 512
      seg := Nat.le_of_eq hi.symm
      cur := fun hne => absurd hlen hne
      ahead_eq := ?_
      length_eq := by rw [hflat]; rfl
      good := ?_
      bad := ?_ }
  · rw [ahead, hlen, hi]
    simp [BioVec.sectors, Bio.sectors, Bio.segments]
  · intro _
    rw [hflat, hfb.sectors, hfb.sector]
    exact ⟨rfl, rfl⟩
  · intro hb
    exact absurd (fun j _ hj => absurd hj (Nat.not_lt_zero j)) hb

/-- What the slices hold between two blocks. -/
theorem Between.placed_iff (hb : Between m spb refuse old k c) :
    (c.head ++ c.newBio.toList).flatMap Bio.placed = expected m spb old k
      ↔ RefusedAtBlockStart refuse spb old k := by
  unfold Between at hb
  split at hb
  · rename_i hnone
    obtain ⟨rfl, -, hhead, -, -⟩ := hb
    rw [hhead, hnone]
    exact ⟨fun _ j _ hj => absurd hj (Nat.not_lt_zero j), fun _ => rfl⟩
  · rename_i nb hsome
    obtain ⟨-, hf⟩ := hb
    rw [hsome]
    exact ⟨fun heq => by_contra fun hbad => hf.bad hbad heq, fun hg => (hf.good hg).1⟩

/-- Every slice carries the flags of the bio. -/
theorem Between.rw (hb : Between m spb refuse old k c) :
    ∀ b ∈ c.head ++ c.newBio.toList, b.biRw = old.biRw := by
  unfold Between at hb
  split at hb
  · rename_i hnone
    obtain ⟨-, -, hhead, -, -⟩ := hb
    rw [hhead, hnone]
    exact fun b hmem => nomatch hmem
  · rename_i nb hsome
    obtain ⟨-, hf⟩ := hb
    rw [hsome]
    intro b hmem
    rcases mem_append.mp hmem with hd | hl
    · exact hf.rwHead b hd
    · cases mem_singleton.mp hl
      exact hf.rwOpen

/-- The map learns a block after those of the first `k` sectors. -/
theorem extend_map {s₀ : Nat} (m : Nat → Nat) (p : Nat) (hstart : k = 0 ∨ spb ∣ s₀ + k) :
    ∃ m' : Nat → Nat, m' ((s₀ + k) / spb) = p
      ∧ ∀ j < k, m' ((s₀ + j) / spb) = m ((s₀ + j) / spb) := by
  refine ⟨update m ((s₀ + k) / spb) p, update_self _ p m, ?_⟩
  intro j hj
  refine update_of_ne ?_ p m
  rcases hstart with h0 | hdvd
  · omega
  · exact ne_of_lt (Nat.div_lt_div_of_lt_of_dvd hdvd (by omega))

/-! ## Running the loops -/

/-- A fresh slice. -/
def freshBio (bd start : Nat) (old : Bio) : Bio where
  biBdev := some bd
  biSector := start
  biRw := old.biRw
  biIdx := 0
  biMaxVecs := min old.biIoVec.length bioMaxPages
  biIoVec := []

theorem freshBio_fresh (bd start : Nat) (old : Bio) :
    Fresh old start (freshBio bd start old) := ⟨rfl, rfl, rfl, rfl⟩

section Loops

variable {h : Handler LoopSig σ} {old : Bio} {At : Nat → σ → Prop}
  {R : σ → σ → Prop} {Q : Nat → Nat → σ → Prop} {refuse : Nat → Bool}
  (env : SliceEnv h old At R Q refuse)
include env

theorem run_loNewBio (bd start : Nat) (s : σ) :
    run h (loNewBio bd start old) s = some (some (freshBio bd start old), s) := by
  unfold loNewBio
  rw [run_touch (env.touch s), run_bioAlloc (env.alloc _ s)]
  rfl

variable {m : Nat → Nat} {spb k due : Nat} {nb : Bio} {c : Cursor} {s : σ} {blkbits : Nat}

/-- `if (cur_page_len == 0)`: the load, and what it costs of the fuel. -/
theorem run_loadSegment {r : Nat} (hw : old.Whole) (hf : Filling m spb refuse old k due nb c)
    (hk : k + (r + 1) ≤ old.sectors.length) (s : σ) :
    ∃ c₁, run h (loadSegment old c) s = some (c₁, s) ∧ Filling m spb refuse old k due nb c₁
      ∧ (c₁.curPageLen / 512 = 0 → old.biIoVec.length - c₁.i < old.biIoVec.length - c.i)
      ∧ c.i ≤ c₁.i
      ∧ SameBlock c c₁ := by
  by_cases h0 : c.curPageLen = 0
  · have hi : c.i < old.biIoVec.length := hf.segments_left h0 (by omega)
    refine ⟨c.load old, ?_, hf.load hw h0 hi, fun _ => ?_, Nat.le_succ _, ⟨rfl, rfl, rfl, rfl⟩⟩
    · rw [loadSegment, if_pos h0, run_touch (env.touch s)]
      rfl
    · show old.biIoVec.length - (c.i + 1) < _
      omega
  · refine ⟨c, ?_, hf, fun hz => ?_, le_refl _, SameBlock.refl c⟩
    · rw [loadSegment, if_neg h0]
      rfl
    · have := hf.dvd
      omega

/-- A piece without sectors: whether it is taken makes no difference. -/
theorem run_addPiece_zero (bd start : Nat) (hat : At k s) (hf : Filling m spb refuse old k due nb c)
    (hk : k ≤ old.sectors.length) (hblk : (old.biSector + k) % spb ≤ spb)
    (hdue : due = physSector m spb (old.biSector + k)) :
    ∃ nb' s', run h (addPiece bd old start 0 nb c) s = some (some (nb', c.advance 0), s')
      ∧ At k s' ∧ R s s' ∧ (nb.biIoVec ≠ [] → nb'.biIoVec ≠ [])
      ∧ Filling m spb refuse old k due nb' (c.advance 0) := by
  obtain ⟨b', s', hans, hb', hat', hR⟩ :=
    env.empty nb c.page c.curPageOffset hat
  refine ⟨b', s', ?_, hat', hR, ?_⟩
  · unfold addPiece
    rw [Nat.zero_mul, run_bioAddPage hans, if_pos rfl]
    rfl
  rcases hb' with rfl | rfl
  · exact ⟨id, hf⟩
  · refine ⟨fun _ => bioStore_ne_nil _ _ _ _, ?_⟩
    have := hf.store (t := 0) hk hblk hdue (Nat.zero_le _) (fun h0 => absurd h0 (Nat.lt_irrefl 0))
    simpa using this

/-- One piece, whether `bio_add_page` takes it or refuses it. -/
theorem run_addPiece {d : Nat}
    (bd t : Nat) (hat : At k s)
    (hf : Filling m spb refuse old k (due + d) nb c)
    (hk : k + t ≤ old.sectors.length)
    (hblk : (old.biSector + k) % spb + t ≤ spb)
    (hdue : due + d = physSector m spb (old.biSector + k))
    (ht : t ≤ c.curPageLen / 512)
    (hpos : (d = 0 ∧ (k = 0 ∨ spb ∣ old.biSector + k)) ∨
      (0 < d ∧ 0 < k ∧ ¬ spb ∣ old.biSector + k ∧ SegmentStart old k ∧ nb.biIoVec ≠ [])) :
    ∃ nb' hd s', run h (addPiece bd old due t nb c) s
        = some (some (nb', { c.advance t with head := hd }), s')
      ∧ At (k + t) s' ∧ R s s'
      ∧ (0 < t ∨ nb.biIoVec ≠ [] → nb'.biIoVec ≠ [])
      ∧ Filling m spb refuse old (k + t) (due + d + t) nb' { c.advance t with head := hd } := by
  rcases Nat.eq_zero_or_pos t with rfl | htpos
  · obtain ⟨nb', s', hrun, hat', hR, hne, hf'⟩ :=
      run_addPiece_zero env bd due hat hf hk hblk hdue
    exact ⟨nb', c.head, s', hrun, hat', hR, fun ho => hne (ho.resolve_left (lt_irrefl 0)), hf'⟩
  by_cases href : refuse k = true ∧ nb.biIoVec ≠ []
  · obtain ⟨s₁, hans, hat₁, hR₁⟩ := env.refused nb c.page c.curPageOffset hat htpos href.1 href.2
    obtain ⟨s', hans', hat', hR⟩ := env.taken (freshBio bd due old) c.page
      c.curPageOffset hat₁ htpos (.inr rfl)
    refine ⟨bioStore (freshBio bd due old) c.page (t * 512) c.curPageOffset,
      c.head ++ [nb], s', ?_, hat', env.trans hR₁ hR,
      fun _ => bioStore_ne_nil _ _ _ _, ?_⟩
    · unfold addPiece
      rw [run_bioAddPage hans, if_neg (show ¬ (0 = t * 512) by omega)]
      rw [run_bind_some (run_loNewBio env bd due s₁)]
      rw [run_bioAddPage hans', if_pos rfl]
      rfl
    · refine hf.reopen hk hblk hdue ht htpos (freshBio_fresh bd due old) href.1 ?_
      rcases hpos with hl | ⟨h1, h2, h3, h4, -⟩
      · exact .inl hl
      · exact .inr ⟨h1, h2, h3, h4⟩
  · have hnr : refuse k = false ∨ nb.biIoVec = [] := by
      by_cases hr : refuse k = true
      · exact .inr (by_contra fun hne => href ⟨hr, hne⟩)
      · exact .inl (by simpa using hr)
    obtain ⟨s', hans, hat', hR⟩ := env.taken nb c.page c.curPageOffset hat htpos hnr
    refine ⟨bioStore nb c.page (t * 512) c.curPageOffset, c.head, s', ?_,
      hat', hR, fun _ => bioStore_ne_nil _ _ _ _, ?_⟩
    · unfold addPiece
      rw [run_bioAddPage hans, if_pos rfl]
      rfl
    · refine hf.store hk hblk hdue ht ?_
      intro _ hk0 _ hr
      rcases hpos with ⟨-, hz | hdvd⟩ | ⟨-, -, -, -, hne⟩
      · omega
      · exact hdvd
      · rcases hnr with hrf | hem
        · rw [hr] at hrf
          exact Bool.noConfusion hrf
        · exact absurd hem hne

/-- The inner loop, from `d` sectors into a block.  A piece that is not the
    block's first starts a segment. -/
theorem run_fillBlock (bd : Nat) (hw : old.Whole) (hdue : due = physSector m spb (old.biSector + k))
    (hstart : k = 0 ∨ spb ∣ old.biSector + k) :
    ∀ (fuel d r : Nat) (nb : Bio) (c : Cursor) (s : σ),
      r + (old.biIoVec.length - c.i) ≤ fuel → At (k + d) s →
      Filling m spb refuse old (k + d) (due + d) nb c →
      k + d + r ≤ old.sectors.length →
      (old.biSector + k) % spb + d + r ≤ spb →
      (0 < r → 0 < d → c.curPageLen = 0 ∧ nb.biIoVec ≠ []) →
      ∃ nb' c' s', run h (fillBlock bd old due fuel r nb c) s = some (some (nb', c'), s')
        ∧ At (k + d + r) s' ∧ R s s'
        ∧ Filling m spb refuse old (k + d + r) (due + d + r) nb' c'
        ∧ SameBlock c c' := by
  intro fuel
  induction fuel with
  | zero =>
    intro d r nb c s hfuel hat hf _ _ _
    obtain rfl : r = 0 := by omega
    exact ⟨nb, c, s, rfl, hat, env.refl s, hf, SameBlock.refl c⟩
  | succ fuel ih =>
    intro d r nb c s hfuel hat hf hk hblk hmid
    cases r with
    | zero => exact ⟨nb, c, s, rfl, hat, env.refl s, hf, SameBlock.refl c⟩
    | succ r =>
      obtain ⟨c₁, hrun, hf₁, hlen, hmeas, hout⟩ :=
        run_loadSegment env hw hf hk s
      -- where in its block and in its segment the piece starts
      have hpos : (d = 0 ∧ (k + d = 0 ∨ spb ∣ old.biSector + (k + d))) ∨
          (0 < d ∧ 0 < k + d ∧ ¬ spb ∣ old.biSector + (k + d)
            ∧ SegmentStart old (k + d) ∧ nb.biIoVec ≠ []) := by
        rcases Nat.eq_zero_or_pos d with h0 | hd
        · exact .inl ⟨h0, by rw [h0]; exact hstart⟩
        · obtain ⟨hl, hne⟩ := hmid (by omega) hd
          refine .inr ⟨hd, by omega, ?_, ?_, hne⟩
          · rw [← add_assoc]
            exact not_dvd_add hd (by omega)
          · exact segmentStart_of_empty hl hf.seg (by omega) hf.ahead_eq
      have hphys : due + d = physSector m spb (old.biSector + (k + d)) := by
        rw [← add_assoc, physSector_add m (by omega), hdue]
      have hmod : (old.biSector + (k + d)) % spb = (old.biSector + k) % spb + d := by
        rw [← add_assoc]
        exact mod_add (by omega)
      generalize ht : min (r + 1) (c₁.curPageLen / 512) = t at *
      obtain ⟨nb', hd, s', hpiece, hat', hR, hne', hf'⟩ :=
        run_addPiece env bd t hat hf₁ (by omega) (by omega) hphys (by omega) hpos
      -- an empty piece has used up a segment
      have hfuel' : r + 1 - t + (old.biIoVec.length - c₁.i) ≤ fuel := by
        omega
      have hmid' : 0 < r + 1 - t → 0 < d + t → c₁.curPageLen - t * 512 = 0 ∧ nb'.biIoVec ≠ [] := by
        intro hr hdt
        have := hf₁.dvd
        refine ⟨by omega, hne' ?_⟩
        rcases Nat.eq_zero_or_pos t with h0 | htpos
        · exact .inr (hmid (by omega) (by omega)).2
        · exact .inl htpos
      obtain ⟨nb'', c'', s'', hrest, hat'', hR', hf'', hout'⟩ :=
        ih (d + t) (r + 1 - t) nb' { c₁.advance t with head := hd } s' hfuel' (by rwa [← add_assoc])
          (by rwa [← add_assoc, ← add_assoc])
          (by omega) (by omega) hmid'
      refine ⟨nb'', c'', s'', ?_, ?_, env.trans hR hR', ?_, ?_⟩
      · rw [fillBlock, run_bind_some hrun, ht, run_bind_some hpiece]
        exact hrest
      · rwa [show k + (d + t) + (r + 1 - t) = k + d + (r + 1) by omega]
          at hat''
      · rwa [show k + (d + t) + (r + 1 - t) = k + d + (r + 1) by omega,
          show due + (d + t) + (r + 1 - t) = due + d + (r + 1) by omega]
          at hf''
      · exact hout.trans ⟨hout'.1, hout'.2, hout'.3, hout'.4⟩

/-- Opening a block: the open slice goes on exactly when the block continues it. -/
theorem run_openSlice {m' : Nat → Nat} (hb : Between m spb refuse old k c)
    (hm : expected m spb old k = expected m' spb old k) (bd due : Nat) (s : σ) :
    ∃ nb, run h (openSlice bd due old (c.cut due)) s = some (some nb, s)
      ∧ Filling m' spb refuse old k due nb (c.cut due) := by
  unfold Between at hb
  split at hb
  · rename_i hnone
    obtain ⟨rfl, hcount, hhead, hi, hlen⟩ := hb
    have hcut : c.cut due = c := if_neg (fun hc => hc.1 hcount)
    refine ⟨freshBio bd due old, ?_, ?_⟩
    · rw [hcut, openSlice, hnone]
      exact run_loNewBio env bd due s
    · rw [hcut]
      exact (freshBio_fresh bd due old).filling hhead hi hlen
  · rename_i nb hsome
    obtain ⟨hcount, hf⟩ := hb
    by_cases hnext : due = c.nextSector
    · have hcut : c.cut due = c := if_neg (fun hc => hc.2 hnext)
      refine ⟨nb, ?_, ?_⟩
      · rw [hcut, openSlice, hsome]
        rfl
      · rw [hcut, hnext]
        exact hf.remap hm
    · have hcut : c.cut due = { c with head := c.head ++ c.newBio.toList, newBio := none } :=
        if_pos ⟨hcount, hnext⟩
      refine ⟨freshBio bd due old, ?_, ?_⟩
      · rw [hcut, openSlice]
        exact run_loNewBio env bd due s
      · rw [hcut, hsome]
        exact (hf.send (freshBio_fresh bd due old) hm).of_same rfl rfl rfl rfl rfl

/-- One round of the outer loop. -/
theorem run_blockLoop_succ (bd fuel : Nat) (hw : old.Whole) (hspb : 2 ^ (blkbits - 9) = spb)
    (hk : k < old.sectors.length) (hat : At k s) (hsec : c.secNrLogical = old.biSector + k)
    (htot : c.nrTotalSectors = old.sectors.length - k) (hstart : k = 0 ∨ spb ∣ old.biSector + k)
    (hb : Between m spb refuse old k c)
    (hq : ∀ j < k, Q ((old.biSector + j) / spb) (m ((old.biSector + j) / spb)) s) :
    ∃ m' c' s' r, 0 < r ∧ k + r ≤ old.sectors.length
      ∧ run h (blockLoop bd blkbits old (fuel + 1) c) s
          = run h (blockLoop bd blkbits old fuel c') s'
      ∧ At (k + r) s' ∧ R s s'
      ∧ c'.secNrLogical = old.biSector + (k + r)
      ∧ c'.nrTotalSectors = old.sectors.length - (k + r)
      ∧ (k + r = old.sectors.length ∨ spb ∣ old.biSector + (k + r))
      ∧ Between m' spb refuse old (k + r) c'
      ∧ ∀ j < k + r, Q ((old.biSector + j) / spb) (m' ((old.biSector + j) / spb)) s' := by
  have hpos : 0 < spb := by rw [← hspb]; exact Nat.two_pow_pos _
  obtain ⟨p, s₁, htr, hat₁, hR₁, hq₁⟩ :=
    env.translate ((old.biSector + k) / spb) hat
  obtain ⟨m', hnew, hold⟩ := extend_map m p hstart
  generalize hdue : physSector m' spb (old.biSector + k) = due
  have hphys : p * 2 ^ (blkbits - 9) + c.secNrLogical % 2 ^ (blkbits - 9)
      = due := by rw [hspb, hsec, ← hdue, physSector, hnew]
  have hmod := Nat.mod_lt (old.biSector + k) hpos
  generalize hr : min c.nrTotalSectors (spb - c.secNrLogical % spb) = r
  have hr' : r = min (old.sectors.length - k)
      (spb - (old.biSector + k) % spb) := by rw [← hr, htot, hsec]
  obtain ⟨nb, hopen, hf⟩ := run_openSlice env hb
    (expected_congr fun j hj => (hold j hj).symm) bd due s₁
  generalize hc₁ : ({ c.cut due with
      count := (c.cut due).count + 1
      nrTotalSectors := (c.cut due).nrTotalSectors - r
      nextSector := due + r
      secNrLogical := (c.cut due).secNrLogical + r } : Cursor) = c₁
  have hf₁ : Filling m' spb refuse old k due nb c₁ := by
    subst hc₁
    exact hf.of_same rfl rfl rfl rfl rfl
  obtain ⟨nb', c₂, s₂, hfill, hat₂, hR₂, hf₂, hsame⟩ :=
    run_fillBlock env bd hw hdue.symm hstart (r + old.biIoVec.length)
      0 r nb c₁ s₁ (by omega) hat₁ hf₁ (by omega) (by omega)
      (fun _ h0 => absurd h0 (lt_irrefl 0))
  have hcsec : (c.cut due).secNrLogical = c.secNrLogical := by
    unfold Cursor.cut; split <;> rfl
  have hctot : (c.cut due).nrTotalSectors = c.nrTotalSectors := by
    unfold Cursor.cut; split <;> rfl
  refine ⟨m', { c₂ with newBio := some nb' }, s₂, r, by omega, by omega, ?_,
    hat₂, env.trans hR₁ hR₂, ?_, ?_, ?_, ⟨?_, ?_⟩, ?_⟩
  · rw [blockLoop, if_neg (by omega : ¬ c.nrTotalSectors = 0), hspb, hsec]
    rw [run_bind_some htr]
    rw [hspb, hsec] at hphys
    simp only [hphys]
    rw [run_bind_some hopen]
    rw [hsec] at hr
    rw [← hc₁] at hfill
    simp only [hr]
    rw [run_bind_some hfill]
  · show c₂.secNrLogical = _
    rw [hsame.secNrLogical, ← hc₁]
    show (c.cut due).secNrLogical + r = _
    omega
  · show c₂.nrTotalSectors = _
    rw [hsame.nrTotalSectors, ← hc₁]
    show (c.cut due).nrTotalSectors - r = _
    omega
  · rcases lt_or_ge (old.sectors.length - k) (spb - (old.biSector + k) % spb) with hlt | hge
    · left
      omega
    · right
      have hsum := Nat.div_add_mod (old.biSector + k) spb
      refine ⟨(old.biSector + k) / spb + 1, ?_⟩
      rw [Nat.mul_succ]
      omega
  · show c₂.count ≠ 0
    rw [hsame.count, ← hc₁]
    exact Nat.succ_ne_zero _
  · show Filling m' spb refuse old (k + r) c₂.nextSector nb' _
    rw [hsame.nextSector, ← hc₁]
    exact hf₂.of_same rfl rfl rfl rfl rfl
  · intro j hj
    refine env.keep ?_ hR₂
    rcases lt_or_ge j k with hlt | hge
    · rw [hold j hlt]
      exact env.keep (hq j hlt) hR₁
    · have hdiv : (old.biSector + j) / spb = (old.biSector + k) / spb := by
        rw [show old.biSector + j = old.biSector + k + (j - k) by omega]
        exact div_add (by omega)
      rw [hdiv, hnew]
      exact hq₁

/-- The outer loop. -/
theorem run_blockLoop (bd : Nat) (hw : old.Whole) (hspb : 2 ^ (blkbits - 9) = spb) :
    ∀ (fuel k : Nat) (m : Nat → Nat) (c : Cursor) (s : σ),
      old.sectors.length - k ≤ fuel → k ≤ old.sectors.length → At k s →
      c.secNrLogical = old.biSector + k →
      c.nrTotalSectors = old.sectors.length - k →
      (k = 0 ∨ k = old.sectors.length ∨ spb ∣ old.biSector + k) →
      Between m spb refuse old k c →
      (∀ j < k, Q ((old.biSector + j) / spb) (m ((old.biSector + j) / spb)) s) →
      ∃ m' c' s', run h (blockLoop bd blkbits old fuel c) s = some (some c', s')
        ∧ At old.sectors.length s' ∧ R s s'
        ∧ Between m' spb refuse old old.sectors.length c'
        ∧ ∀ j < old.sectors.length, Q ((old.biSector + j) / spb)
            (m' ((old.biSector + j) / spb)) s' := by
  intro fuel
  induction fuel with
  | zero =>
    intro k m c s hfuel hk hat _ htot _ hb hq
    obtain rfl : k = old.sectors.length := by omega
    refine ⟨m, c, s, ?_, hat, env.refl s, hb, hq⟩
    rw [blockLoop, if_pos (by omega)]
    rfl
  | succ fuel ih =>
    intro k m c s hfuel hk hat hsec htot hstart hb hq
    rcases lt_or_ge k old.sectors.length with hlt | hge
    · have hstart' : k = 0 ∨ spb ∣ old.biSector + k := by
        rcases hstart with h0 | hn | hd
        · exact .inl h0
        · omega
        · exact .inr hd
      obtain ⟨m₁, c₁, s₁, r, hr, hkr, hrun, hat₁, hR₁, hsec₁, htot₁, hend₁,
        hb₁, hq₁⟩ := run_blockLoop_succ env bd fuel hw hspb hlt hat hsec htot hstart' hb hq
      obtain ⟨m₂, c₂, s₂, hrun₂, hat₂, hR₂, hb₂, hq₂⟩ := ih (k + r) m₁ c₁ s₁
        (by omega) hkr hat₁ hsec₁ htot₁ (.inr hend₁) hb₁ hq₁
      exact ⟨m₂, c₂, s₂, hrun.trans hrun₂, hat₂, env.trans hR₁ hR₂, hb₂, hq₂⟩
    · obtain rfl : k = old.sectors.length := by omega
      refine ⟨m, c, s, ?_, hat, env.refl s, hb, hq⟩
      rw [blockLoop, if_pos (by omega)]
      rfl

/-- The loops end, and the slices hold every sector where its block is mapped
    to EXACTLY when no piece is refused in the middle of a block. -/
theorem slices_placed_iff (bd : Nat)
    (hw : old.Whole) (hspb : 2 ^ (blkbits - 9) = spb) (hat : At 0 s) :
    ∃ m slices s', run h (buildSlices bd blkbits old) s = some (some slices, s')
      ∧ At old.sectors.length s' ∧ R s s'
      ∧ (∀ j < old.sectors.length, Q ((old.biSector + j) / spb) (m ((old.biSector + j) / spb)) s')
      ∧ (∀ b ∈ slices, b.biRw = old.biRw)
      ∧ (slices.flatMap Bio.placed = expected m spb old old.sectors.length
          ↔ RefusedAtBlockStart refuse spb old old.sectors.length) := by
  obtain ⟨m, c, s', hrun, hat', hR, hb, hq⟩ :=
    run_blockLoop env bd hw hspb old.nrSectors 0 (fun _ => 0) (.start old) s
      (by rw [Bio.nrSectors_eq]; omega) (Nat.zero_le _) hat rfl
      (Bio.nrSectors_eq old) (.inl rfl) ⟨rfl, rfl, rfl, rfl, rfl⟩
      (fun j hj => absurd hj (Nat.not_lt_zero j))
  refine ⟨m, c.head ++ c.newBio.toList, s', ?_, hat', hR, hq, hb.rw, hb.placed_iff⟩
  rw [buildSlices, run_bind_some hrun]
  rfl

end Loops

/-! ## Every translation map and every pattern of refusals -/

/-- A pattern of refusals by a slice that is not empty.  A piece with sectors is known by
    the sector it starts with; a piece without is known by the number of calls before it. -/
structure Refusals where
  piece : Nat → Bool
  empty : Nat → Bool

/-- The calls of `bio_add_page` so far, and the sectors they took. -/
structure Offers where
  calls : Nat
  taken : Nat
deriving DecidableEq

/-- Does the pattern refuse a piece of `len` bytes? -/
def Refusals.refuses (rf : Refusals) (s : Offers) (len : Nat) : Bool :=
  if len = 0 then rf.empty s.calls else rf.piece s.taken

/-- `bio_add_page` under a pattern of refusals: a whole piece or nothing, and
    never nothing on an empty bio. -/
def offer (rf : Refusals) (b : Bio) (page len off : Nat) (s : Offers) : (Nat × Bio) × Offers :=
  if b.biIoVec ≠ [] ∧ rf.refuses s len = true
  then ((0, b), { s with calls := s.calls + 1 })
  else ((len, bioStore b page len off),
    { calls := s.calls + 1, taken := s.taken + len / 512 })

/-- The lookup in a cache that knows the blocks `hit`. -/
def cachedBlock (map : Nat → Nat) (hit : Nat → Bool) (b : Nat) : Nat :=
  if hit b then map b else 0

/-- The surroundings of the loops: a block map of which `hit` is cached. -/
def mapHandler (map : Nat → Nat) (hit : Nat → Bool) (rf : Refusals) : Handler LoopSig Offers
  | .touch, s => some ((), s)
  | .bioAlloc _, s => some (true, s)
  | .cacheLookup b, s => some (cachedBlock map hit b, s)
  | .cioRequest b _, s => some (⟨0, map b⟩, s)
  | .addPage b page len off, s => some (offer rf b page len off s)
  | _, _ => none

/-- The loops end, and the slices on the list transfer the sectors of the bio
    in order, each once, at the sectors their blocks are mapped to. -/
def CarriesEverySector (map : Nat → Nat) (hit : Nat → Bool) (rf : Refusals)
    (bd blkbits : Nat) (old : Bio) : Prop :=
  ∃ slices s', run (mapHandler map hit rf) (buildSlices bd blkbits old) ⟨0, 0⟩
      = some (some slices, s')
    ∧ slices.flatMap Bio.placed
      = place (fun k => physSector map (2 ^ (blkbits - 9)) (old.biSector + k)) old.sectors

theorem mapHandler_env (map : Nat → Nat) (hit : Nat → Bool) (rf : Refusals) (old : Bio) :
    SliceEnv (mapHandler map hit rf) old (fun k s => s.taken = k)
      (fun _ _ => True) (fun b p _ => p = map b) rf.piece where
  refl _ := trivial
  trans _ _ := trivial
  keep h _ := h
  touch _ := rfl
  alloc _ _ := rfl
  refused := by
    rintro k s t b page off rfl ht hr hb
    have hlen : ¬ t * 512 = 0 := by omega
    refine ⟨{ s with calls := s.calls + 1 }, ?_, rfl, trivial⟩
    show some (offer rf b page (t * 512) off s) = _
    rw [offer, if_pos ⟨hb, (if_neg hlen).trans hr⟩]
  taken := by
    rintro k s t b page off rfl ht hr
    have hlen : ¬ t * 512 = 0 := by omega
    refine ⟨{ calls := s.calls + 1, taken := s.taken + t }, ?_, rfl, trivial⟩
    show some (offer rf b page (t * 512) off s) = _
    rw [offer, if_neg, Nat.mul_div_cancel t (by norm_num)]
    rintro ⟨hb, hp⟩
    rw [Refusals.refuses, if_neg hlen] at hp
    rcases hr with hf | hnil
    · rw [hf] at hp
      exact Bool.noConfusion hp
    · exact hb hnil
  empty := by
    rintro k s b page off rfl
    by_cases hp : b.biIoVec ≠ [] ∧ rf.refuses s 0 = true
    · refine ⟨b, { s with calls := s.calls + 1 }, ?_, .inl rfl, rfl, trivial⟩
      show some (offer rf b page 0 off s) = _
      rw [offer, if_pos hp]
    · refine ⟨bioStore b page 0 off, { s with calls := s.calls + 1 }, ?_, .inr rfl, rfl, trivial⟩
      show some (offer rf b page 0 off s) = _
      rw [offer, if_neg hp]
      rfl
  translate := by
    rintro k s b rfl
    refine ⟨map b, s, ?_, rfl, trivial, rfl⟩
    rw [translateBlock, run_blockCacheLookup (p := cachedBlock map hit b) rfl]
    by_cases hz : cachedBlock map hit b ≠ 0
    · have hhit : hit b = true := by
        by_contra hno
        exact hz (if_neg hno)
      rw [if_pos hz, show cachedBlock map hit b = map b from if_pos hhit]
      rfl
    · rw [if_neg hz, run_touch rfl, run_cioMakeRequest (r := ⟨0, map b⟩) rfl]
      rfl

/-- Whatever the block map, the cached part of it and the refusals: the slices carry every
    sector to its place exactly when no refused piece starts in the middle of a block. -/
theorem carriesEverySector_iff (map : Nat → Nat) (hit : Nat → Bool)
    (rf : Refusals) (bd blkbits : Nat) (old : Bio) (hw : old.Whole) :
    CarriesEverySector map hit rf bd blkbits old ↔
      ∀ j, 0 < j → j < old.sectors.length → SegmentStart old j →
        rf.piece j = true → 2 ^ (blkbits - 9) ∣ old.biSector + j := by
  obtain ⟨m, slices, s', hrun, -, -, hq, -, hiff⟩ :=
    slices_placed_iff (mapHandler_env map hit rf old) bd hw rfl (s := ⟨0, 0⟩) rfl
  have hexp : expected m (2 ^ (blkbits - 9)) old old.sectors.length
      = place (fun k => physSector map (2 ^ (blkbits - 9)) (old.biSector + k))
          old.sectors := by
    rw [expected_congr hq, expected, List.take_length]
  rw [hexp] at hiff
  constructor
  · rintro ⟨slices', s'', hrun', heq⟩
    obtain ⟨rfl, rfl⟩ : slices = slices' ∧ s' = s'' := by
      simpa using hrun.symm.trans hrun'
    exact hiff.mp heq
  · intro hok
    exact ⟨slices, s', hrun, hiff.mpr hok⟩

/-- Two pages of one sector each, at the start of a block of eight. -/
def twoPages : Bio where
  biBdev := some 0
  biSector := 8
  biRw := ⟨true, false, false⟩
  biIdx := 0
  biMaxVecs := 2
  biIoVec := [⟨1, 512, 0⟩, ⟨2, 512, 0⟩]

/-- The first page is in the cache, nothing is refused. -/
theorem carriesEverySector_iff_twoPages :
    twoPages.Whole ∧ CarriesEverySector (fun b => b + 5) (fun _ => true)
        ⟨fun _ => false, fun _ => false⟩ 0 12 twoPages :=
  have hw : twoPages.Whole := by simp [twoPages, Bio.Whole]
  ⟨hw, (carriesEverySector_iff _ _ _ 0 12 twoPages hw).mpr
    (fun _ _ _ _ hr => Bool.noConfusion hr)⟩

/-- The second page is refused: it goes to sector 48, over the first one, and
    not to sector 49. -/
theorem twoPages_refused_misplaced : ¬ CarriesEverySector (fun b => b + 5) (fun _ => true)
      ⟨fun j => j == 1, fun _ => false⟩ 0 12 twoPages := by
  rintro ⟨slices, s', hrun, heq⟩
  have hslices : run (mapHandler (fun b => b + 5) (fun _ => true)
      ⟨fun j => j == 1, fun _ => false⟩) (buildSlices 0 12 twoPages) ⟨0, 0⟩
      = some (some [{ freshBio 0 48 twoPages with biIoVec := [⟨1, 512, 0⟩] },
           { freshBio 0 48 twoPages with biIoVec := [⟨2, 512, 0⟩] }],
        ⟨3, 2⟩) := by rfl
  rw [hslices] at hrun
  simp only [Option.some.injEq, Prod.mk.injEq] at hrun
  rw [← hrun.1] at heq
  revert heq
  decide

end LoopSlice
