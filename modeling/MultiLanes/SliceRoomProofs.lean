import MultiLanes.ChoiceProofs
import MultiLanes.SliceProofs

/-! # Slices — no slice outgrows its vectors

`lo_new_bio` allocates a slice with as many vectors as the original bio has. The inner
loop cuts the segments of that bio at block boundaries, so a slice may be offered more
pieces than the bio has segments.  But a piece that is not the first one of its segment
goes on where the last one ended, and `bio_add_page` merges it: a slice has at most one
vector for each segment that was loaded (`Snug.used`).

Nothing is assumed of the surroundings but what `bio_add_page` does with a piece that it
can take (`Honours`); the blocks may be translated in any way, and allocations may fail.
-/

namespace SliceRoom

open InteractProg LoopBio LoopRedirect LoopSlice List Option

variable {σ : Type} {old nb : Bio} {c c' : Cursor}
  {bd blkbits page len off secNrPhys n r rest : Nat}

/-- The piece goes on where the last vector of the slice ends. -/
def Continues (b : Bio) (page off : Nat) : Prop :=
  ∃ prev, b.biIoVec.getLast? = some prev
    ∧ prev.bvPage = page ∧ off = prev.bvOffset + prev.bvLen

/-- `bio_add_page` merges a piece that continues the last one, and refuses
    another one only when the vector table is full. -/
def Honours : (q : LoopReq) → q.Ans → Prop
  | .addPage b page len off, x =>
    Continues b page off ∨ b.biIoVec.length < b.biMaxVecs →
      x = (len, bioStore b page len off)
  | _, _ => True

/-- What is asked of `bio_add_page` it takes, within the vectors of the original
    bio; so are the slices that are sent, and no assertion fails. -/
def Fits (old : Bio) : LoopReq → Prop
  | .addPage b page len off =>
    (Continues b page off ∨ b.biIoVec.length < b.biMaxVecs)
      ∧ (bioStore b page len off).biIoVec.length ≤ old.biIoVec.length
  | .submit b _ => b.biIoVec.length ≤ old.biIoVec.length
  | .bug => False
  | _ => True

/-! ## One piece -/

/-- A piece that continues the last one needs no vector. -/
theorem bioStore_length_of_continues (h : Continues nb page off) :
    (bioStore nb page len off).biIoVec.length = nb.biIoVec.length := by
  obtain ⟨prev, hprev, hpage, hoff⟩ := h
  have hne : nb.biIoVec ≠ [] := by
    intro hnil
    rw [hnil] at hprev
    cases hprev
  rw [bioStore, hprev]
  show (if _ then _ else _ : Bio).biIoVec.length = _
  rw [if_pos ⟨hpage, hoff⟩]
  show (nb.biIoVec.dropLast ++ _).length = _
  rw [length_append, length_dropLast, length_singleton]
  exact Nat.sub_add_cancel (length_pos_iff.mpr hne)

theorem bioStore_length_le (nb : Bio) (page len off : Nat) :
    (bioStore nb page len off).biIoVec.length ≤ nb.biIoVec.length + 1 := by
  unfold bioStore
  split
  · split
    · show (nb.biIoVec.dropLast ++ _).length ≤ _
      rw [length_append, length_dropLast, length_singleton]
      omega
    · exact Nat.le_of_eq length_append
  · exact Nat.le_of_eq length_append

@[simp] theorem bioStore_biMaxVecs : (bioStore nb page len off).biMaxVecs = nb.biMaxVecs := by
  unfold bioStore
  split
  · split <;> rfl
  · rfl

/-- The next piece of the segment goes on where this one ends. -/
theorem bioStore_continues : Continues (bioStore nb page len off) page (off + len) := by
  have happ : ∀ b : Bio, b.biIoVec = nb.biIoVec ++ [⟨page, len, off⟩] →
      Continues b page (off + len) := by
    intro b hb
    exact ⟨⟨page, len, off⟩, by rw [hb, getLast?_concat], rfl, rfl⟩
  unfold bioStore
  split
  · next prev _ =>
    split
    · next hcont =>
      obtain ⟨rfl, rfl⟩ := hcont
      refine ⟨{ prev with bvLen := prev.bvLen + len }, ?_, rfl, ?_⟩
      · exact getLast?_concat
      · exact add_assoc ..
    · exact happ _ rfl
  · exact happ _ rfl

/-! ## The loops -/

/-- The cursor: `left` sectors lie ahead, the segments before `i` are loaded, and
    the slices that are closed have no more vectors than the original bio. -/
structure Going (old : Bio) (left : Nat) (c : Cursor) : Prop where
  left : (ahead old c).length = left
  idx : old.biIdx ≤ c.i
  bound : c.i ≤ old.biIoVec.length
  loaded : c.curPageLen ≠ 0 → old.biIdx < c.i
  head : ∀ b ∈ c.head, b.biIoVec.length ≤ old.biIoVec.length

/-- The open slice: a vector for each segment at most, and the last one ends at the cursor. -/
structure Snug (old nb : Bio) (c : Cursor) : Prop where
  room : nb.biMaxVecs = old.biIoVec.length
  used : nb.biIoVec.length + old.biIdx ≤ c.i
  last : nb.biIoVec = [] ∨ Continues nb c.page c.curPageOffset

theorem Snug.length_le (h : Snug old nb c) (hg : Going old n c) :
    nb.biIoVec.length ≤ old.biIoVec.length :=
  le_trans (Nat.le_of_add_right_le h.used) hg.bound

/-- After the test at the head of the inner loop, the slice takes a piece: it has
    none yet, or the segment is new, or the piece continues the last one. -/
structure Offered (old nb : Bio) (c : Cursor) : Prop where
  room : nb.biMaxVecs = old.biIoVec.length
  takes : Continues nb c.page c.curPageOffset ∨ nb.biIoVec.length < nb.biMaxVecs
  used : ∀ len, (bioStore nb c.page len c.curPageOffset).biIoVec.length + old.biIdx ≤ c.i

/-- The pieces of a segment that is loaded already. -/
theorem Snug.offered (h : Snug old nb c) (hg : Going old n c)
    (hcur : c.curPageLen ≠ 0) : Offered old nb c := by
  have hidx := hg.loaded hcur
  rcases h.last with hnil | hcont
  · -- the slice is new, and there is a segment
    have hlen : nb.biIoVec.length = 0 := by rw [hnil]; rfl
    refine ⟨h.room, .inr ?_, fun len => ?_⟩
    · rw [h.room, hlen]
      exact lt_of_lt_of_le (Nat.zero_lt_of_lt hidx) hg.bound
    · have hle := bioStore_length_le nb c.page len c.curPageOffset
      omega
  · refine ⟨h.room, .inl hcont, fun len => ?_⟩
    rw [bioStore_length_of_continues hcont]
    exact h.used

/-- The first piece of a segment. -/
theorem Snug.offered_load (h : Snug old nb c)
    (hi : c.i < old.biIoVec.length) : Offered old nb (c.load old) := by
  have hused := h.used
  refine ⟨h.room, .inr ?_, fun len => ?_⟩
  · rw [h.room]
    omega
  · show _ ≤ c.i + 1
    have hle := bioStore_length_le nb (c.load old).page len (c.load old).curPageOffset
    omega

/-- The segment is loaded where one follows. -/
theorem Going.load (h : Going old n c) (h0 : c.curPageLen = 0)
    (hi : c.i < old.biIoVec.length) : Going old n (c.load old) where
  left := by rw [ahead_load h0 hi, h.left]
  idx := Nat.le_succ_of_le h.idx
  bound := hi
  loaded _ := Nat.lt_succ_of_le h.idx
  head := h.head

/-- A piece is cut off the segment. -/
theorem Going.advance (h : Going old (n + rest) c)
    (hn : n ≤ c.curPageLen / 512) : Going old rest (c.advance n) where
  left := by
    have hlen := congrArg length (ahead_advance old hn)
    rw [h.left, length_append, BioVec.sectors_length] at hlen
    have hpiece : (BioVec.mk c.page (n * 512) c.curPageOffset).bvLen / 512 = n :=
      Nat.mul_div_cancel n (by decide)
    omega
  idx := h.idx
  bound := h.bound
  loaded hcur := h.loaded fun h0 => hcur (by
    show c.curPageLen - n * 512 = 0
    rw [h0, Nat.zero_sub])
  head := h.head

theorem Offered.store (h : Offered old nb c) :
    Snug old (bioStore nb c.page (n * 512) c.curPageOffset) (c.advance n) where
  room := by rw [bioStore_biMaxVecs, h.room]
  used := h.used _
  last := .inr bioStore_continues

/-! ## The code -/

/-- Code of the bio path under these answers. -/
abbrev Keeps {α : Type} (old : Bio) (R : α → Prop) (p : Prog LoopSig α) : Prop :=
  Asks (S := LoopSig) (Fits old) Honours R p

theorem keeps_touch : Keeps old (fun _ => True) touch :=
  ⟨trivial, fun _ _ => trivial⟩

theorem keeps_bioEndio {error : Int} :
    Keeps old (fun _ => True) (bioEndio error) := ⟨trivial, fun _ _ => trivial⟩

/-- A slice is allocated with as many vectors as the original bio has. -/
theorem keeps_loNewBio (hv : old.biIoVec.length ≤ bioMaxPages) {start : Nat} :
    Keeps old (fun o => ∀ b, o = some b → b.biMaxVecs = old.biIoVec.length ∧ b.biIoVec = [])
      (loNewBio bd start old) := by
  refine .bind keeps_touch fun _ _ => .perform trivial fun ok _ => ?_
  cases ok with
  | false => exact nofun
  | true =>
    rintro b hb
    cases (Option.some.inj hb).symm
    exact ⟨Nat.min_eq_left hv, rfl⟩

theorem keeps_addPiece (h : Offered old nb c) (hg : c.i ≤ old.biIoVec.length) :
    Keeps old (fun o => o = some (bioStore nb c.page (n * 512) c.curPageOffset, c.advance n))
      (addPiece bd old secNrPhys n nb c) := by
  have hfits : Fits old (.addPage nb c.page (n * 512) c.curPageOffset) := by
    refine ⟨h.takes, ?_⟩
    have hused := h.used (n * 512)
    omega
  refine .perform (S := LoopSig) hfits fun x hx => ?_
  obtain rfl : x = (n * 512, bioStore nb c.page (n * 512) c.curPageOffset) :=
    hx h.takes
  show Keeps old _ (if n * 512 = n * 512 then _ else _)
  rw [if_pos rfl]
  exact rfl

/-- The inner loop: all pieces of a block are taken. -/
theorem keeps_fillBlock {fuel : Nat} (hs : Snug old nb c) (hg : Going old (r + rest) c) :
    Keeps old (fun o => ∀ nb' c', o = some (nb', c') →
        Snug old nb' c' ∧ Going old rest c' ∧ SameBlock c c')
      (fillBlock bd old secNrPhys fuel r nb c) := by
  induction fuel generalizing r nb c with
  | zero =>
    cases r with
    | zero =>
      rintro nb' c' ho
      cases ho
      exact ⟨hs, zero_add rest ▸ hg, .refl c⟩
    | succ r => exact ⟨trivial, nofun⟩
  | succ fuel ih =>
    cases r with
    | zero =>
      rintro nb' c' ho
      cases ho
      exact ⟨hs, zero_add rest ▸ hg, .refl c⟩
    | succ r =>
      have hload : Keeps old (fun c' => Offered old nb c'
          ∧ Going old (r + 1 + rest) c' ∧ SameBlock c c')
          (loadSegment old c) := by
        unfold loadSegment
        split
        · next h0 =>
          -- sectors lie ahead, so there is another segment
          have hi : c.i < old.biIoVec.length :=
            segments_left h0 (by rw [hg.left]; omega)
          refine .bind keeps_touch fun _ _ => ?_
          exact ⟨hs.offered_load hi, hg.load h0 hi, ⟨rfl, rfl, rfl, rfl⟩⟩
        · next h0 => exact ⟨hs.offered hg h0, hg, .refl c⟩
      refine .bind hload fun c₁ ⟨hoff, hg₁, hsame⟩ => ?_
      refine .bind (keeps_addPiece hoff hg₁.bound) ?_
      rintro _ rfl
      have hle : min (r + 1) (c₁.curPageLen / 512) ≤ r + 1 :=
        Nat.min_le_left ..
      have hleft : r + 1 + rest = min (r + 1) (c₁.curPageLen / 512)
          + (r + 1 - min (r + 1) (c₁.curPageLen / 512) + rest) := by omega
      refine (ih hoff.store ((hleft ▸ hg₁).advance
        (Nat.min_le_right ..))).mono fun o ho nb' c' hc => ?_
      obtain ⟨hs', hg', hsame'⟩ := ho nb' c' hc
      have hadv : SameBlock c₁ (c₁.advance (min (r + 1)
        (c₁.curPageLen / 512))) := ⟨rfl, rfl, rfl, rfl⟩
      exact ⟨hs', hg', (hsame.trans hadv).trans hsame'⟩

/-- Between two blocks. -/
structure Paused (old : Bio) (c : Cursor) : Prop where
  going : Going old c.nrTotalSectors c
  snug : ∀ nb, c.newBio = some nb → Snug old nb c

/-- All slices, the open one too. -/
def Cursor.slices (c : Cursor) : List Bio := c.head ++ c.newBio.toList

theorem Paused.slices (h : Paused old c) :
    ∀ b ∈ Cursor.slices c, b.biIoVec.length ≤ old.biIoVec.length := by
  intro b hb
  rcases mem_append.mp hb with hhead | hopen
  · exact h.going.head b hhead
  · exact (h.snug b (mem_toList.mp hopen)).length_le h.going

/-- A slice that the block does not continue is closed. -/
theorem Paused.cut (h : Paused old c) : Paused old (c.cut secNrPhys) := by
  unfold Cursor.cut
  split
  · exact ⟨⟨h.going.left, h.going.idx, h.going.bound, h.going.loaded, h.slices⟩, nofun⟩
  · exact h

/-- A block's sectors are counted off. -/
theorem Going.split {count nextSector secNrLogical remaining : Nat}
    (h : Going old c.nrTotalSectors c) (hr : remaining ≤ c.nrTotalSectors) :
    Going old (remaining + (c.nrTotalSectors - remaining))
      { c with
        count := count
        nrTotalSectors := c.nrTotalSectors - remaining
        nextSector := nextSector
        secNrLogical := secNrLogical } where
  left := h.left.trans (Nat.add_sub_of_le hr).symm
  idx := h.idx
  bound := h.bound
  loaded := h.loaded
  head := h.head

theorem cut_nrTotalSectors : (c.cut secNrPhys).nrTotalSectors = c.nrTotalSectors := by
  unfold Cursor.cut
  split <;> rfl

/-- The block's slice: the open one, or a new one. -/
theorem keeps_openSlice (hv : old.biIoVec.length ≤ bioMaxPages) (h : Paused old c) :
    Keeps old (fun o => ∀ nb, o = some nb → Snug old nb c) (openSlice bd secNrPhys old c) := by
  unfold openSlice
  split
  · next nb hnb =>
    rintro nb' hnb'
    exact Option.some.inj hnb' ▸ h.snug nb hnb
  · refine (keeps_loNewBio hv).mono fun o ho nb hnb => ?_
    obtain ⟨hroom, hnil⟩ := ho nb hnb
    refine ⟨hroom, ?_, .inl hnil⟩
    rw [hnil, length_nil, zero_add]
    exact h.going.idx

theorem keeps_translateBlock {blk : Nat} : Keeps old (fun _ => True) (translateBlock old blk) := by
  refine .perform (S := LoopSig) trivial fun blkPhys _ => ?_
  split
  · trivial
  · refine .bind keeps_touch fun _ _ =>
      .perform (S := LoopSig) trivial fun cio _ => ?_
    split
    · exact .bind keeps_bioEndio fun _ _ => trivial
    · trivial

/-- The outer loop. -/
theorem keeps_blockLoop (hv : old.biIoVec.length ≤ bioMaxPages) {fuel : Nat} (h : Paused old c) :
    Keeps old (fun o => ∀ c', o = some c' → Paused old c') (blockLoop bd blkbits old fuel c) := by
  induction fuel generalizing c with
  | zero =>
    unfold blockLoop
    split
    · rintro c' hc
      exact Option.some.inj hc ▸ h
    · exact ⟨trivial, fun x => by cases x⟩
  | succ fuel ih =>
    unfold blockLoop
    split
    · rintro c' hc
      exact Option.some.inj hc ▸ h
    · refine .bind keeps_translateBlock fun translated _ => ?_
      cases translated with
      | none => exact fun _ hc => by cases hc
      | some blkPhys =>
        refine .bind (keeps_openSlice hv h.cut) fun opened hopened => ?_
        cases opened with
        | none =>
          exact .bind keeps_bioEndio fun _ _ _ hc => by cases hc
        | some nb =>
          have hs := hopened nb rfl
          refine .bind (keeps_fillBlock ⟨hs.room, hs.used, hs.last⟩
            (h.cut.going.split ?_)) fun filled hfilled => ?_
          · rw [cut_nrTotalSectors]
            exact Nat.min_le_left ..
          · cases filled with
            | none => exact fun _ hc => by cases hc
            | some done =>
              obtain ⟨hs', hg', hsame⟩ := hfilled done.1 done.2 rfl
              refine ih ⟨⟨?_, hg'.idx, hg'.bound, hg'.loaded, hg'.head⟩, ?_⟩
              · exact hg'.left.trans hsame.nrTotalSectors.symm
              · rintro nb' hnb'
                cases hnb'
                exact ⟨hs'.room, hs'.used, hs'.last⟩

/-- A bio with data has a segment to begin with. -/
theorem paused_start (hn : old.nrSectors ≠ 0) : Paused old (.start old) where
  going := by
    have hlen : (ahead old (.start old)).length = old.nrSectors := by
      rw [old.nrSectors_eq]
      simp [ahead, Cursor.start, BioVec.sectors, Bio.sectors, Bio.segments]
    refine ⟨hlen, le_refl _, ?_, fun h => absurd rfl h, forall_mem_nil _⟩
    exact le_of_lt (segments_left (c := .start old) rfl (by omega))
  snug := nofun

theorem keeps_buildSlices (hv : old.biIoVec.length ≤ bioMaxPages) :
    Keeps old (fun o => ∀ slices, o = some slices →
        ∀ b ∈ slices, b.biIoVec.length ≤ old.biIoVec.length)
      (buildSlices bd blkbits old) := by
  by_cases hn : old.nrSectors = 0
  · -- the loop is not entered, and there is no slice
    have hnone : buildSlices bd blkbits old = .ret (some []) := by
      rw [buildSlices, hn, blockLoop]
      show (if old.nrSectors = 0 then _ else _ : Prog LoopSig _) >>= _ = _
      rw [if_pos hn]
      rfl
    rw [hnone]
    rintro slices hs
    cases hs
    exact forall_mem_nil _
  · refine .bind (keeps_blockLoop hv (paused_start hn)) fun done hdone => ?_
    cases done with
    | none => exact fun _ hc => by cases hc
    | some c =>
      rintro slices hs
      exact Option.some.inj hs ▸ (hdone c rfl).slices

theorem keeps_submitSlices {slices : List Bio} {nrTotal : Nat}
    (h : ∀ b ∈ slices, b.biIoVec.length ≤ old.biIoVec.length) :
    Keeps old (fun _ => True) (submitSlices nrTotal slices) := by
  induction slices with
  | nil => trivial
  | cons b slices ih =>
    refine .bind keeps_touch fun _ _ =>
      .perform (S := LoopSig) (h b (.head _)) fun _ _ => ?_
    exact ih fun b' hb' => h b' (.tail _ hb')

theorem keeps_flushIfDirty {rw : ReqFlags} : Keeps old (fun _ => True) (flushIfDirty rw) := by
  refine .perform (S := LoopSig) trivial fun dirty _ => ?_
  cases dirty with
  | false => trivial
  | true => exact ⟨trivial, fun _ _ => trivial⟩

theorem keeps_fuaFlush {rw : ReqFlags} : Keeps old (fun _ => True) (fuaFlush rw) := by
  unfold fuaFlush
  split
  · refine .bind keeps_flushIfDirty fun error _ => ?_
    split
    · exact keeps_bioEndio
    · trivial
  · trivial

theorem keeps_redirectData (hv : old.biIoVec.length ≤ bioMaxPages) :
    Keeps old (fun _ => True) (redirectData bd blkbits old) := by
  refine .bind (keeps_buildSlices hv) fun built hbuilt => ?_
  cases built with
  | none => trivial
  | some slices =>
    have hsend : Keeps old (fun _ => True) (sendSlices slices) := by
      unfold sendSlices
      split
      · exact keeps_bioEndio
      · exact keeps_submitSlices (hbuilt slices rfl)
    exact .bind keeps_touch fun _ _ =>
      .bind hsend fun _ _ => keeps_fuaFlush

theorem keeps_redirectBio (hv : old.biIoVec.length ≤ bioMaxPages) :
    Keeps old (fun _ => True) (redirectBio bd blkbits old) := by
  have hhandle : Keeps old (fun _ => True) (loopHandleBio old) := by
    refine .bind keeps_touch fun _ _ => ?_
    split
    · exact .perform (S := LoopSig) trivial fun _ _ =>
        .perform (S := LoopSig) trivial fun _ _ => trivial
    · trivial
  have hempty : Keeps old (fun _ => True) (emptyFlush old) := by
    refine .bind keeps_flushIfDirty fun error _ => ?_
    split
    · exact keeps_bioEndio
    · exact .bind keeps_touch fun _ _ => ⟨trivial, fun _ _ => trivial⟩
  have hflush : Keeps old (fun _ => True) (preFlush old) := by
    refine .bind keeps_touch fun _ _ => ?_
    split
    · refine .bind keeps_flushIfDirty fun error _ => ?_
      split
      · exact .bind keeps_bioEndio fun _ _ => trivial
      · trivial
    · trivial
  refine .bind hhandle fun _ _ => .bind keeps_touch fun _ _ => ?_
  split
  · exact hempty
  · refine .bind hflush fun ok _ => ?_
    split
    · exact keeps_redirectData hv
    · trivial

/-! ## The result -/

/-- In the runs of `redirect_bio` from `s` no piece is refused, no slice has more vectors
    than the original bio, and the assertion after the retry does not fail. -/
structure RoomEnough (E : Env LoopSig σ) (bd blkbits : Nat) (old : Bio)
    (s : σ) : Prop where
  taken : ∀ {b page len off t x u},
    Comes E (redirectBio bd blkbits old) s (.addPage b page len off) t →
    E (.addPage b page len off) t x u →
    x.1 = len ∧ x.2.biIoVec.length ≤ old.biIoVec.length
  sent : ∀ {b nrTotal t}, Comes E (redirectBio bd blkbits old) s (.submit b nrTotal) t →
    b.biIoVec.length ≤ old.biIoVec.length
  sound : ∀ t, ¬ Comes E (redirectBio bd blkbits old) s .bug t

/-- Slices never outgrow their vectors, whatever the block size, and however the
    blocks are mapped and the other requests are answered. -/
theorem slices_never_outgrow {σ : Type} (E : Env LoopSig σ)
    (hE : ∀ {q s x t}, E q s x t → Honours q x) (bd blkbits : Nat) (old : Bio)
    (hv : old.biIoVec.length ≤ bioMaxPages) (s : σ) :
    RoomEnough E bd blkbits old s := by
  have hfits : ∀ {q t}, Comes E (redirectBio bd blkbits old) s q t →
      Fits old q := by
    intro q t h
    exact (Asks.comes (J := fun _ => True) (fun _ _ h => ⟨hE h, trivial⟩)
      (keeps_redirectBio hv) trivial h).1
  refine ⟨fun {b page len off t x u} h hx => ?_, fun h => hfits h, fun t h => hfits h⟩
  obtain ⟨htakes, hlen⟩ := hfits h
  obtain rfl := hE hx htakes
  exact ⟨rfl, hlen⟩

/-! ## A page over eight blocks -/

instance : Decidable (Continues nb page off) :=
  match h : nb.biIoVec.getLast? with
  | none => .isFalse fun ⟨_, hprev, _⟩ => nomatch h.symm.trans hprev
  | some prev =>
    if hc : prev.bvPage = page ∧ off = prev.bvOffset + prev.bvLen then
      .isTrue ⟨prev, h, hc⟩
    else
      .isFalse fun ⟨_, hprev, hc'⟩ =>
        hc (mem_unique h hprev ▸ hc')

/-- `bio_add_page`: merged, or put into a vector of its own, or refused. -/
def addPageInto (b : Bio) (page len off : Nat) : Nat × Bio :=
  if Continues b page off ∨ b.biIoVec.length < b.biMaxVecs then
    (len, bioStore b page len off)
  else (0, b)

/-- Surroundings in which nothing fails; the state are the slices that were submitted. -/
def roomHandler (map : Nat → Nat) : Handler LoopSig (List Bio)
  | .touch, s => some ((), s)
  | .testDirty, s => some (false, s)
  | .cacheLookup b, s => some (map b, s)
  | .cioRequest b _, s => some (⟨0, map b⟩, s)
  | .bioAlloc _, s => some (true, s)
  | .addPage b page len off, s => some (addPageInto b page len off, s)
  | .submit b _, s => some ((), s ++ [b])
  | .bioEndio _, s => some ((), s)
  | _, _ => none

theorem roomHandler_honours {map : Nat → Nat} {q : LoopReq} {s t : List Bio}
    {x : q.Ans} (h : (roomHandler map).env q s x t) : Honours q x := by
  cases q with
  | addPage b page len off =>
    intro htakes
    cases h
    exact if_pos htakes
  | _ => trivial

/-- A page of eight sectors. -/
def onePage : Bio where
  biBdev := some 0
  biSector := 8
  biRw := ⟨true, false, false⟩
  biIdx := 0
  biMaxVecs := 1
  biIoVec := [⟨1, 4096, 0⟩]

/-- Eight blocks in a row: eight pieces, one slice and one vector. -/
theorem onePage_never_outgrows :
    onePage.biIoVec.length ≤ bioMaxPages ∧ RoomEnough (roomHandler (· + 5)).env 0 9 onePage []
      ∧ (run (roomHandler (· + 5)) (redirectBio 0 9 onePage) []).map
          (fun r => r.2.map Bio.biIoVec) = some [[⟨1, 4096, 0⟩]] := by
  have hv : onePage.biIoVec.length ≤ bioMaxPages := by decide
  refine ⟨hv, ?_, by decide⟩
  exact slices_never_outgrow _ roomHandler_honours 0 9 onePage hv []

end SliceRoom
