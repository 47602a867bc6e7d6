import MultiLanes.RelyProofs
import MultiLanes.SliceEndProofs
import MultiLanes.SliceProofs

/-! # The life of a bio — from `loop_make_request` to `bio_endio`

A bio is handed to the driver, read, and at the end given back: by `bio_endio`, or for
the magic bio of `loop_switch` by the completion of the switch and a `bio_put`.  Three
parties may do so, in any order: the thread in `redirect_bio`, the interrupts that run
`lo_end_bio` for the slices, and the one that runs `sync_end_bio` for a forwarded flush.

`Flight` is the state they share, and its `trace` is what has happened to the original
bio so far.  `EndsOnce` says of a bio that every interleaving comes to an end with a
trace of reads and ONE end, in this order.  Two bios do not have this property
(`endsOnce_iff`): the magic one, which is used after it has been given back, and a
`REQ_FUA` one with data, which is ended a second time when the fsync behind its back
fails. -/

namespace BioLife

open InteractProg Relation LoopBio LoopRedirect LoopSlice List

/-- What can happen to the original bio. -/
inductive BioEvent
  | read
  | ended (error : Int)
  | switched
  | put
deriving DecidableEq

/-- `struct lo_bio_head`, the slices and forwarded bios under way, and the
    history of the original bio. -/
structure Flight where
  nrTotal : Nat
  nrDone : Nat
  error : Int
  inFlight : Nat
  forwarded : Nat
  trace : List BioEvent

def Flight.start : Flight := ⟨0, 0, 0, 0, 0, []⟩

def Flight.log (e : BioEvent) (s : Flight) : Flight :=
  { s with trace := s.trace ++ [e] }

/-- `lo_end_bio`, run when a slice completes with `error`, as `SliceEnd.loEndBio` counts it
    (`loEndBio_counted`). -/
def loEndBio (error : Int) (s : Flight) : Flight :=
  let s := { s with
    inFlight := s.inFlight - 1
    nrDone := s.nrDone + 1
    error := if s.error = 0 then error else s.error }
  if s.nrTotal = s.nrDone then s.log (.ended s.error) else s

/-- `bio_endio` of the original bio. -/
def BioEvent.endio : BioEvent → Option Int
  | .ended e => some e
  | _ => none

/-- What a flight has of the list of slices: how many are under way, the counts of the head
    as long as that is there, and the ends of the original bio. -/
structure Counts (s : SliceEnd.State) (f : Flight) : Prop where
  inFlight : f.inFlight = s.inFlight.length
  head : ∀ h ∈ s.head, f.nrTotal = h.nrTotal ∧ f.nrDone = h.nrDone ∧ f.error = h.error
  ended : f.trace.filterMap BioEvent.endio = s.ended

/-- `lo_end_bio` does to a flight what it does to the list of slices. -/
theorem loEndBio_counted {s : SliceEnd.State} {f : Flight} (h : Counts s f)
    {c : SliceEnd.Completion} (hc : c.slice ∈ s.inFlight) (hs : s.head.isSome) :
    Counts (SliceEnd.loEndBio s c) (loEndBio (SliceEnd.effective c.error c.uptodate) f) := by
  obtain ⟨hd, hhead⟩ := Option.isSome_iff_exists.mp hs
  obtain ⟨ht, hn, he⟩ := h.head hd hhead
  have hlen : f.inFlight - 1 = (s.inFlight.erase c.slice).length := by
    rw [length_erase_of_mem hc, h.inFlight]
  simp only [SliceEnd.loEndBio, hhead, loEndBio, ht, hn, he]
  split
  · refine ⟨hlen, fun hd' h' => ?_, ?_⟩
    · cases h'
    · rw [Flight.log, filterMap_append, h.ended]
      rfl
  · refine ⟨hlen, fun _ hd' => ?_, h.ended⟩
    cases hd'
    exact ⟨rfl, rfl, rfl⟩

/-- `sync_end_bio`, run when a forwarded bio completes. -/
def syncEndBio (error : Int) (s : Flight) : Flight :=
  { s with forwarded := s.forwarded - 1 }.log (.ended error)

/-- The interrupts. -/
inductive Completes : Flight → Flight → Prop
  | slice {s : Flight} (error : Int) : 0 < s.inFlight → Completes s (loEndBio error s)
  | empty {s : Flight} (error : Int) : 0 < s.forwarded → Completes s (syncEndBio error s)

/-- What the requests of `redirect_bio` do, and the answers they may get: any
    but for `bio_add_page`, which takes a piece or refuses it, never on an empty
    bio, and but for an fsync that does not fail. -/
def answers (fsyncFails : Bool) : (q : LoopReq) → Flight → q.Ans → Flight → Prop
  | .touch, s, _, t => t = s.log .read
  | .bioEndio e, s, _, t => t = s.log (.ended e)
  | .bioPut, s, _, t => t = s.log .put
  | .switchDone, s, _, t => t = s.log .switched
  | .submit _ n, s, _, t =>
    t = { s with nrTotal := n, inFlight := s.inFlight + 1 }
  | .forward _, s, _, t => t = { s with forwarded := s.forwarded + 1 }
  | .addPage b page len off, s, x, t =>
    t = s ∧ (x = (len, bioStore b page len off) ∨ x = (0, b) ∧ b.biIoVec ≠ [])
  | .flush _, s, x, t => t = s ∧ (fsyncFails = true ∨ x = (0 : Int))
  | .testDirty, s, _, t => t = s
  | .cacheLookup _, s, _, t => t = s
  | .cioRequest _ _, s, _, t => t = s
  | .bioAlloc _, s, _, t => t = s
  | .bug, _, _, _ => False
  | .spin, _, _, _ => False

/-- A bio that has been ended with success has no slice under way, and none to
    come: `lo_end_bio` has been run for all of `head->nr_total`. -/
def SuccessComplete (s : Flight) : Prop :=
  BioEvent.ended 0 ∈ s.trace → s.inFlight = 0 ∧ s.nrDone = s.nrTotal

/-- `redirect_bio` among the interrupts. -/
def bioSetting (fsyncFails : Bool) : Setting LoopSig Flight where
  step := answers fsyncFails
  rely := Completes
  inv := SuccessComplete
  can q := q ≠ .bug ∧ q ≠ .spin

/-- The bio is given back. -/
def GivenBack (old : Bio) (fin : List BioEvent) : Prop :=
  if old.biBdev = none then fin = [.switched, .put]
  else ∃ e, fin = [.ended e]

/-- Reads, and then one end. -/
def EndedOnce (old : Bio) (trace : List BioEvent) : Prop :=
  ∃ reads fin, (∀ e ∈ reads, e = .read) ∧ GivenBack old fin ∧ trace = reads ++ fin

/-- Every interleaving of `redirect_bio` with the completions of its bios comes
    to an end, and has then ended the bio once, as the last thing done to it. -/
structure EndsOnce (fsyncFails : Bool) (bd blkbits : Nat) (old : Bio) :
    Prop where
  terminates : Acc (fun c' c => (bioSetting fsyncFails).Move c c')
    (redirectBio bd blkbits old, .start)
  once : ∀ c, (bioSetting fsyncFails).Reach (redirectBio bd blkbits old, .start) c →
    (∀ c', ¬ (bioSetting fsyncFails).Move c c') → EndedOnce old c.2.trace

/-! ## The stages of a bio -/

def Reads (l : List BioEvent) : Prop := ∀ e ∈ l, e = BioEvent.read

variable {l : List BioEvent}

theorem Reads.log (h : Reads l) : Reads (l ++ [.read]) := by
  intro e he
  rcases mem_append.mp he with h1 | h1
  · exact h e h1
  · exact mem_singleton.mp h1

theorem Reads.not_ended (h : Reads l) (e : Int) : BioEvent.ended e ∉ l := fun he => nomatch h _ he

/-- The bio has been ended by `bio_endio`, and not been looked at since. -/
def Ended (l : List BioEvent) : Prop := ∃ r e, Reads r ∧ l = r ++ [.ended e]

/-- `j` of `n` slices have been submitted; the bio is still the driver's. -/
structure Sending (j n : Nat) (s : Flight) : Prop where
  lt : j < n
  count : s.inFlight + s.nrDone = j
  total : 0 < j → s.nrTotal = n
  noEmpty : s.forwarded = 0
  reads : Reads s.trace

/-- Nothing has been submitted. -/
structure Live (s : Flight) : Prop where
  inFlight : s.inFlight = 0
  nrDone : s.nrDone = 0
  nrTotal : s.nrTotal = 0
  noEmpty : s.forwarded = 0
  reads : Reads s.trace

/-- All `n` slices have been submitted: the bio belongs to `lo_end_bio`. -/
structure Sent (n : Nat) (s : Flight) : Prop where
  pos : 0 < n
  count : s.inFlight + s.nrDone = n
  total : s.nrTotal = n
  noEmpty : s.forwarded = 0
  reads : s.inFlight ≠ 0 → Reads s.trace
  ended : s.inFlight = 0 → Ended s.trace

/-- No slices: the bio is forwarded, or has been ended. -/
structure Handed (s : Flight) : Prop where
  inFlight : s.inFlight = 0
  noneLeft : s.nrDone = s.nrTotal
  stage : s.forwarded = 1 ∧ Reads s.trace ∨ s.forwarded = 0 ∧ Ended s.trace

theorem start_live : Live .start := ⟨rfl, rfl, rfl, rfl, nofun⟩

variable {s : Flight} {n : Nat}

theorem Live.sending (h : Live s) (hn : 0 < n) : Sending 0 n s :=
  ⟨hn, by rw [h.inFlight, h.nrDone], fun h => absurd h (lt_irrefl 0), h.noEmpty, h.reads⟩

theorem loEndBio_counts (e : Int) (s : Flight) :
    (loEndBio e s).inFlight = s.inFlight - 1 ∧ (loEndBio e s).nrDone = s.nrDone + 1
      ∧ (loEndBio e s).nrTotal = s.nrTotal
      ∧ (loEndBio e s).forwarded = s.forwarded := by
  by_cases hlast : s.nrTotal = s.nrDone + 1
  · rw [loEndBio, if_pos hlast]
    exact ⟨rfl, rfl, rfl, rfl⟩
  · rw [loEndBio, if_neg hlast]
    exact ⟨rfl, rfl, rfl, rfl⟩

/-- A slice completes. -/
theorem loEndBio_sending {j : Nat} (h : Sending j n s)
    (hpos : 0 < s.inFlight) (e : Int) : Sending j n (loEndBio e s) := by
  obtain ⟨hlt, hcount, htotal, hempty, hreads⟩ := h
  have hne : ¬ s.nrTotal = s.nrDone + 1 := by
    have := htotal (by omega)
    omega
  rw [loEndBio, if_neg hne]
  refine ⟨hlt, ?_, htotal, hempty, hreads⟩
  show s.inFlight - 1 + (s.nrDone + 1) = j
  omega

theorem loEndBio_sent (h : Sent n s) (hpos : 0 < s.inFlight) (e : Int) : Sent n (loEndBio e s) := by
  obtain ⟨hn, hcount, htotal, hempty, hreads, -⟩ := h
  have hr := hreads (by omega)
  have hcount' : s.inFlight - 1 + (s.nrDone + 1) = n := by omega
  rw [loEndBio]
  by_cases hlast : s.nrTotal = s.nrDone + 1
  · -- the last one: the bio is ended
    rw [if_pos hlast]
    refine ⟨hn, hcount', htotal, hempty, fun h => absurd ?_ h, fun _ => ?_⟩
    · show s.inFlight - 1 = 0
      omega
    · exact ⟨s.trace, _, hr, rfl⟩
  · rw [if_neg hlast]
    refine ⟨hn, hcount', htotal, hempty, fun _ => hr, fun h => absurd h ?_⟩
    show ¬ s.inFlight - 1 = 0
    omega

section Stages

variable {fsyncFails : Bool}

theorem live_stable : (bioSetting fsyncFails).Stable Live where
  keep := by
    intro s t h hr
    have h1 := h.inFlight
    have h2 := h.noEmpty
    cases hr with
    | slice e hpos => omega
    | empty e hpos => omega
  inv h he := absurd he (h.reads.not_ended 0)

theorem sending_stable (j n : Nat) : (bioSetting fsyncFails).Stable (Sending j n) where
  keep := by
    intro s t h hr
    cases hr with
    | slice e hpos => exact loEndBio_sending h hpos e
    | empty e hpos => exact absurd h.noEmpty (by omega)
  inv h he := absurd he (h.reads.not_ended 0)

theorem sent_stable (n : Nat) : (bioSetting fsyncFails).Stable (Sent n) where
  keep := by
    intro s t h hr
    cases hr with
    | slice e hpos => exact loEndBio_sent h hpos e
    | empty e hpos => exact absurd h.noEmpty (by omega)
  inv {s} h he := by
    have h0 : s.inFlight = 0 := by
      by_contra hne
      exact (h.reads hne).not_ended 0 he
    have := h.count
    exact ⟨h0, by rw [h.total]; omega⟩

theorem handed_stable : (bioSetting fsyncFails).Stable Handed where
  keep := by
    intro s t h hr
    obtain ⟨h0, hnone, hstage⟩ := h
    cases hr with
    | slice e hpos => omega
    | empty e hpos =>
      rcases hstage with ⟨h1, hreads⟩ | ⟨h1, -⟩
      · refine ⟨h0, hnone, .inr ⟨?_, s.trace, e, hreads, rfl⟩⟩
        show s.forwarded - 1 = 0
        omega
      · omega
  inv h _ := ⟨h.inFlight, h.noneLeft⟩

/-- The stages in which `redirect_bio` may return. -/
def Done (s : Flight) : Prop := (∃ n, Sent n s) ∨ Handed s

theorem done_stable : (bioSetting fsyncFails).Stable Done where
  keep := by
    rintro s t (⟨n, h⟩ | h) hr
    · exact .inl ⟨n, (sent_stable n).keep h hr⟩
    · exact .inr (handed_stable.keep h hr)
  inv := by
    rintro s (⟨n, h⟩ | h)
    · exact (sent_stable n).inv h
    · exact handed_stable.inv h

end Stages

/-! ## One request -/

section Requests

variable {fsyncFails : Bool}

/-- A request that does nothing to the bio. -/
theorem quiet {q : LoopReq} (hc : (bioSetting fsyncFails).can q)
    (hq : ∀ {s x t}, answers fsyncFails q s x t → t = s) {P : Flight → Prop}
    (hP : (bioSetting fsyncFails).Stable P) :
    (bioSetting fsyncFails).Triple P (perform (S := LoopSig) q) (fun _ => P) := by
  refine Setting.Triple.perform hP (fun _ => hP) hc fun s x t hs ht => ?_
  rw [hq ht]
  exact hs

theorem touch_live : (bioSetting fsyncFails).Triple Live touch (fun _ => Live) := by
  refine Setting.Triple.perform live_stable (fun _ => live_stable) ⟨nofun, nofun⟩ ?_
  rintro s - t hs rfl
  exact ⟨hs.inFlight, hs.nrDone, hs.nrTotal, hs.noEmpty, hs.reads.log⟩

theorem touch_sending (j n : Nat) :
    (bioSetting fsyncFails).Triple (Sending j n) touch (fun _ => Sending j n) := by
  refine Setting.Triple.perform (sending_stable j n) (fun _ => sending_stable j n) ⟨nofun, nofun⟩ ?_
  rintro s - t hs rfl
  exact ⟨hs.lt, hs.count, hs.total, hs.noEmpty, hs.reads.log⟩

theorem bioEndio_live (e : Int) :
    (bioSetting fsyncFails).Triple Live (bioEndio e) (fun _ => Handed) := by
  refine Setting.Triple.perform live_stable (fun _ => handed_stable) ⟨nofun, nofun⟩ ?_
  rintro s - t hs rfl
  exact ⟨hs.inFlight, hs.nrDone.trans hs.nrTotal.symm, .inr ⟨hs.noEmpty, s.trace, e, hs.reads, rfl⟩⟩

theorem forward_live (rw : ReqFlags) :
    (bioSetting fsyncFails).Triple Live (forwardBio rw) (fun _ => Handed) := by
  refine Setting.Triple.perform live_stable (fun _ => handed_stable) ⟨nofun, nofun⟩ ?_
  rintro s - t hs rfl
  refine ⟨hs.inFlight, hs.nrDone.trans hs.nrTotal.symm, .inl ⟨?_, hs.reads⟩⟩
  show s.forwarded + 1 = 1
  rw [hs.noEmpty]

/-- A slice that is not the last one is submitted. -/
theorem submit_sending {j n : Nat} (b : Bio) (hj : j + 1 < n) :
    (bioSetting fsyncFails).Triple (Sending j n) (submitBio b n) (fun _ => Sending (j + 1) n) := by
  refine Setting.Triple.perform (sending_stable j n)
    (fun _ => sending_stable (j + 1) n) ⟨nofun, nofun⟩ ?_
  rintro s - t hs rfl
  have := hs.count
  refine ⟨hj, ?_, fun _ => rfl, hs.noEmpty, hs.reads⟩
  show s.inFlight + 1 + s.nrDone = j + 1
  omega

/-- The last slice is submitted. -/
theorem submit_sent {j n : Nat} (b : Bio) (hj : j + 1 = n) :
    (bioSetting fsyncFails).Triple (Sending j n) (submitBio b n) (fun _ => Sent n) := by
  refine Setting.Triple.perform (sending_stable j n) (fun _ => sent_stable n) ⟨nofun, nofun⟩ ?_
  rintro s - t hs rfl
  have := hs.count
  refine ⟨by omega, ?_, rfl, hs.noEmpty, fun _ => hs.reads, fun h => ?_⟩
  · show s.inFlight + 1 + s.nrDone = n
    omega
  · exact absurd h (Nat.succ_ne_zero _)

/-- `bio_add_page` takes a piece, or the slice was not empty. -/
theorem bioAddPage_live (b : Bio) (page len off : Nat) :
    (bioSetting fsyncFails).Triple Live (bioAddPage b page len off)
      (fun r s => (r.1 = len ∨ b.biIoVec ≠ []) ∧ Live s) := by
  refine Setting.Triple.perform live_stable (fun r => ?_) ⟨nofun, nofun⟩ ?_
  · exact ⟨fun h hr => ⟨h.1, live_stable.keep h.2 hr⟩, fun h => live_stable.inv h.2⟩
  · rintro s r t hs ⟨rfl, hr⟩
    refine ⟨?_, hs⟩
    rcases hr with rfl | ⟨-, hb⟩
    · exact .inl rfl
    · exact .inr hb

/-- The flush that `LOOP_DIRTY` asks for. -/
theorem flushIfDirty_keeps {P : Flight → Prop}
    (hP : (bioSetting fsyncFails).Stable P) (rw : ReqFlags) :
    (bioSetting fsyncFails).Triple P (flushIfDirty rw)
      (fun e s => (fsyncFails = true ∨ e = 0) ∧ P s) := by
  refine (quiet (q := .testDirty) ⟨nofun, nofun⟩ id hP).bind fun dirty => ?_
  cases dirty with
  | false => exact .ret hP fun s hs => ⟨.inr rfl, hs⟩
  | true =>
    refine Setting.Triple.perform hP (fun e => ?_) ⟨nofun, nofun⟩ ?_
    · exact ⟨fun h hr => ⟨h.1, hP.keep h.2 hr⟩, fun h => hP.inv h.2⟩
    · rintro s e t hs ⟨rfl, he⟩
      exact ⟨he, hs⟩

end Requests

/-! ## The loops -/

section Loops

variable {fsyncFails : Bool} {old : Bio}

/-- The bio is still the driver's, with a result, or has been ended. -/
def LiveOrEnded {α : Type} (Q : α → Prop) : Option α → Flight → Prop
  | none, s => Handed s
  | some a, s => Q a ∧ Live s

theorem loNewBio_live (bd start : Nat) : (bioSetting fsyncFails).Triple Live (loNewBio bd start old)
      (fun r s => (∀ b, r = some b → b.biIoVec = []) ∧ Live s) := by
  refine touch_live.bind fun _ => ?_
  refine (quiet (q := .bioAlloc _) ⟨nofun, nofun⟩ id live_stable).bind fun ok => ?_
  cases ok with
  | true =>
    refine .ret live_stable fun s hs => ⟨?_, hs⟩
    rintro b ⟨⟩
    rfl
  | false => exact .ret live_stable fun s hs => ⟨nofun, hs⟩

theorem loadSegment_live (c : Cursor) : (bioSetting fsyncFails).Triple Live (loadSegment old c)
      (fun c' s => c' = (if c.curPageLen = 0 then c.load old else c) ∧ Live s) := by
  rw [loadSegment]
  by_cases h0 : c.curPageLen = 0
  · rw [if_pos h0, if_pos h0]
    exact touch_live.bind fun _ => .ret live_stable fun s hs => ⟨rfl, hs⟩
  · rw [if_neg h0, if_neg h0]
    exact .ret live_stable fun s hs => ⟨rfl, hs⟩

/-- Two cursors in one place of the original bio. -/
def SamePlace (c c' : Cursor) : Prop :=
  c'.page = c.page ∧ c'.curPageOffset = c.curPageOffset
    ∧ c'.curPageLen = c.curPageLen ∧ c'.i = c.i
    ∧ c'.nrTotalSectors = c.nrTotalSectors

theorem addPiece_live (bd secNrPhys n : Nat) (nb : Bio) (c : Cursor) :
    (bioSetting fsyncFails).Triple Live (addPiece bd old secNrPhys n nb c)
      (LiveOrEnded (fun r => SamePlace (c.advance n) r.2)) := by
  refine (bioAddPage_live nb c.page (n * 512) c.curPageOffset).bind fun r =>
    .given fun _ => ?_
  by_cases hr : r.1 = n * 512
  · rw [if_pos hr]
    exact .ret live_stable fun s hs => ⟨⟨rfl, rfl, rfl, rfl, rfl⟩, hs⟩
  · rw [if_neg hr]
    refine (loNewBio_live bd secNrPhys).bind fun fresh => .given fun hfresh => ?_
    cases fresh with
    | none =>
      exact (bioEndio_live enomem).bind fun _ =>
        .ret handed_stable fun s hs => hs
    | some fb =>
      refine (bioAddPage_live fb c.page (n * 512) c.curPageOffset).bind
        fun r' => .given fun hr' => ?_
      have htaken : r'.1 = n * 512 :=
        hr'.resolve_right (fun hb => hb (hfresh fb rfl))
      rw [if_pos htaken]
      exact .ret live_stable fun s hs => ⟨⟨rfl, rfl, rfl, rfl, rfl⟩, hs⟩

/-- A cursor in front of `n` sectors. -/
structure Before (old : Bio) (n : Nat) (c : Cursor) : Prop where
  dvd : 512 ∣ c.curPageLen
  length : (ahead old c).length = n

variable {n : Nat} {c : Cursor}

theorem Before.samePlace {c' : Cursor} (h : Before old n c)
    (hs : SamePlace c c') : Before old n c' := by
  obtain ⟨h1, h2, h3, h4, -⟩ := hs
  refine ⟨by rw [h3]; exact h.dvd, ?_⟩
  rw [ahead, h1, h2, h3, h4]
  exact h.length

theorem Before.load (hw : old.Whole) (h : Before old n c) (h0 : c.curPageLen = 0) (hn : 0 < n) :
    Before old n (c.load old) ∧ c.i < old.biIoVec.length := by
  have hi : c.i < old.biIoVec.length :=
    segments_left h0 (by rw [h.length]; exact hn)
  refine ⟨⟨?_, by rw [ahead_load h0 hi]; exact h.length⟩, hi⟩
  rw [load_segment hi]
  exact hw _ (getElem_mem hi)

theorem Before.advance {t : Nat} (h : Before old n c)
    (ht : t ≤ c.curPageLen / 512) : Before old (n - t) (c.advance t) := by
  have hdvd := h.dvd
  refine ⟨?_, ?_⟩
  · show 512 ∣ c.curPageLen - t * 512
    exact Nat.dvd_sub hdvd (Nat.dvd_mul_left 512 t)
  · have hlen := h.length
    rw [ahead_advance old ht, length_append, BioVec.sectors_length,
      Nat.mul_div_cancel t (by decide)] at hlen
    omega

/-- The test for an exhausted segment: another one is taken, or there are sectors in this one. -/
theorem Before.load_or_keep (hw : old.Whole) {c₁ : Cursor} (h : Before old n c) (hn : 0 < n)
    (hc₁ : c₁ = if c.curPageLen = 0 then c.load old else c) :
    Before old n c₁ ∧ c₁.nrTotalSectors = c.nrTotalSectors
      ∧ (old.biIoVec.length - c₁.i < old.biIoVec.length - c.i
        ∨ c₁.i = c.i ∧ 0 < c₁.curPageLen / 512) := by
  by_cases h0 : c.curPageLen = 0
  · obtain ⟨hb, hi⟩ := h.load hw h0 hn
    rw [if_pos h0] at hc₁
    subst hc₁
    refine ⟨hb, rfl, .inl ?_⟩
    show old.biIoVec.length - (c.i + 1) < _
    omega
  · rw [if_neg h0] at hc₁
    subst hc₁
    have hdvd := h.dvd
    exact ⟨h, rfl, .inr ⟨rfl, by omega⟩⟩

/-- The inner loop takes `r` of the sectors ahead. -/
theorem fillBlock_live (hw : old.Whole) (bd secNrPhys : Nat) :
    ∀ (fuel r n : Nat) (nb : Bio) (c : Cursor), Before old n c → r ≤ n →
      r + (old.biIoVec.length - c.i) ≤ fuel →
      (bioSetting fsyncFails).Triple Live (fillBlock bd old secNrPhys fuel r nb c)
        (LiveOrEnded (fun x => Before old (n - r) x.2
          ∧ x.2.nrTotalSectors = c.nrTotalSectors)) := by
  intro fuel
  induction fuel with
  | zero =>
    intro r n nb c hb _ hfuel
    obtain rfl : r = 0 := by omega
    exact .ret live_stable fun s hs => ⟨⟨hb, rfl⟩, hs⟩
  | succ fuel ih =>
    intro r n nb c hb hr hfuel
    cases r with
    | zero => exact .ret live_stable fun s hs => ⟨⟨hb, rfl⟩, hs⟩
    | succ r =>
      rw [fillBlock]
      refine (loadSegment_live c).bind fun c₁ => .given fun hc₁ => ?_
      obtain ⟨hb₁, htot, hprog⟩ := hb.load_or_keep hw (by omega) hc₁
      refine (addPiece_live bd secNrPhys _ nb c₁).bind fun piece => ?_
      cases piece with
      | none => exact .ret handed_stable fun s hs => hs
      | some x =>
        obtain ⟨nb₂, c₂⟩ := x
        refine .given fun hsame => ?_
        have hb₂ := (hb₁.advance (Nat.min_le_right (r + 1) _)).samePlace hsame
        have hi : c₂.i = c₁.i := hsame.2.2.2.1
        refine (ih _ _ nb₂ c₂ hb₂ (by omega) ?_).post ?_
        · rw [hi]
          omega
        · rintro (- | x) s hs
          · exact hs
          · obtain ⟨⟨hb₃, htot₃⟩, hlive⟩ := hs
            refine ⟨⟨?_, htot₃.trans (hsame.2.2.2.2.trans htot)⟩, hlive⟩
            rw [show n - (r + 1) = n - min (r + 1) (c₁.curPageLen / 512)
              - (r + 1 - min (r + 1) (c₁.curPageLen / 512)) by omega]
            exact hb₃

theorem translateBlock_live (blk : Nat) :
    (bioSetting fsyncFails).Triple Live (translateBlock old blk) (LiveOrEnded (fun _ => True)) := by
  refine (quiet (q := .cacheLookup _) ⟨nofun, nofun⟩ id live_stable).bind fun (p : Nat) => ?_
  by_cases hp : p ≠ 0
  · rw [if_pos hp]
    exact .ret live_stable fun s hs => ⟨trivial, hs⟩
  · rw [if_neg hp]
    refine touch_live.bind fun _ => ?_
    refine (quiet (q := .cioRequest _ _) ⟨nofun, nofun⟩ id live_stable).bind
      fun (cio : CioReply) => ?_
    by_cases he : cio.error ≠ 0
    · rw [if_pos he]
      exact (bioEndio_live eio).bind fun _ =>
        .ret handed_stable fun s hs => hs
    · rw [if_neg he]
      exact .ret live_stable fun s hs => ⟨trivial, hs⟩

theorem openSlice_live (bd secNrPhys : Nat) (c : Cursor) :
    (bioSetting fsyncFails).Triple Live (openSlice bd secNrPhys old c) (fun _ => Live) := by
  rw [openSlice]
  cases c.newBio with
  | some nb => exact .ret live_stable fun s hs => hs
  | none => exact (loNewBio_live bd secNrPhys).post fun _ _ hs => hs.2

theorem Before.cut (h : Before old n c) (secNrPhys : Nat) : Before old n (c.cut secNrPhys)
      ∧ (c.cut secNrPhys).nrTotalSectors = c.nrTotalSectors := by
  rw [Cursor.cut]
  split
  · exact ⟨⟨h.dvd, h.length⟩, rfl⟩
  · exact ⟨h, rfl⟩

/-- The outer loop comes to its end, whatever is answered. -/
theorem blockLoop_live (hw : old.Whole) (bd blkbits : Nat) :
    ∀ (fuel : Nat) (c : Cursor), Before old c.nrTotalSectors c → c.nrTotalSectors ≤ fuel →
      (bioSetting fsyncFails).Triple Live (blockLoop bd blkbits old fuel c)
        (LiveOrEnded (fun _ => True)) := by
  intro fuel
  induction fuel with
  | zero =>
    intro c _ hfuel
    rw [blockLoop, if_pos (by omega)]
    exact .ret live_stable fun s hs => ⟨trivial, hs⟩
  | succ fuel ih =>
    intro c hb hfuel
    rw [blockLoop]
    by_cases h0 : c.nrTotalSectors = 0
    · rw [if_pos h0]
      exact .ret live_stable fun s hs => ⟨trivial, hs⟩
    · rw [if_neg h0]
      refine (translateBlock_live _).bind fun tr => ?_
      cases tr with
      | none => exact .ret handed_stable fun s hs => hs
      | some p =>
        refine .given fun _ => (openSlice_live bd _ _).bind fun opened => ?_
        cases opened with
        | none =>
          exact (bioEndio_live enomem).bind fun _ =>
            .ret handed_stable fun s hs => hs
        | some nb =>
          have hspb : 0 < 2 ^ (blkbits - 9) := Nat.two_pow_pos _
          have hoff := Nat.mod_lt c.secNrLogical hspb
          obtain ⟨hcut, htot⟩ := hb.cut (p * 2 ^ (blkbits - 9) + c.secNrLogical % 2 ^ (blkbits - 9))
          refine Setting.Triple.bind (fillBlock_live hw bd _ _ _
            c.nrTotalSectors nb _ ?_ (Nat.min_le_left _ _) ?_)
            fun filled => ?_
          · exact ⟨hcut.dvd, hcut.length⟩
          · exact Nat.add_le_add_left (Nat.sub_le _ _) _
          · cases filled with
            | none => exact .ret handed_stable fun s hs => hs
            | some x =>
              refine .given fun hdone => ?_
              obtain ⟨hb₂, htot₂⟩ := hdone
              have hrest := htot₂.trans (congrArg (· - _) htot)
              refine ih _ ⟨hb₂.dvd, hb₂.length.trans hrest.symm⟩ ?_
              exact hrest.trans_le (by omega)

theorem buildSlices_live (hw : old.Whole) (bd blkbits : Nat) :
    (bioSetting fsyncFails).Triple Live (buildSlices bd blkbits old)
      (LiveOrEnded (fun _ => True)) := by
  have hb : Before old (Cursor.start old).nrTotalSectors (.start old) := by
    refine ⟨Nat.dvd_zero 512, ?_⟩
    show (ahead old (.start old)).length = old.nrSectors
    rw [Bio.nrSectors_eq, ahead]
    simp [Cursor.start, BioVec.sectors, Bio.sectors, Bio.segments]
  refine (blockLoop_live hw bd blkbits old.nrSectors (.start old) hb
    (le_refl _)).bind fun done => ?_
  cases done with
  | none => exact .ret handed_stable fun s hs => hs
  | some c =>
    exact .given fun _ => .ret live_stable fun s hs => ⟨trivial, hs⟩

end Loops

/-! ## Submission and flushes -/

section Ends

variable {fsyncFails : Bool} {old : Bio}

theorem submitSlices_sends {n : Nat} : ∀ (l : List Bio) (j : Nat), l ≠ [] → j + l.length = n →
      (bioSetting fsyncFails).Triple (Sending j n) (submitSlices n l) (fun _ => Sent n) := by
  intro l
  induction l with
  | nil => exact fun j h => absurd rfl h
  | cons b rest ih =>
    intro j _ hn
    rw [length_cons] at hn
    refine (touch_sending j n).bind fun _ => ?_
    cases rest with
    | nil =>
      exact (submit_sent b hn).bind fun _ =>
        .ret (sent_stable n) fun s hs => hs
    | cons b' rest =>
      rw [length_cons] at hn
      exact (submit_sending b (by omega)).bind fun _ =>
        ih (j + 1) (cons_ne_nil _ _) (by rw [length_cons]; omega)

theorem sendSlices_live (slices : List Bio) :
    (bioSetting fsyncFails).Triple Live (sendSlices slices) (fun _ => Done) := by
  rw [sendSlices]
  by_cases hnil : slices = []
  · rw [if_pos hnil]
    exact (bioEndio_live 0).post fun _ _ hs => .inr hs
  · rw [if_neg hnil]
    have hpos : 0 < slices.length := length_pos_iff.mpr hnil
    exact ((submitSlices_sends slices 0 hnil (zero_add _)).pre
      fun s hs => hs.sending hpos).post fun _ _ hs => .inl ⟨_, hs⟩

/-- The flush behind the submission, when it cannot fail or is not made. -/
theorem fuaFlush_done {rw : ReqFlags} (hok : fsyncFails = false ∨ rw.fua = false) :
    (bioSetting fsyncFails).Triple Done (fuaFlush rw) (fun _ => Done) := by
  rw [fuaFlush]
  cases hfua : rw.fua with
  | false => exact .ret done_stable fun s hs => hs
  | true =>
    refine (flushIfDirty_keeps done_stable rw).bind fun e => .given fun he => ?_
    have hfails : fsyncFails = false :=
      hok.resolve_right (by rw [hfua]; decide)
    obtain rfl : e = 0 := he.resolve_left (by rw [hfails]; decide)
    exact .ret done_stable fun s hs => hs

theorem preFlush_live : (bioSetting fsyncFails).Triple Live (preFlush old)
      (fun ok s => if ok = true then Live s else Handed s) := by
  refine touch_live.bind fun _ => ?_
  by_cases hfl : old.biRw.flush = true
  · rw [if_pos hfl]
    refine (flushIfDirty_keeps live_stable old.biRw).bind fun e =>
      .given fun _ => ?_
    by_cases he : e ≠ 0
    · rw [if_pos he]
      exact (bioEndio_live eio).bind fun _ => .ret handed_stable fun s hs => hs
    · rw [if_neg he]
      exact .ret live_stable fun s hs => hs
  · rw [if_neg hfl]
    exact .ret live_stable fun s hs => hs

theorem emptyFlush_live : (bioSetting fsyncFails).Triple Live (emptyFlush old) (fun _ => Done) := by
  refine (flushIfDirty_keeps live_stable old.biRw).bind fun e =>
    .given fun _ => ?_
  by_cases he : e ≠ 0
  · rw [if_pos he]
    exact (bioEndio_live eio).post fun _ _ hs => .inr hs
  · rw [if_neg he]
    exact touch_live.bind fun _ =>
      (forward_live old.biRw).post fun _ _ hs => .inr hs

theorem redirectData_live (hw : old.Whole) (bd blkbits : Nat)
    (hok : fsyncFails = false ∨ old.biRw.fua = false) :
    (bioSetting fsyncFails).Triple Live (redirectData bd blkbits old) (fun _ => Done) := by
  refine (buildSlices_live hw bd blkbits).bind fun built => ?_
  cases built with
  | none => exact .ret handed_stable fun s hs => .inr hs
  | some slices =>
    refine .given fun _ => touch_live.bind fun _ => ?_
    exact (sendSlices_live slices).bind fun _ => fuaFlush_done hok

theorem loopHandleBio_live (hbd : old.biBdev ≠ none) :
    (bioSetting fsyncFails).Triple Live (loopHandleBio old) (fun _ => Live) := by
  refine touch_live.bind fun _ => ?_
  rw [if_neg hbd]
  exact .ret live_stable fun s hs => hs

/-- `redirect_bio` passes a bio through its stages. -/
theorem redirectBio_live (hw : old.Whole) (bd blkbits : Nat) (hbd : old.biBdev ≠ none)
    (hok : ¬ (fsyncFails = true ∧ old.biRw.fua = true ∧ old.nrSectors ≠ 0)) :
    (bioSetting fsyncFails).Triple Live (redirectBio bd blkbits old) (fun _ => Done) := by
  refine (loopHandleBio_live hbd).bind fun _ => touch_live.bind fun _ => ?_
  by_cases hempty : old.nrSectors = 0 ∧ (old.biRw.flush = true ∨ old.biRw.fua = true)
  · rw [if_pos hempty]
    exact emptyFlush_live
  · rw [if_neg hempty]
    refine preFlush_live.bind fun ok => ?_
    cases ok with
    | false => exact .ret handed_stable fun s hs => .inr hs
    | true =>
      refine redirectData_live hw bd blkbits ?_
      rcases Bool.eq_false_or_eq_true fsyncFails with hf | hf
      · refine .inr ?_
        by_contra hfua
        have htrue : old.biRw.fua = true := by simpa using hfua
        exact hempty ⟨by_contra fun hn => hok ⟨hf, htrue, hn⟩, .inr htrue⟩
      · exact .inl hf

end Ends

/-! ## Every interleaving -/

theorem completes_acc (s : Flight) : Acc (fun t s => Completes s t) s := by
  induction hn : s.inFlight + s.forwarded using Nat.strong_induction_on generalizing s with
  | _ n ih =>
    refine ⟨_, fun t ht => ih _ ?_ t rfl⟩
    cases ht with
    | slice e hpos =>
      obtain ⟨h1, -, -, h2⟩ := loEndBio_counts e s
      omega
    | empty e hpos =>
      show s.inFlight + (s.forwarded - 1) < n
      omega

/-- Every request but the two fatal ones has an answer. -/
theorem exists_answer (fsyncFails : Bool) {q : LoopReq}
    (hc : (bioSetting fsyncFails).can q) (s : Flight) :
    ∃ x t, answers fsyncFails q s x t := by
  cases q with
  | bug => exact absurd rfl hc.1
  | spin => exact absurd rfl hc.2
  | addPage b page len off => exact ⟨_, s, rfl, .inl rfl⟩
  | flush rw => exact ⟨(0 : Int), s, rfl, .inr rfl⟩
  | testDirty => exact ⟨true, s, rfl⟩
  | cacheLookup b => exact ⟨(0 : Nat), s, rfl⟩
  | cioRequest b rw => exact ⟨⟨0, 0⟩, s, rfl⟩
  | bioAlloc n => exact ⟨true, s, rfl⟩
  | _ => exact ⟨(), _, rfl⟩

variable {fsyncFails : Bool} {old : Bio} {c : Prog LoopSig Unit × Flight}

theorem endsOnce_of_stages (hw : old.Whole) (bd blkbits : Nat) (hbd : old.biBdev ≠ none)
    (hok : ¬ (fsyncFails = true ∧ old.biRw.fua = true ∧ old.nrSectors ≠ 0)) :
    EndsOnce fsyncFails bd blkbits old where
  terminates := Setting.move_acc completes_acc _ _
  once := by
    rintro ⟨p, s⟩ hreach hend
    have hsafe := Setting.Safe.reach _ (redirectBio_live hw bd blkbits hbd hok
      .start start_live) hreach
    cases p with
    | ask q k =>
      obtain ⟨x, t, ht⟩ := exists_answer fsyncFails (hsafe s .refl).2.1 s
      exact absurd (.ask ht) (hend (k x, t))
    | ret a =>
      have hin : s.inFlight = 0 := by
        by_contra h
        exact hend _ (.others (.slice 0 (Nat.pos_of_ne_zero h)))
      have hfw : s.forwarded = 0 := by
        by_contra h
        exact hend _ (.others (.empty 0 (Nat.pos_of_ne_zero h)))
      have hended : Ended s.trace := by
        rcases (hsafe s .refl).2 with ⟨n, hsent⟩ | hhanded
        · exact hsent.ended hin
        · rcases hhanded.stage with ⟨h1, -⟩ | ⟨-, h1⟩
          · omega
          · exact h1
      obtain ⟨r, e, hr, htrace⟩ := hended
      exact ⟨r, [.ended e], hr, by rw [GivenBack, if_neg hbd]; exact ⟨e, rfl⟩, htrace⟩

/-! ## Two bios that are not ended once -/

theorem loEndBio_trace (e : Int) (s : Flight) : s.trace <+: (loEndBio e s).trace := by
  unfold loEndBio
  dsimp only
  split
  · exact prefix_append _ _
  · exact prefix_rfl

theorem answers_trace {q : LoopReq} {t : Flight}
    {x : q.Ans} (h : answers fsyncFails q s x t) : s.trace <+: t.trace := by
  cases q with
  | bug => exact h.elim
  | spin => exact h.elim
  | addPage b page len off =>
    obtain ⟨rfl, -⟩ := h
    exact prefix_rfl
  | flush rw =>
    obtain ⟨rfl, -⟩ := h
    exact prefix_rfl
  | touch =>
    cases h
    exact prefix_append _ _
  | bioEndio e =>
    cases h
    exact prefix_append _ _
  | bioPut =>
    cases h
    exact prefix_append _ _
  | switchDone =>
    cases h
    exact prefix_append _ _
  | _ =>
    cases h
    exact prefix_rfl

theorem move_trace {c' : Prog LoopSig Unit × Flight}
    (h : (bioSetting fsyncFails).Move c c') : c.2.trace <+: c'.2.trace := by
  cases h with
  | others hr =>
    cases hr with
    | slice e _ => exact loEndBio_trace e _
    | empty e _ => exact prefix_append _ _
  | ask hs => exact answers_trace hs

theorem reach_trace {c' : Prog LoopSig Unit × Flight}
    (h : (bioSetting fsyncFails).Reach c c') : c.2.trace <+: c'.2.trace := by
  induction h with
  | refl => exact prefix_rfl
  | tail _ hm ih => exact ih.trans (move_trace hm)

/-- What happens to a bio that is ended once starts such a life. -/
theorem EndsOnce.extends {bd blkbits : Nat} (h : EndsOnce fsyncFails bd blkbits old)
    (hr : (bioSetting fsyncFails).Reach (redirectBio bd blkbits old, .start) c) :
    ∃ l, EndedOnce old l ∧ c.2.trace <+: l := by
  obtain ⟨c', hr', hend⟩ :=
    Setting.exists_end (Setting.acc_of_reach h.terminates hr)
  exact ⟨c'.2.trace, h.once c' (hr.trans hr') hend, reach_trace hr'⟩

/-- The magic bio is read after it has been put. -/
theorem magic_reused (fsyncFails : Bool) (bd blkbits : Nat) (hbd : old.biBdev = none) :
    ∃ c, (bioSetting fsyncFails).Reach (redirectBio bd blkbits old, .start) c
      ∧ c.2.trace = [.read, .switched, .put, .read] := by
  obtain ⟨biBdev, biSector, biRw, biIdx, biMaxVecs, biIoVec⟩ := old
  obtain rfl : biBdev = none := hbd
  exact ⟨_, .head (.ask (x := ()) rfl) (.head (.ask (x := ()) rfl)
    (.head (.ask (x := ()) rfl) (.head (.ask (x := ()) rfl) .refl))), rfl⟩

theorem not_endsOnce_of_magic (fsyncFails : Bool) (bd blkbits : Nat)
    (hbd : old.biBdev = none) : ¬ EndsOnce fsyncFails bd blkbits old := by
  intro h
  obtain ⟨c, hr, htrace⟩ := magic_reused fsyncFails bd blkbits hbd
  obtain ⟨l, ⟨reads, fin, hreads, hfin, rfl⟩, hl⟩ := h.extends hr
  rw [GivenBack, if_pos hbd] at hfin
  subst hfin
  rw [htrace] at hl
  obtain ⟨rest, hrest⟩ := hl
  -- drop the reads on both sides
  have hreads' : List.dropWhile (· == BioEvent.read)
      (reads ++ [.switched, .put]) = [.switched, .put] :=
    dropWhile_append_of_pos (fun e he => by rw [hreads e he]; rfl)
  rw [← hrest] at hreads'
  have hlong : BioEvent.switched :: .put :: .read :: rest = [.switched, .put] := hreads'
  cases hlong

/-- How often a bio has been ended. -/
def endCount (l : List BioEvent) : Nat :=
  l.countP (fun e => match e with | .ended _ => true | _ => false)

theorem EndedOnce.endCount_le (h : EndedOnce old l) : endCount l ≤ 1 := by
  obtain ⟨reads, fin, hreads, hfin, rfl⟩ := h
  have h0 : endCount reads = 0 := by
    rw [endCount, countP_eq_zero]
    intro e he
    rw [hreads e he]
    decide
  have h1 : endCount fin ≤ 1 := by
    rw [GivenBack] at hfin
    split at hfin
    · rw [hfin]
      decide
    · obtain ⟨e, rfl⟩ := hfin
      exact le_refl 1
  rw [endCount, countP_append]
  exact (Nat.add_le_add (Nat.le_of_eq h0) h1).trans (by omega)

/-- When the slices under way are all that is left, the last of them ends the bio. -/
theorem completes_all : ∀ (m : Nat) (s : Flight), s.inFlight = m + 1 →
    s.inFlight + s.nrDone = s.nrTotal →
    ∃ t, ReflTransGen Completes s t ∧ endCount s.trace < endCount t.trace := by
  intro m
  induction m with
  | zero =>
    intro s hin hcount
    refine ⟨_, .single (.slice 0 (by omega)), ?_⟩
    rw [loEndBio, if_pos (show s.nrTotal = s.nrDone + 1 by omega)]
    show endCount s.trace < endCount (s.trace ++ [.ended _])
    rw [endCount, endCount, countP_append]
    exact Nat.lt_succ_self _
  | succ m ih =>
    intro s hin hcount
    obtain ⟨h1, h2, h3, -⟩ := loEndBio_counts 0 s
    obtain ⟨t, ht, hlt⟩ := ih (loEndBio 0 s) (by omega) (by omega)
    refine ⟨t, .head (.slice 0 (by omega)) ht, ?_⟩
    exact (loEndBio_trace 0 s).sublist.countP_le.trans_lt hlt

/-- Surroundings in which nothing is dirty. -/
def calmHandler : Handler LoopSig Unit
  | .touch, _ => some ((), ())
  | .testDirty, _ => some (false, ())
  | .submit _ _, _ => some ((), ())
  | _, _ => none

theorem calmHandler_answers (q : LoopReq) (o : Unit)
    (x : q.Ans) (o' : Unit) (h : calmHandler q o = some (x, o')) (s : Flight) :
    ∃ t, answers fsyncFails q s x t := by
  cases q with
  | touch => exact ⟨_, rfl⟩
  | testDirty => exact ⟨_, rfl⟩
  | submit b n => exact ⟨_, rfl⟩
  | _ => cases h

theorem run_calm_touch : run calmHandler touch () = some ((), ()) := rfl

theorem run_calm_preFlush (old : Bio) : run calmHandler (preFlush old) () = some (true, ()) := by
  rw [preFlush, run_touch rfl]
  cases old.biRw.flush with
  | false => rfl
  | true => rfl

theorem run_calm_submitSlices (n : Nat) (l : List Bio) :
    run calmHandler (submitSlices n l) () = some ((), ()) := by
  induction l with
  | nil => rfl
  | cons b l ih => exact ih

theorem mapHandler_answers {map : Nat → Nat} {hit : Nat → Bool} {rf : Refusals} (q : LoopReq)
    (o : Offers) (x : q.Ans) (o' : Offers) (h : mapHandler map hit rf q o = some (x, o'))
    (s : Flight) : ∃ t, answers fsyncFails q s x t := by
  cases q with
  | touch => exact ⟨_, rfl⟩
  | bioAlloc n => exact ⟨_, rfl⟩
  | cacheLookup b => exact ⟨_, rfl⟩
  | cioRequest b rw => exact ⟨_, rfl⟩
  | addPage b page len off =>
    refine ⟨s, rfl, ?_⟩
    have hoffer : offer rf b page len off o = (x, o') := Option.some.inj h
    rw [offer] at hoffer
    split at hoffer
    · rename_i hb
      cases hoffer
      exact .inr ⟨rfl, hb.1⟩
    · cases hoffer
      exact .inl rfl
  | _ => cases h

/-- Slices that carry a sector. -/
theorem exists_slices (hw : old.Whole) (hn : old.nrSectors ≠ 0) (bd blkbits : Nat) :
    ∃ slices o, run (mapHandler (fun b => b + 1) (fun _ => true)
        ⟨fun _ => false, fun _ => false⟩) (buildSlices bd blkbits old) ⟨0, 0⟩
      = some (some slices, o) ∧ slices ≠ [] := by
  obtain ⟨m, slices, o, hrun, -, -, -, -, hiff⟩ :=
    slices_placed_iff (mapHandler_env (fun b => b + 1) (fun _ => true)
      ⟨fun _ => false, fun _ => false⟩ old) bd hw rfl (s := ⟨0, 0⟩) rfl
  refine ⟨slices, o, hrun, ?_⟩
  rintro rfl
  have hplaced := hiff.mpr (fun _ _ _ _ hr => Bool.noConfusion hr)
  have hlen := congrArg length hplaced
  rw [expected_length _ _ _ (le_refl _), ← Bio.nrSectors_eq] at hlen
  exact hn hlen.symm

/-- Under a failing fsync the flush of a `REQ_FUA` bio ends what `lo_end_bio` ends as well. -/
theorem fuaFlush_ends_twice {rw : ReqFlags} (hfua : rw.fua = true) (hs : Sent n s) :
    ∃ c, (bioSetting true).Reach (fuaFlush rw, s) c ∧ 2 ≤ endCount c.2.trace := by
  have hdirty : (bioSetting true).Move (fuaFlush rw, s) (do
        let error ← cioMakeRequestFlush rw
        if error ≠ 0 then bioEndio error else return (), s) := by
    rw [fuaFlush, if_pos hfua]
    exact .ask (E := bioSetting true) (q := .testDirty) (x := true) (t := s) rfl
  have hfail : (bioSetting true).Move (do
        let error ← cioMakeRequestFlush rw
        if error ≠ 0 then bioEndio error else return (), s)
      (bioEndio 5, s) :=
    .ask (E := bioSetting true) (q := .flush rw) (x := (5 : Int)) (t := s) ⟨rfl, .inl rfl⟩
  have hend : (bioSetting true).Move (bioEndio 5, s) (.ret (), s.log (.ended 5)) :=
    .ask (E := bioSetting true) (q := .bioEndio 5) (x := ()) rfl
  have hflush : (bioSetting true).Reach (fuaFlush rw, s)
      (.ret (), s.log (.ended 5)) := .head hdirty (.head hfail (.single hend))
  have hcount : endCount (s.log (.ended 5)).trace = endCount s.trace + 1 := by
    show endCount (s.trace ++ [.ended 5]) = _
    rw [endCount, countP_append]
    rfl
  by_cases h0 : s.inFlight = 0
  · -- the slices were faster
    obtain ⟨r, e, -, htrace⟩ := hs.ended h0
    refine ⟨_, hflush, ?_⟩
    rw [hcount, htrace, endCount, countP_append]
    exact Nat.succ_le_succ (Nat.le_add_left 1 _)
  · obtain ⟨t, ht, hlt⟩ := completes_all (s.inFlight - 1) (s.log (.ended 5))
      (by show s.inFlight = _; omega) (hs.count.trans hs.total.symm)
    rw [hcount] at hlt
    exact ⟨(.ret (), t), hflush.trans (Setting.reach_others ht _),
      show 2 ≤ endCount t.trace by omega⟩

theorem fua_ended_twice (hw : old.Whole) (bd blkbits : Nat) (hbd : old.biBdev ≠ none)
    (hfua : old.biRw.fua = true) (hn : old.nrSectors ≠ 0) :
    ∃ c, (bioSetting true).Reach (redirectBio bd blkbits old, .start) c
      ∧ 2 ≤ endCount c.2.trace := by
  have hhandle : run calmHandler (loopHandleBio old) () = some ((), ()) := by
    rw [loopHandleBio, run_touch rfl, if_neg hbd]
    rfl
  obtain ⟨slices, o, hbuild, hne⟩ := exists_slices hw hn bd blkbits
  have hpos : 0 < slices.length := length_pos_iff.mpr hne
  -- up to the submission everything goes well
  rw [redirectBio, if_neg (fun h => hn h.1)]
  refine Setting.reach_of_run calmHandler_answers hhandle
    (loopHandleBio_live hbd) start_live fun s₁ h₁ => ?_
  refine Setting.reach_of_run calmHandler_answers run_calm_touch touch_live h₁ fun s₂ h₂ => ?_
  refine Setting.reach_of_run calmHandler_answers (run_calm_preFlush old)
    preFlush_live h₂ fun s₃ h₃ => ?_
  refine Setting.reach_of_run mapHandler_answers hbuild
    (buildSlices_live hw bd blkbits) h₃ fun s₄ h₄ => ?_
  refine Setting.reach_of_run calmHandler_answers run_calm_touch touch_live h₄.2 fun s₅ h₅ => ?_
  rw [sendSlices, if_neg hne]
  refine Setting.reach_of_run calmHandler_answers (run_calm_submitSlices slices.length slices)
    (submitSlices_sends slices 0 hne (zero_add _)) (h₅.sending hpos)
    fun s₆ h₆ => ?_
  exact fuaFlush_ends_twice hfua h₆

/-- A bio is ended once, in every interleaving, unless it is the magic one or a
    `REQ_FUA` one with data on a backing file whose fsync may fail. -/
theorem endsOnce_iff (fsyncFails : Bool) (bd blkbits : Nat) {old : Bio} (hw : old.Whole) :
    EndsOnce fsyncFails bd blkbits old ↔ old.biBdev ≠ none
        ∧ ¬ (fsyncFails = true ∧ old.biRw.fua = true ∧ old.nrSectors ≠ 0) := by
  refine ⟨fun h => ?_, fun h => endsOnce_of_stages hw bd blkbits h.1 h.2⟩
  have hbd : old.biBdev ≠ none := fun hnone =>
    not_endsOnce_of_magic fsyncFails bd blkbits hnone h
  refine ⟨hbd, ?_⟩
  rintro ⟨rfl, hfua, hn⟩
  obtain ⟨c, hr, htwo⟩ := fua_ended_twice hw bd blkbits hbd hfua hn
  obtain ⟨l, hl, hpre⟩ := h.extends hr
  have hle : endCount c.2.trace ≤ endCount l := hpre.sublist.countP_le
  have := hl.endCount_le
  omega

/-- A write of one page with `REQ_FUA`. -/
def fuaPage : Bio where
  biBdev := some 0
  biSector := 0
  biRw := ⟨true, false, true⟩
  biIdx := 0
  biMaxVecs := 1
  biIoVec := [⟨0, 4096, 0⟩]

theorem fuaPage_whole : fuaPage.Whole := by simp [fuaPage, Bio.Whole]

/-- It is ended once as long as fsync does not fail. -/
theorem fuaPage_endsOnce : fuaPage.Whole ∧ EndsOnce false 0 12 fuaPage :=
  ⟨fuaPage_whole, (endsOnce_iff false 0 12 fuaPage_whole).mpr ⟨nofun, fun h => nomatch h.1⟩⟩

/-- And it is not when fsync may fail; nor is the bio of `loop_switch`. -/
theorem fuaPage_magic_not_endsOnce : ¬ EndsOnce true 0 12 fuaPage
      ∧ ¬ EndsOnce false 0 12 ⟨none, 0, ⟨false, false, false⟩, 0, 0, []⟩ := by
  refine ⟨fun h => ?_, not_endsOnce_of_magic false 0 12 rfl⟩
  obtain ⟨c, hr, htwo⟩ := fua_ended_twice fuaPage_whole 0 12 nofun rfl (by decide)
  obtain ⟨l, hl, hpre⟩ := h.extends hr
  have hle : endCount c.2.trace ≤ endCount l := hpre.sublist.countP_le
  have := hl.endCount_le
  omega

end BioLife
