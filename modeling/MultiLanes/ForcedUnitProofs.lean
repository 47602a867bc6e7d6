import MultiLanes.BioLifeProofs
import MultiLanes.DirtyBitProofs

/-! # `REQ_FUA` — what is durable when a bio is ended

`redirect_bio` submits the slices of a `REQ_FUA` bio first and asks for the fsync of the
backing file afterwards, while the slices end the bio.  This is the whole system: the
submitter of one bio, the thread, the interrupts of its slices, and any number of other
requesters.  The two waits of the submitter are made visible (`waits`): a request is
posted, the thread serves what is in front of it, and the answer is read when it is
there.

Nothing orders the fsync before the last slice (`ended_before_fsync`).  What the bio
depends on is durable at its end when it was so at the start, or when the flush BEFORE
the data has made it so, which takes a `REQ_FLUSH` and a block that had been handed out
(`fuaDurable_of_known`). -/

namespace ForcedUnit

open InteractProg Relation LoopBio LoopRedirect LoopThread LoopCache BioLife Function List
open DirtyBit

/-- The requests of a submitter whose waits are steps. -/
inductive WaitReq
  /-- a request that is answered at once -/
  | now (q : LoopReq)
  /-- the `cio_req` is put on the list -/
  | post (cio : CioReq)
  /-- `wait_for_completion(&cio.allocated)`, and what it finds in the request -/
  | await

/-- The answers. -/
def WaitReq.Ans : WaitReq → Type
  | .now q => q.Ans
  | .post _ => Unit
  | .await => CioReply

def WaitSig : Sig := ⟨WaitReq, WaitReq.Ans⟩

def post (cio : CioReq) : Prog WaitSig Unit :=
  perform (S := WaitSig) (.post cio)

def await : Prog WaitSig CioReply := perform (S := WaitSig) .await

/-- `cio_make_request_flush` and `cio_make_request` wait for the thread. -/
def waits (prefetchBlocks : Int) : (q : LoopReq) → Prog WaitSig q.Ans
  | .flush rw => do
    post (flushCio 0 rw)
    let cio ← await
    return cio.error
  | .cioRequest blk rw => do
    post (translationCio prefetchBlocks blk rw)
    await
  | q => perform (S := WaitSig) (.now q)

/-- A submitter that waits. -/
def waiting {α : Type} (prefetchBlocks : Int) (p : Prog LoopSig α) :
    Prog WaitSig α := p.expand (waits prefetchBlocks)

theorem waiting_bind {α β : Type} (prefetchBlocks : Int) (p : Prog LoopSig α)
    (f : α → Prog LoopSig β) : waiting prefetchBlocks (p >>= f)
      = (waiting prefetchBlocks p >>= fun a => waiting prefetchBlocks (f a)) :=
  expand_bind _ p f

/-- The state of the device and of one bio. -/
structure System where
  thread : Prog ThreadSig Unit
  store : Store
  flight : Flight

/-- `block_cache_lookup` hands a number out. -/
def looked (s : Store) (b : Nat) : Store :=
  if s.cache.blockCacheLookup b = 0 then s
  else { s with returned := (b, s.cache.blockCacheLookup b) :: s.returned }

/-- What the requests of the submitter `me` do. -/
def submitterStep (me : Nat) : (q : WaitReq) → System → q.Ans → System → Prop
  | .now .testDirty, s, x, t => x = s.store.dirty ∧ t = s
  | .now (.cacheLookup b), s, x, t =>
    x = s.store.cache.blockCacheLookup b ∧ t = { s with store := looked s.store b }
  | .now q, s, x, t =>
    ∃ f, answers true q s.flight x f ∧ t = { s with flight := f }
  | .post cio, s, _, t => t = { s with store := s.store.enqueue ⟨me, cio⟩ }
  | .await, s, r, t =>
    (∃ e p, s.store.answered me = some (e, p) ∧ r = ⟨e, p.getD 0⟩) ∧ t = s

/-- A step of the other requesters. -/
def OthersRequest (me : Nat) (s t : Store) : Prop :=
  Requests s t ∧ ∀ x, t.queue = s.queue ++ [x] → x.owner ≠ me

/-- What goes on around the submitter: the thread answers a request of its own or takes the
    next one from the list, the other requesters make a step, or a slice completes. -/
inductive Around (prefetchBlocks : Int) (blkbits fuel me : Nat) :
    System → System → Prop
  | thread {q : ThreadReq} {k : q.Ans → Prog ThreadSig Unit} {s t : Store}
      {x : q.Ans} {f : Flight} : threadStep blkbits q s x t →
      Around prefetchBlocks blkbits fuel me ⟨.ask (S := ThreadSig) q k, s, f⟩ ⟨k x, t, f⟩
  | take {s : Store} {x : Ticket} {rest : List Ticket} {f : Flight} :
      s.queue = x :: rest → Around prefetchBlocks blkbits fuel me ⟨.ret (), s, f⟩
        ⟨serveCio prefetchBlocks blkbits fuel x.cio, s.take x rest, f⟩
  | request {p : Prog ThreadSig Unit} {s t : Store} {f : Flight} :
      OthersRequest me s t →
      Around prefetchBlocks blkbits fuel me ⟨p, s, f⟩ ⟨p, t, f⟩
  | completion {p : Prog ThreadSig Unit} {s : Store} {f g : Flight} :
      Completes f g →
      Around prefetchBlocks blkbits fuel me ⟨p, s, f⟩ ⟨p, s, g⟩

/-- The blocks of the backing file that a bio's sectors are in. -/
def touchedBlocks (blkbits : Nat) (old : Bio) : List Nat :=
  (range old.nrSectors).map (fun t => (old.biSector + t) / 2 ^ (blkbits - 9))

/-- All of the blocks are durable. -/
def Durable (blks : List Nat) (s : Store) : Prop :=
  ∀ b ∈ blks, s.durable b = true

/-- A success comes after the slices, and after the blocks are durable. -/
def DurableEnd (blks : List Nat) (s : System) : Prop :=
  SuccessComplete s.flight ∧ (BioEvent.ended 0 ∈ s.flight.trace → Durable blks s.store)

/-- The submitter of a bio in the system. -/
def waitSetting (prefetchBlocks : Int) (blkbits fuel me : Nat)
    (blks : List Nat) : Setting WaitSig System where
  step := submitterStep me
  rely := Around prefetchBlocks blkbits fuel me
  inv := DurableEnd blks
  can _ := True

/-! ## A bio whose blocks are durable -/

/-- What only grows. -/
structure Grows (s t : Store) : Prop where
  map : ∀ b, (s.map b).isSome = true → (t.map b).isSome = true
  durable : ∀ b, s.durable b = true → t.durable b = true
  returned : ∀ x ∈ s.returned, x ∈ t.returned

theorem Grows.refl (s : Store) : Grows s s :=
  ⟨fun _ h => h, fun _ h => h, fun _ h => h⟩

variable {blkbits : Nat} {s t : Store} {prefetchBlocks : Int} {fuel me : Nat}

theorem threadStep_grows {q : ThreadReq}
    {x : q.Ans} (h : threadStep blkbits q s x t) : Grows s t := by
  cases q with
  | fsync =>
    rcases h with ⟨-, rfl⟩ | ⟨-, rfl⟩
    · exact .refl t
    · refine ⟨fun _ h => h, fun b hb => ?_, fun _ h => h⟩
      show (s.durable b || _) = true
      rw [hb, Bool.true_or]
  | getBlock b n create =>
    cases h with
    | error he => exact .refl _
    | hole _ _ => exact .refl _
    | extent _ _ hmono _ _ =>
      refine ⟨fun b hb => ?_, fun _ h => h, fun _ h => h⟩
      obtain ⟨p, hp⟩ := Option.isSome_iff_exists.mp hb
      exact Option.isSome_iff_exists.mpr ⟨p, hmono b p hp⟩
  | complete =>
    cases h
    exact ⟨fun _ h => h, fun _ h => h, fun _ h => mem_append_right _ h⟩
  | findCacheNode b =>
    obtain ⟨-, rfl⟩ := h
    exact .refl t
  | spin => exact h.elim
  | _ =>
    cases h
    exact ⟨fun _ h => h, fun _ h => h, fun _ h => h⟩

theorem requests_grows (h : Requests s t) : Grows s t := by
  cases h with
  | enqueue x => exact ⟨fun _ h => h, fun _ h => h, fun _ h => h⟩
  | lookup b _ =>
    exact ⟨fun _ h => h, fun _ h => h, fun _ h => .tail _ h⟩
  | skipFlush _ => exact .refl _

theorem looked_requests (s : Store) (b : Nat) : looked s b = s ∨ Requests s (looked s b) := by
  unfold looked
  split
  · exact .inl rfl
  · rename_i h
    exact .inr (.lookup b h)

theorem around_grows {s t : System} (h : Around prefetchBlocks blkbits fuel me s t) :
    Grows s.store t.store := by
  cases h with
  | thread hs => exact threadStep_grows hs
  | take _ => exact ⟨fun _ h => h, fun _ h => h, fun _ h => h⟩
  | request hr => exact requests_grows hr.1
  | completion _ => exact .refl _

theorem Durable.grows {blks : List Nat} (h : Durable blks s) (hg : Grows s t) : Durable blks t :=
  fun b hb => hg.durable b (h b hb)

section Lift

variable {prefetchBlocks : Int} {blkbits fuel me : Nat} {blks : List Nat}

/-- With the blocks durable, only the life of the bio is left to look at. -/
theorem durable_lifts : Setting.Lifts (bioSetting true)
    (waitSetting prefetchBlocks blkbits fuel me blks) System.flight
    (fun s => Durable blks s.store) where
  rely := by
    intro s t hd hr
    refine ⟨hd.grows (around_grows hr), ?_⟩
    cases hr with
    | thread _ => exact .inl rfl
    | take _ => exact .inl rfl
    | request _ => exact .inl rfl
    | completion hc => exact .inr hc
  inv hs hd := ⟨hs, fun _ => hd⟩

/-- A request that is answered at once is answered as `BioLife` has it. -/
theorem now_answers {q : LoopReq} {s t : System} {x : q.Ans}
    (hd : Durable blks s.store) (h : submitterStep me (.now q) s x t) :
    Durable blks t.store ∧ answers true q s.flight x t.flight := by
  cases q with
  | testDirty =>
    obtain ⟨-, rfl⟩ := h
    exact ⟨hd, rfl⟩
  | cacheLookup b =>
    obtain ⟨-, rfl⟩ := h
    refine ⟨?_, rfl⟩
    rcases looked_requests s.store b with he | hr
    · show Durable blks (looked s.store b)
      rw [he]
      exact hd
    · exact hd.grows (requests_grows hr)
  | _ =>
    obtain ⟨f, hf, rfl⟩ := h
    exact ⟨hd, hf⟩

theorem now_lift (q : LoopReq) (Q : q.Ans → Flight → Prop) :
    (waitSetting prefetchBlocks blkbits fuel me blks).Triple
      (fun s => (bioSetting true).Safe Q (perform (S := LoopSig) q) s.flight ∧ Durable blks s.store)
      (perform (S := WaitSig) (.now q))
      (fun x s => Q x s.flight ∧ Durable blks s.store) :=
  durable_lifts.answer (q := q) (r := .now q) trivial id (fun hd h => now_answers hd h) Q

theorem await_lift {q : LoopReq} (f : CioReply → q.Ans)
    (hf : ∀ s x, answers true q s (f x) s) (Q : q.Ans → Flight → Prop) :
    (waitSetting prefetchBlocks blkbits fuel me blks).Triple
      (fun s => (bioSetting true).Safe Q (perform (S := LoopSig) q) s.flight ∧ Durable blks s.store)
      (await >>= fun x => .ret (f x))
      (fun x s => Q x s.flight ∧ Durable blks s.store) := by
  refine durable_lifts.answer (q := q) (r := .await) trivial f ?_ Q
  rintro s x t hd ⟨-, rfl⟩
  exact ⟨hd, hf _ x⟩

theorem post_lift {α : Type} (cio : CioReq) (Q : α → Flight → Prop) (p : Prog LoopSig α) :
    (waitSetting prefetchBlocks blkbits fuel me blks).Triple
      (fun s => (bioSetting true).Safe Q p s.flight ∧ Durable blks s.store)
      (post cio)
      (fun _ s => (bioSetting true).Safe Q p s.flight ∧ Durable blks s.store) := by
  refine durable_lifts.stutter (q := .post cio) trivial ?_ Q p
  rintro s x t hd rfl
  exact ⟨hd.grows (requests_grows (.enqueue _)), rfl⟩

/-- The waits of the submitter are the requests of `BioLife`. -/
theorem waits_lift (q : LoopReq) (Q : q.Ans → Flight → Prop) :
    (waitSetting prefetchBlocks blkbits fuel me blks).Triple
      (fun s => (bioSetting true).Safe Q (perform (S := LoopSig) q) s.flight ∧ Durable blks s.store)
      (waits prefetchBlocks q)
      (fun x s => Q x s.flight ∧ Durable blks s.store) := by
  cases q with
  | flush rw =>
    exact (post_lift _ Q _).bind fun _ => await_lift (q := .flush rw)
      CioReply.error (fun s x => ⟨rfl, .inl rfl⟩) Q
  | cioRequest b rw =>
    exact (post_lift _ Q _).bind fun _ => await_lift (q := .cioRequest b rw) id (fun s x => rfl) Q
  | _ => exact now_lift _ Q

/-- What `BioLife` says of a program holds in the system. -/
theorem lift_triple {α : Type} {P : Flight → Prop} {Q : α → Flight → Prop}
    {p : Prog LoopSig α} (hp : (bioSetting true).Triple P p Q) :
    (waitSetting prefetchBlocks blkbits fuel me blks).Triple
      (fun s => P s.flight ∧ Durable blks s.store)
      (waiting prefetchBlocks p)
      (fun a s => Q a s.flight ∧ Durable blks s.store) :=
  durable_lifts.expand (fun q _ Q => waits_lift q Q) hp

end Lift

/-! ## The life of a `REQ_FUA` bio

When its fsync fails, such a bio is ended a second time; but with an error. -/

/-- No slice is left to submit, and a success has been the last of them. -/
structure Settled (s : Flight) : Prop where
  count : s.inFlight + s.nrDone = s.nrTotal
  last : BioEvent.ended 0 ∈ s.trace → s.inFlight = 0
  apart : s.inFlight = 0 ∨ s.forwarded = 0

theorem settled_of_done {s : Flight} (h : Done s) : Settled s := by
  have hstable : (bioSetting true).Stable Done := done_stable
  refine ⟨?_, fun he => (hstable.inv h he).1, ?_⟩
  · rcases h with ⟨n, h⟩ | h
    · exact h.count.trans h.total.symm
    · rw [h.inFlight, h.noneLeft, zero_add]
  · rcases h with ⟨n, h⟩ | h
    · exact .inr h.noEmpty
    · exact .inl h.inFlight

theorem settled_stable : (bioSetting true).Stable Settled where
  keep := by
    rintro s t ⟨hcount, hlast, hapart⟩ hr
    cases hr with
    | slice e hpos =>
      obtain ⟨h1, h2, h3, h4⟩ := loEndBio_counts e s
      refine ⟨by omega, fun he => ?_, by omega⟩
      by_cases hend : s.nrTotal = s.nrDone + 1
      · omega
      · rw [loEndBio, if_neg hend] at he
        have := hlast he
        omega
    | empty e hpos =>
      have h0 : s.inFlight = 0 := by omega
      exact ⟨hcount, fun _ => h0, .inl h0⟩
  inv {s} h he := by
    have h0 := h.last he
    have := h.count
    exact ⟨h0, by omega⟩

theorem fuaFlush_settled (rw : ReqFlags) :
    (bioSetting true).Triple Done (fuaFlush rw) (fun _ => Settled) := by
  rw [fuaFlush]
  by_cases hfua : rw.fua = true
  · rw [if_pos hfua]
    refine (flushIfDirty_keeps done_stable rw).bind fun e => .given fun _ => ?_
    by_cases he : e ≠ 0
    · rw [if_pos he]
      refine .perform done_stable (fun _ => settled_stable)
        ⟨fun h => (by cases h), fun h => (by cases h)⟩ ?_
      rintro s - t hs rfl
      obtain ⟨hcount, hlast, hapart⟩ := settled_of_done hs
      refine ⟨hcount, fun h0 => hlast ?_, hapart⟩
      refine (mem_append.mp h0).resolve_right fun h1 => he ?_
      exact (BioEvent.ended.inj (mem_singleton.mp h1)).symm
    · rw [if_neg he]
      exact .ret done_stable fun s hs => settled_of_done hs
  · rw [if_neg hfua]
    exact .ret done_stable fun s hs => settled_of_done hs

variable {old : Bio}

theorem redirectData_settled (hw : old.Whole) (bd blkbits : Nat) :
    (bioSetting true).Triple Live (redirectData bd blkbits old) (fun _ => Settled) := by
  refine (buildSlices_live hw bd blkbits).bind fun built => ?_
  cases built with
  | none => exact .ret handed_stable fun s hs => settled_of_done (.inr hs)
  | some slices =>
    refine .given fun _ => touch_live.bind fun _ => ?_
    exact (sendSlices_live slices).bind fun _ => fuaFlush_settled old.biRw

theorem redirectBio_settled (hw : old.Whole) (bd blkbits : Nat) (hbd : old.biBdev ≠ none) :
    (bioSetting true).Triple Live (redirectBio bd blkbits old) (fun _ => Settled) := by
  refine (loopHandleBio_live hbd).bind fun _ => touch_live.bind fun _ => ?_
  by_cases hempty : old.nrSectors = 0 ∧ (old.biRw.flush = true ∨ old.biRw.fua = true)
  · rw [if_pos hempty]
    exact emptyFlush_live.post fun _ _ hs => settled_of_done hs
  · rw [if_neg hempty]
    refine preFlush_live.bind fun ok => ?_
    cases ok with
    | false => exact .ret handed_stable fun s hs => settled_of_done (.inr hs)
    | true => exact redirectData_settled hw bd blkbits

/-! ## The flush before the data -/

/-- While the submitter waits for a flush: an answer without an error comes
    after an fsync, which is after the blocks were mapped. -/
structure FlushInv (me : Nat) (blks : List Nat) (s : Store) : Prop where
  mapped : ∀ b ∈ blks, s.durable b = true ∨ (s.map b).isSome = true
  answered : ∀ p, s.answered me = some (0, p) → Durable blks s
  flushes : ∀ x ∈ s.queue, x.owner = me → x.cio.blkNum = -1

/-- The thread, while `me` waits for a flush. -/
def flushSetting (blkbits me : Nat) (blks : List Nat) : Setting ThreadSig Store where
  step := threadStep blkbits
  rely := OthersRequest me
  inv := FlushInv me blks
  can _ := True

section Flush

variable {blkbits me : Nat} {blks : List Nat}

variable {s t : Store}

theorem OthersRequest.frame (h : OthersRequest me s t) :
    t.answered me = s.answered me ∧ ∀ x ∈ t.queue, x.owner = me → x ∈ s.queue := by
  obtain ⟨hr, hown⟩ := h
  cases hr with
  | enqueue x =>
    have hx : x.owner ≠ me := hown x rfl
    refine ⟨update_of_ne (Ne.symm hx) _ _, fun y hy hme => ?_⟩
    refine (mem_append.mp hy).resolve_right fun h1 => hx ?_
    rw [← mem_singleton.mp h1]
    exact hme
  | lookup b _ => exact ⟨rfl, fun _ hx _ => hx⟩
  | skipFlush _ => exact ⟨rfl, fun _ hx _ => hx⟩

theorem FlushInv.request (h : FlushInv me blks s)
    (hr : OthersRequest me s t) : FlushInv me blks t := by
  obtain ⟨hans, hqueue⟩ := hr.frame
  have hg := requests_grows hr.1
  refine ⟨fun b hb => (h.mapped b hb).imp (hg.durable b) (hg.map b),
    fun p hp => ?_, fun x hx hme => ?_⟩
  · rw [hans] at hp
    exact (h.answered p hp).grows hg
  · exact h.flushes x (hqueue x hx hme) hme

theorem flushInv_stable : (flushSetting blkbits me blks).Stable
    (FlushInv me blks) := ⟨FlushInv.request, id⟩

/-- A fact that the other requesters do not touch. -/
theorem flushInv_stable_and {F : Store → Prop} (hF : ∀ {s t}, F s → Requests s t → F t) :
    (flushSetting blkbits me blks).Stable (fun s => FlushInv me blks s ∧ F s) :=
  ⟨fun h hr => ⟨h.1.request hr, hF h.2 hr.1⟩, fun h => h.1⟩

variable (me) in
/-- The thread does not answer a request that it does not serve. -/
theorem threadStep_answered {q : ThreadReq} {x : q.Ans} (h : threadStep blkbits q s x t) :
    t.queue = s.queue ∧ t.cur = s.cur ∧ (t.answered me = s.answered me ∨ q = .complete) := by
  cases q with
  | fsync => rcases h with ⟨-, rfl⟩ | ⟨-, rfl⟩ <;> exact ⟨rfl, rfl, .inl rfl⟩
  | getBlock b n create => cases h <;> exact ⟨rfl, rfl, .inl rfl⟩
  | complete =>
    cases h
    exact ⟨rfl, rfl, .inr rfl⟩
  | findCacheNode b =>
    obtain ⟨-, rfl⟩ := h
    exact ⟨rfl, rfl, .inl rfl⟩
  | spin => exact h.elim
  | _ =>
    cases h
    exact ⟨rfl, rfl, .inl rfl⟩

theorem FlushInv.grows (h : FlushInv me blks s) (hg : Grows s t) (hqueue : t.queue = s.queue)
    (hans : t.answered me = s.answered me) : FlushInv me blks t := by
  refine ⟨fun b hb => (h.mapped b hb).imp (hg.durable b) (hg.map b), fun p hp => ?_, ?_⟩
  · rw [hans] at hp
    exact (h.answered p hp).grows hg
  · rw [hqueue]
    exact h.flushes

/-- A request of somebody else is served. -/
theorem others_served (p : Prog ThreadSig Unit) :
    (flushSetting blkbits me blks).Triple (fun s => FlushInv me blks s ∧ s.cur.owner ≠ me) p
      (fun _ s => FlushInv me blks s ∧ s.cur.owner ≠ me) := by
  refine .of_steps (flushInv_stable_and fun h hr => ?_) (fun _ => trivial) ?_ p
  · rw [(requests_frame hr).2.1]
    exact h
  · rintro q s x t ⟨h, hne⟩ hs
    obtain ⟨hqueue, hcur, hans⟩ := threadStep_answered me hs
    refine ⟨h.grows (threadStep_grows hs) hqueue ?_, by rw [hcur]; exact hne⟩
    rcases hans with hans | rfl
    · exact hans
    · obtain rfl : t = s.complete := hs
      exact update_of_ne (Ne.symm hne) _ _

/-- The fsync has been made. -/
theorem vfsFsync_durable : (flushSetting blkbits me blks).Triple (FlushInv me blks) vfsFsync
    (fun r s => FlushInv me blks s ∧ (r = 0 → Durable blks s)) := by
  refine .perform flushInv_stable (fun r => flushInv_stable_and
    fun h hr h0 => (h h0).grows (requests_grows hr)) trivial ?_
  intro s (r : Int) t h (hs : threadStep blkbits .fsync s r t)
  refine ⟨h.grows (threadStep_grows hs) ?_ ?_, fun h0 b hb => ?_⟩
  · exact (threadStep_answered me hs).1
  · exact (threadStep_answered me hs).2.2.resolve_right nofun
  · rcases hs with ⟨hr, -⟩ | ⟨-, rfl⟩
    · exact absurd h0 hr
    · show (s.durable b || (s.map b).isSome) = true
      exact (Bool.or_eq_true _ _).mpr (h.mapped b hb)

/-- A flush, whoever has asked for it. -/
theorem serveFlush_flushInv : (flushSetting blkbits me blks).Triple
    (FlushInv me blks) serveFlush (fun _ => FlushInv me blks) := by
  have hst : (flushSetting blkbits me blks).Stable (fun s =>
      FlushInv me blks s ∧ (s.error = 0 → Durable blks s)) :=
    flushInv_stable_and fun h hr h0 => by
      rw [(requests_frame hr).2.2.2.2.1] at h0
      exact (h h0).grows (requests_grows hr)
  refine vfsFsync_durable.bind fun r => .bind (.perform (flushInv_stable_and
    fun h hr h0 => (h h0).grows (requests_grows hr)) (fun _ => hst) trivial ?_)
    fun _ => .bind (R := fun _ s => FlushInv me blks s
      ∧ (s.error = 0 → Durable blks s)) ?_ fun _ => .perform hst
    (fun _ => flushInv_stable) trivial ?_
  · rintro s - t ⟨h, h0⟩ rfl
    exact ⟨⟨h.mapped, h.answered, h.flushes⟩, h0⟩
  · by_cases h0 : r = 0
    · rw [onlyIf_pos h0]
      refine .perform hst (fun _ => hst) trivial ?_
      rintro s - t ⟨h, hdur⟩ rfl
      exact ⟨⟨h.mapped, h.answered, h.flushes⟩, hdur⟩
    · rw [onlyIf_neg h0]
      exact .ret hst fun _ h => h
  · rintro s - t ⟨h, hdur⟩ rfl
    refine ⟨h.mapped, fun p hp => ?_, h.flushes⟩
    by_cases hme : s.cur.owner = me
    · have hp' : update s.answered s.cur.owner (some (s.error, s.blkPhy)) me = some (0, p) := hp
      rw [hme, update_self] at hp'
      exact hdur (answer_inj hp').1
    · have hp' : update s.answered s.cur.owner (some (s.error, s.blkPhy)) me = some (0, p) := hp
      rw [update_of_ne (Ne.symm hme)] at hp'
      exact h.answered p hp'

/-- The next request is taken: a flush, or a request of somebody else. -/
theorem take_flushInv {x : Ticket} {rest : List Ticket} (h : FlushInv me blks s)
    (hq : s.queue = x :: rest) (prefetchBlocks : Int) (fuel : Nat) :
    (flushSetting blkbits me blks).Safe (fun _ => FlushInv me blks)
      (serveCio prefetchBlocks blkbits fuel x.cio) (s.take x rest) := by
  have htake : FlushInv me blks (s.take x rest) :=
    ⟨h.mapped, h.answered, fun y hy => h.flushes y (by rw [hq]; exact mem_cons_of_mem x hy)⟩
  by_cases hflush : x.cio.blkNum = -1
  · rw [serveCio, if_pos hflush]
    exact serveFlush_flushInv _ htake
  · have hne : x.owner ≠ me := fun hme => hflush (h.flushes x (by rw [hq]; exact .head _) hme)
    exact Setting.Safe.mono _ (others_served _ _ ⟨htake, hne⟩) fun _ _ h => h.1

end Flush

/-! ## The submitter -/

/-- A `REQ_FUA` bio has come: the blocks it touches are durable or have been
    handed out, and nothing of its submitter is on the list. -/
structure Arrived (blkbits me : Nat) (blks : List Nat) (s : System) :
    Prop where
  live : Live s.flight
  sound : Sound blkbits (s.thread, s.store)
  known : ∀ b ∈ blks, s.store.durable b = true ∨ ∃ p, p ≠ 0 ∧ (b, p) ∈ s.store.returned
  serving : s.store.cur.owner ≠ me
  queued : ∀ x ∈ s.store.queue, x.owner ≠ me

/-- The submitter waits for its flush. -/
structure Flushing (blkbits me : Nat) (blks : List Nat) (s : System) :
    Prop where
  live : Live s.flight
  safe : (flushSetting blkbits me blks).Safe (fun _ => FlushInv me blks) s.thread s.store

/-- The flush has failed, and the bio has been ended for it. -/
structure Failed (s : Flight) : Prop where
  inFlight : s.inFlight = 0
  noEmpty : s.forwarded = 0
  unsuccessful : BioEvent.ended 0 ∉ s.trace

section Submit

variable {prefetchBlocks : Int} {blkbits fuel me : Nat} {blks : List Nat}

variable {s : System}

theorem around_sound {t : System} (h : Around prefetchBlocks blkbits fuel me s t)
    (hs : Sound blkbits (s.thread, s.store)) :
    Sound blkbits (t.thread, t.store) := by
  cases h with
  | thread hstep => exact Setting.Safe.move _ hs (.ask hstep)
  | take hq =>
    exact hs.move (show ThreadMove prefetchBlocks blkbits fuel _ _ from
      .take hq)
  | request hr => exact Setting.Safe.others _ hs hr.1
  | completion _ => exact hs

theorem live_around {t : System}
    (h : Around prefetchBlocks blkbits fuel me s t) (hs : Live s.flight) :
    Live t.flight := by
  have hst : (bioSetting true).Stable Live := live_stable
  cases h with
  | thread _ => exact hs
  | take _ => exact hs
  | request _ => exact hs
  | completion hc => exact hst.keep hs hc

theorem Live.durableEnd (h : Live s.flight) : DurableEnd blks s :=
  ⟨fun he => absurd he (h.reads.not_ended 0), fun he => absurd he (h.reads.not_ended 0)⟩

theorem arrived_stable :
    (waitSetting prefetchBlocks blkbits fuel me blks).Stable (Arrived blkbits me blks) where
  keep := by
    intro s t h hr
    have hg := around_grows hr
    refine ⟨live_around hr h.live, around_sound hr h.sound, fun b hb => ?_, ?_, ?_⟩
    · rcases h.known b hb with hd | ⟨p, hp, hmem⟩
      · exact .inl (hg.durable b hd)
      · exact .inr ⟨p, hp, hg.returned _ hmem⟩
    · cases hr with
      | thread hstep =>
        rw [(threadStep_answered me hstep).2.1]
        exact h.serving
      | take hq => exact h.queued _ (by rw [hq]; exact .head _)
      | request hreq =>
        rw [(requests_frame hreq.1).2.1]
        exact h.serving
      | completion _ => exact h.serving
    · cases hr with
      | thread hstep =>
        rw [(threadStep_answered me hstep).1]
        exact h.queued
      | take hq =>
        exact fun y hy => h.queued y (by rw [hq]; exact .tail _ hy)
      | request hreq =>
        exact fun y hy hme => h.queued y (hreq.frame.2 y hy hme) hme
      | completion _ => exact h.queued
  inv h := Live.durableEnd h.live

theorem flushing_stable :
    (waitSetting prefetchBlocks blkbits fuel me blks).Stable (Flushing blkbits me blks) where
  keep := by
    intro s t h hr
    refine ⟨live_around hr h.live, ?_⟩
    have hsafe := h.safe
    cases hr with
    | thread hstep => exact Setting.Safe.move _ hsafe (.ask hstep)
    | take hq => exact take_flushInv (hsafe _ .refl).2 hq prefetchBlocks fuel
    | request hreq => exact Setting.Safe.others _ hsafe hreq
    | completion _ => exact hsafe
  inv h := Live.durableEnd h.live

theorem failed_stable :
    (waitSetting prefetchBlocks blkbits fuel me blks).Stable (fun s => Failed s.flight) where
  keep := by
    rintro s t h hr
    cases hr with
    | thread _ => exact h
    | take _ => exact h
    | request _ => exact h
    | completion hc =>
      cases hc with
      | slice e hpos => exact absurd h.inFlight hpos.ne'
      | empty e hpos => exact absurd h.noEmpty hpos.ne'
  inv h := ⟨fun he => absurd he h.unsuccessful, fun he => absurd he h.unsuccessful⟩

theorem Arrived.known_kept (h : Arrived blkbits me blks s)
    {b : Nat} (hb : b ∈ blks) : s.store.durable b = true
      ∨ (s.store.map b).isSome = true ∧ s.store.dirty = true := by
  have hkept : Kept s.store := Setting.Safe.inv _ h.sound
  rcases h.known b hb with hd | ⟨p, hp, hmem⟩
  · exact .inl hd
  · obtain ⟨hmap, hdur⟩ := hkept.returned _ hmem hp
    cases hdirty : s.store.dirty with
    | false => exact .inl (hdur hdirty)
    | true => exact .inr ⟨Option.isSome_iff_exists.mpr ⟨p, hmap⟩, rfl⟩

theorem touch_arrived : (waitSetting prefetchBlocks blkbits fuel me blks).Triple
      (Arrived blkbits me blks) (waiting prefetchBlocks touch)
      (fun _ => Arrived blkbits me blks) := by
  refine .bind (.perform arrived_stable (fun _ => arrived_stable) trivial ?_)
    fun _ => .ret arrived_stable fun _ h => h
  rintro s - t h ⟨f, rfl, rfl⟩
  exact ⟨⟨h.live.inFlight, h.live.nrDone, h.live.nrTotal, h.live.noEmpty,
    h.live.reads.log⟩, h.sound, h.known, h.serving, h.queued⟩

/-- A clear bit: what has been handed out is durable. -/
theorem testDirty_arrived : (waitSetting prefetchBlocks blkbits fuel me blks).Triple
      (Arrived blkbits me blks) (perform (S := WaitSig) (.now .testDirty))
      (fun d s => Arrived blkbits me blks s ∧ (d = false → Durable blks s.store)) := by
  refine .perform arrived_stable (fun d => ⟨fun h hr => ?_, fun h => ?_⟩) trivial ?_
  · exact ⟨arrived_stable.keep h.1 hr, fun h0 => (h.2 h0).grows (around_grows hr)⟩
  · exact Live.durableEnd h.1.live
  · rintro s d t h ⟨rfl, rfl⟩
    refine ⟨h, fun h0 b hb => ?_⟩
    rcases h.known_kept hb with hd | ⟨-, hdirty⟩
    · exact hd
    · cases h0.symm.trans hdirty

theorem post_flushing (rw : ReqFlags) : (waitSetting prefetchBlocks blkbits fuel me blks).Triple
      (Arrived blkbits me blks) (post (flushCio 0 rw))
      (fun _ => Flushing blkbits me blks) := by
  refine .perform arrived_stable (fun _ => flushing_stable) trivial ?_
  rintro s - t h rfl
  refine ⟨h.live, Setting.Safe.mono _ (others_served s.thread _
    ⟨⟨fun b hb => ?_, fun p hp => ?_, fun x hx hme => ?_⟩, h.serving⟩)
    fun _ _ h => h.1⟩
  · exact (h.known_kept hb).imp id And.left
  · have hp' : update s.store.answered me none me = some (0, p) := hp
    rw [update_self] at hp'
    cases hp'
  · rcases mem_append.mp hx with hx | hx
    · exact absurd hme (h.queued x hx)
    · rw [mem_singleton.mp hx]
      rfl

/-- The bio is still the driver's, and under a condition its blocks are durable. -/
theorem live_durable_stable (φ : Prop) : (waitSetting prefetchBlocks blkbits fuel me blks).Stable
      (fun s => Live s.flight ∧ (φ → Durable blks s.store)) where
  keep h hr := ⟨live_around hr h.1, fun hφ => (h.2 hφ).grows (around_grows hr)⟩
  inv h := Live.durableEnd h.1

theorem await_flushing :
    (waitSetting prefetchBlocks blkbits fuel me blks).Triple (Flushing blkbits me blks) await
      (fun r s => Live s.flight ∧ (r.error = 0 → Durable blks s.store)) := by
  refine .perform flushing_stable (fun r => live_durable_stable _) trivial ?_
  rintro s r t h ⟨⟨e, p, hans, rfl⟩, rfl⟩
  refine ⟨h.live, fun h0 => ?_⟩
  obtain rfl : e = 0 := h0
  exact (Setting.Safe.inv _ h.safe).answered p hans

/-- The flush before the data, made or skipped, leaves the blocks durable. -/
theorem flushIfDirty_durable (rw : ReqFlags) :
    (waitSetting prefetchBlocks blkbits fuel me blks).Triple (Arrived blkbits me blks)
      (waiting prefetchBlocks (flushIfDirty rw))
      (fun e s => Live s.flight ∧ (e = 0 → Durable blks s.store)) := by
  refine testDirty_arrived.bind fun (d : Bool) => ?_
  cases d with
  | true =>
    refine .pre ?_ fun s h => h.1
    exact (post_flushing rw).bind fun _ => await_flushing.bind fun r =>
      .ret (live_durable_stable _) fun _ h => h
  | false =>
    exact Setting.Triple.pre (.ret (live_durable_stable True)
      fun _ h => ⟨h.1, fun _ => h.2 trivial⟩)
      fun s h => ⟨h.1.live, fun _ => h.2 rfl⟩

theorem bioEndio_failed {e : Int} (he : e ≠ 0) :
    (waitSetting prefetchBlocks blkbits fuel me blks).Triple
      (fun s => Live s.flight ∧ (False → Durable blks s.store))
      (waiting prefetchBlocks (bioEndio e))
      (fun _ s => Failed s.flight) := by
  refine .bind (.perform (live_durable_stable _) (fun _ => failed_stable)
    trivial ?_) fun _ => .ret failed_stable fun _ h => h
  rintro s - t ⟨h, -⟩ ⟨f, rfl, rfl⟩
  refine ⟨h.inFlight, h.noEmpty, fun h0 => ?_⟩
  rcases mem_append.mp h0 with h1 | h1
  · exact h.reads.not_ended 0 h1
  · exact he (BioEvent.ended.inj (mem_singleton.mp h1)).symm

theorem preFlush_durable {old : Bio} (hfl : old.biRw.flush = true) :
    (waitSetting prefetchBlocks blkbits fuel me blks).Triple
      (Arrived blkbits me blks) (waiting prefetchBlocks (preFlush old))
      (fun ok s => if ok = true then Live s.flight ∧ Durable blks s.store
        else Failed s.flight) := by
  rw [preFlush, waiting_bind]
  refine touch_arrived.bind fun _ => ?_
  rw [if_pos hfl, waiting_bind]
  refine (flushIfDirty_durable old.biRw).bind fun e => ?_
  by_cases he : e ≠ 0
  · rw [if_pos he, waiting_bind]
    refine .bind (.pre (bioEndio_failed (e := eio) (by decide))
      fun s h => ⟨h.1, False.elim⟩) fun _ => .ret failed_stable fun _ h => ?_
    exact h
  · rw [if_neg he]
    refine .ret (live_durable_stable _) fun s h => ?_
    exact ⟨h.1, h.2 (not_not.mp he)⟩

end Submit

/-- In every interleaving, the bio is ended with success only after its slices
    have completed, and after the blocks that it touches are durable. -/
def FuaDurable (prefetchBlocks : Int) (blkbits fuel me bd : Nat) (old : Bio) (s : System) : Prop :=
  ∀ c, (waitSetting prefetchBlocks blkbits fuel me (touchedBlocks blkbits old)).Reach
    (waiting prefetchBlocks (redirectBio bd blkbits old), s) c →
    DurableEnd (touchedBlocks blkbits old) c.2

theorem fuaDurable_of_triple {bd : Nat}
    {P : System → Prop} {Q : Unit → System → Prop}
    (h : (waitSetting prefetchBlocks blkbits fuel me (touchedBlocks blkbits old)).Triple P
      (waiting prefetchBlocks (redirectBio bd blkbits old)) Q)
    {s : System} (hs : P s) :
    FuaDurable prefetchBlocks blkbits fuel me bd old s :=
  fun _ hr => Setting.Safe.inv _ (Setting.Safe.reach _ (h s hs) hr)

/-- A bio with a flush, on blocks that are durable or have been handed out. -/
theorem redirectBio_arrived (hw : old.Whole) (hbd : old.biBdev ≠ none) (hfl : old.biRw.flush = true)
    (hn : old.nrSectors ≠ 0) (bd : Nat) :
    (waitSetting prefetchBlocks blkbits fuel me (touchedBlocks blkbits old)).Triple
      (Arrived blkbits me (touchedBlocks blkbits old))
      (waiting prefetchBlocks (redirectBio bd blkbits old))
      (fun _ _ => True) := by
  have hempty : ¬ (old.nrSectors = 0
      ∧ (old.biRw.flush = true ∨ old.biRw.fua = true)) := fun h => hn h.1
  rw [redirectBio, waiting_bind, loopHandleBio, if_neg hbd, waiting_bind]
  refine .bind (R := fun _ => Arrived blkbits me (touchedBlocks blkbits old))
    (touch_arrived.bind fun _ => .ret arrived_stable fun _ h => h) fun _ => ?_
  rw [waiting_bind, if_neg hempty, waiting_bind]
  refine touch_arrived.bind fun _ => (preFlush_durable hfl).bind fun ok => ?_
  cases ok with
  | false => exact .ret failed_stable fun _ _ => trivial
  | true =>
    exact (lift_triple (redirectData_settled hw bd blkbits)).post fun _ _ _ => trivial

/-- What the bio depends on is durable at its end if it was so when the bio
    came, or if it had been handed out and the bio carries a `REQ_FLUSH`. -/
theorem fuaDurable_of_known {prefetchBlocks : Int} {blkbits fuel me : Nat}
    {m : Nat → Option Nat} {p : Prog ThreadSig Unit} {s : Store}
    (hreach : ReflTransGen (ThreadMove prefetchBlocks blkbits fuel)
      (.ret (), startStore m) (p, s))
    (hserving : s.cur.owner ≠ me) (hqueued : ∀ x ∈ s.queue, x.owner ≠ me)
    {old : Bio} (hw : old.Whole) (hbd : old.biBdev ≠ none) (bd : Nat)
    (hknown : ∀ b ∈ touchedBlocks blkbits old, s.durable b = true
      ∨ old.biRw.flush = true ∧ ∃ n, n ≠ 0 ∧ (b, n) ∈ s.returned) :
    FuaDurable prefetchBlocks blkbits fuel me bd old ⟨p, s, .start⟩ := by
  by_cases hd : Durable (touchedBlocks blkbits old) s
  · exact fuaDurable_of_triple (lift_triple (redirectBio_settled hw bd blkbits hbd))
      ⟨start_live, hd⟩
  · obtain ⟨b, hb, hnd⟩ : ∃ b ∈ touchedBlocks blkbits old, s.durable b ≠ true := by
      by_contra hall
      exact hd fun b hb => by_contra fun h => hall ⟨b, hb, h⟩
    have hfl := ((hknown b hb).resolve_left hnd).1
    have hn : old.nrSectors ≠ 0 := by
      intro h0
      rw [touchedBlocks, h0] at hb
      exact nomatch hb
    refine fuaDurable_of_triple (redirectBio_arrived hw hbd hfl hn bd)
      ⟨start_live, (sound_start blkbits m).run hreach, fun b hb => ?_, hserving, hqueued⟩
    exact (hknown b hb).imp id And.right

/-- A page that is written over a block of the file. -/
theorem fuaPage_mapped_fuaDurable : FuaDurable 1 12 1 1 0 fuaPage
    ⟨.ret (), startStore fun b => if b = 0 then some 5 else none, .start⟩ := by
  refine fuaDurable_of_known .refl (by decide) nofun fuaPage_whole nofun 0 ?_
  intro b hb
  have hb0 : ∀ b ∈ touchedBlocks 12 fuaPage, b = 0 := by decide
  rw [hb0 b hb]
  exact Or.inl rfl

/-! ## A bio that is ended too early -/

section Early

variable {prefetchBlocks : Int} {blkbits fuel me : Nat} {blks : List Nat}
  {φ : Prog WaitSig Unit × System → Prop}

/-- A request of the submitter is answered. -/
theorem after_answer (q : WaitReq) (x : q.Ans) {s : System} (t : System)
    {k : q.Ans → Prog WaitSig Unit} (hstep : submitterStep me q s x t)
    (h : ∃ d, (waitSetting prefetchBlocks blkbits fuel me blks).Reach (k x, t) d ∧ φ d) :
    ∃ d, (waitSetting prefetchBlocks blkbits fuel me blks).Reach
      (.ask (S := WaitSig) q k, s) d ∧ φ d :=
  after_step (.ask hstep) h

/-- The submitter reads a field of its bio. -/
theorem after_touch {s : System} {k : Unit → Prog WaitSig Unit}
    (h : ∃ d, (waitSetting prefetchBlocks blkbits fuel me blks).Reach
      (k (), { s with flight := s.flight.log .read }) d ∧ φ d) :
    ∃ d, (waitSetting prefetchBlocks blkbits fuel me blks).Reach
      (.ask (S := WaitSig) (.now .touch) k, s) d ∧ φ d :=
  after_answer (.now .touch) () _ ⟨_, rfl, rfl⟩ h

/-- The thread makes a step. -/
theorem after_thread {c : Prog WaitSig Unit} (q : ThreadReq) (x : q.Ans) {s : Store} (t : Store)
    {k : q.Ans → Prog ThreadSig Unit} {f : Flight} (hstep : threadStep blkbits q s x t)
    (h : ∃ d, (waitSetting prefetchBlocks blkbits fuel me blks).Reach (c, ⟨k x, t, f⟩) d ∧ φ d) :
    ∃ d, (waitSetting prefetchBlocks blkbits fuel me blks).Reach
      (c, ⟨.ask (S := ThreadSig) q k, s, f⟩) d ∧ φ d :=
  after_step (.others (.thread hstep)) h

end Early

/-- A page is written with `REQ_FUA` to a block that has to be allocated.  Its slice
    completes, and ends the bio with success, before anybody has asked for an fsync. -/
theorem ended_before_fsync (blks : List Nat) :
    ∃ c, (waitSetting 1 12 1 1 blks).Reach (waiting 1 (redirectBio 0 12 fuaPage),
        ⟨.ret (), startStore fun _ => none, .start⟩) c
    ∧ BioEvent.ended 0 ∈ c.2.flight.trace ∧ c.2.store.durable 0 = false := by
  refine after_touch <| after_touch <| after_touch ?_
  refine after_answer (.now (.cacheLookup 0)) (0 : Nat) _ ⟨rfl, rfl⟩ ?_
  refine after_touch ?_
  refine after_answer (.post (translationCio 1 0 fuaPage.biRw)) () _ rfl ?_
  -- the thread allocates block 5 and answers
  refine after_step (.others (.take rfl)) ?_
  refine after_thread (.findCacheNode 0) (none : Option Nat) _ ⟨rfl, rfl⟩ ?_
  refine after_thread (.getBlock 0 4096 true) (⟨0, 5, 4096⟩ : BhResult) _
    (.extent (p := 5) (l := 1) (m := fun b => if b = 0 then some 5 else none)
      (by decide) le_rfl nofun nofun
      (by decide)) ?_
  refine after_thread .setDirty () _ rfl ?_
  refine after_thread (.storeError 0) () _ rfl ?_
  refine after_thread (.storePhys 5) () _ rfl ?_
  refine after_thread .complete () _ rfl ?_
  refine after_answer .await (⟨0, 5⟩ : CioReply) _ ⟨⟨0, some 5, rfl, rfl⟩, rfl⟩ ?_
  refine after_touch ?_
  refine after_answer (.now (.bioAlloc 1)) true _ ⟨_, rfl, rfl⟩ ?_
  refine after_touch ?_
  refine after_answer (.now (.addPage _ 0 4096 0))
    ((4096, bioStore _ 0 4096 0) : Nat × Bio) _ ⟨_, ⟨rfl, .inl rfl⟩, rfl⟩ ?_
  refine after_touch <| after_touch ?_
  refine after_answer (.now (.submit _ 1)) () _ ⟨_, rfl, rfl⟩ ?_
  refine after_step (.others (.completion (.slice 0 Nat.one_pos))) ?_
  refine ⟨_, .refl, ?_, rfl⟩
  decide

theorem fuaPage_not_fuaDurable : ¬ FuaDurable 1 12 1 1 0 fuaPage
    ⟨.ret (), startStore fun _ => none, .start⟩ := by
  intro h
  obtain ⟨c, hr, hended, hnd⟩ := ended_before_fsync (touchedBlocks 12 fuaPage)
  have hd := (h c hr).2 hended 0 (by decide)
  exact nomatch hnd.symm.trans hd

end ForcedUnit
