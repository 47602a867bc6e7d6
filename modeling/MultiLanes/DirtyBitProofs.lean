import MultiLanes.RelyProofs
import MultiLanes.LoopDeviceProofs

/-! # `LOOP_DIRTY` — a clear bit loses nothing

The thread allocates blocks of the backing file, sets `LOOP_DIRTY`, hands the numbers
out, and clears the bit when an fsync has made the allocations durable; a requester with
a flush tests the bit without a lock and saves itself the fsync when it is clear.  Here
the thread runs `serveCio` request by request, among any number of requesters that queue
requests and look blocks up (`Requests`), and whatever they do, a number that a
requester has been given is durable when the bit is clear (`clear_bit_loses_nothing`).

Between `get_block` and `set_bit` the bit may be clear with an allocation that is not
durable, so the invariant is not about the file map: it is about the numbers that are
KNOWN, returned or in the cache (`Kept`).  The thread knows more at the points where it
has no such allocation (`Clean`). -/

namespace DirtyBit

open InteractProg Relation LoopBio LoopThread LoopCache Option

/-- A `cio_req` in the list, and the requester that waits for it. -/
structure Ticket where
  owner : Nat
  cio : CioReq

/-- What the thread and the requesters share.  `cur` is the request that is
    being served, with its fields `error` and `blk_phy` (`none` before it is
    stored); `answered` is what a requester finds in its request; `returned` are
    the pairs of a block and its number that requesters have been given. -/
structure Store where
  map : Nat → Option Nat
  durable : Nat → Bool
  dirty : Bool
  cache : BlockCache
  queue : List Ticket
  cur : Ticket
  error : Int
  blkPhy : Option Nat
  answered : Nat → Option (Int × Option Nat)
  returned : List (Nat × Nat)

/-- A successful `vfs_fsync` makes the allocations durable that were made before it. -/
def Store.sync (s : Store) : Store :=
  { s with durable := fun b => s.durable b || (s.map b).isSome }

/-- The numbers that a completed request gives to its owner. -/
def Store.given (s : Store) : List (Nat × Nat) :=
  if s.error = 0 then
    (s.blkPhy.map (fun p => (s.cur.cio.blkLocal, p))).toList
  else []

/-- `complete(&cio->allocated)`. -/
def Store.complete (s : Store) : Store :=
  { s with
    answered := Function.update s.answered s.cur.owner (some (s.error, s.blkPhy))
    returned := s.given ++ s.returned }

/-- The thread takes the request `x` from the list. -/
def Store.take (s : Store) (x : Ticket) (rest : List Ticket) : Store :=
  { s with queue := rest, cur := x, error := 0, blkPhy := none }

/-- `get_block`: an error, a hole, or an extent of `l` blocks.  Blocks may only
    be allocated for a writer. -/
inductive GetBlock (blkbits b bSize : Nat) (create : Bool) (s : Store) :
    BhResult → Store → Prop
  | error {e : Int} {p n : Nat} : e ≠ 0 → GetBlock blkbits b bSize create s ⟨e, p, n⟩ s
  | hole : create = false → s.map b = none →
      GetBlock blkbits b bSize create s ⟨0, 0, bSize⟩ s
  | extent {p l : Nat} {m : Nat → Option Nat} : p ≠ 0 → 1 ≤ l →
      (∀ b' p', s.map b' = some p' → m b' = some p') →
      (create = false → m = s.map) → (∀ j < l, m (b + j) = some (p + j)) →
      GetBlock blkbits b bSize create s ⟨0, p, l * 2 ^ blkbits⟩ { s with map := m }

variable {s : Store}

/-- The `get_block` of every host is one. -/
theorem getBlock_host {H : LoopDevice.Host} {file : H.State}
    (hs : s.map = H.map file) (blkbits b bSize n : Nat) (create : Bool) :
    GetBlock blkbits b bSize create s
      (LoopDevice.bhResult blkbits bSize (H.getBlock file b n create).1)
      { s with map := H.map (H.getBlock file b n create).2 } := by
  cases hr : (H.getBlock file b n create).1 with
  | none =>
    obtain ⟨rfl, hnone⟩ := H.hole hr
    rw [H.readOnly, ← hs]
    exact .hole rfl (hs ▸ hnone)
  | some r =>
    obtain ⟨h1, -, hmap⟩ := H.extent (p := r.1) (l := r.2) hr
    refine .extent (H.ne_zero (hmap 0 h1)) h1 (fun b' p' h => ?_) ?_ hmap
    · exact H.keep b n create (hs ▸ h)
    · rintro rfl
      rw [H.readOnly, hs]

/-- What the requests of the thread do. -/
def threadStep (blkbits : Nat) : (q : ThreadReq) → Store → q.Ans → Store → Prop
  | .fsync, s, r, t => r ≠ (0 : Int) ∧ t = s ∨ r = (0 : Int) ∧ t = s.sync
  | .findCacheNode b, s, r, t =>
    r = (s.cache.findCacheNode b).map (·.bBlocknr) ∧ t = s
  | .getBlock b n create, s, bh, t => GetBlock blkbits b n create s bh t
  | .setDirty, s, _, t => t = { s with dirty := true }
  | .clearDirty, s, _, t => t = { s with dirty := false }
  | .storeError e, s, _, t => t = { s with error := e }
  | .storePhys p, s, _, t => t = { s with blkPhy := some p }
  | .complete, s, _, t => t = s.complete
  | .addCache p b, s, _, t => t = { s with cache := s.cache.addCache p b }
  | .spin, _, _, _ => False

/-- A new request is queued, and not answered yet. -/
def Store.enqueue (s : Store) (x : Ticket) : Store :=
  { s with
    queue := s.queue ++ [x]
    answered := Function.update s.answered x.owner none }

/-- What requesters do: queue a request, be given a number by
    `block_cache_lookup`, and skip the flush when the bit is clear. -/
inductive Requests : Store → Store → Prop
  | enqueue {s : Store} (x : Ticket) : Requests s (s.enqueue x)
  | lookup {s : Store} (b : Nat) : s.cache.blockCacheLookup b ≠ 0 →
      Requests s { s with
        returned := (b, s.cache.blockCacheLookup b) :: s.returned }
  | skipFlush {s : Store} : s.dirty = false → Requests s s

/-- A number that is not lost when the bit is clear. -/
def Known (s : Store) (b p : Nat) : Prop :=
  s.map b = some p ∧ (s.dirty = false → s.durable b = true)

/-- The numbers that requesters have, or can find in the cache, are known.  (A
    number 0 is a hole.) -/
structure Kept (s : Store) : Prop where
  cache : s.cache.Agrees (Known s)
  returned : ∀ x ∈ s.returned, x.2 ≠ 0 → Known s x.1 x.2

/-- The thread among the requesters. -/
def threadSetting (blkbits : Nat) : Setting ThreadSig Store where
  step := threadStep blkbits
  rely := Requests
  inv := Kept
  can _ := True

/-- `loop_thread`: a step of the request being served, a step of a requester, or
    the next request is taken from the list. -/
inductive ThreadMove (prefetchBlocks : Int) (blkbits fuel : Nat) :
    Prog ThreadSig Unit × Store → Prog ThreadSig Unit × Store → Prop
  | serve {c c' : Prog ThreadSig Unit × Store} :
      (threadSetting blkbits).Move c c' → ThreadMove prefetchBlocks blkbits fuel c c'
  | take {s : Store} {x : Ticket} {rest : List Ticket} : s.queue = x :: rest →
      ThreadMove prefetchBlocks blkbits fuel (.ret (), s)
        (serveCio prefetchBlocks blkbits fuel x.cio, s.take x rest)

/-- A device that has just been set up, on a backing file whose blocks are durable. -/
def startStore (m : Nat → Option Nat) : Store where
  map := m
  durable := fun b => (m b).isSome
  dirty := false
  cache := initCache
  queue := []
  cur := ⟨0, flushCio 0 ⟨false, false, false⟩⟩
  error := 0
  blkPhy := none
  answered := fun _ => none
  returned := []

/-- The file map after a power failure. -/
def Store.afterCrash (s : Store) (b : Nat) : Option Nat :=
  if s.durable b then s.map b else none

/-! ## What keeps numbers known -/

variable {t : Store}

theorem Kept.mono (h : Kept s) (hcache : t.cache = s.cache) (hret : t.returned = s.returned)
    (hk : ∀ b p, Known s b p → Known t b p) : Kept t := by
  refine ⟨?_, ?_⟩
  · rw [hcache]
    exact h.cache.mono hk
  · rw [hret]
    exact fun x hx h0 => hk _ _ (h.returned x hx h0)

/-- At these points the thread has no allocation that the bit does not show. -/
structure Clean (s : Store) : Prop where
  kept : Kept s
  durable : ∀ b p, s.map b = some p → Known s b p

theorem Kept.request (h : Kept s) (hr : Requests s t) : Kept t := by
  cases hr with
  | enqueue x => exact ⟨h.cache, h.returned⟩
  | lookup b hne =>
    refine ⟨h.cache, ?_⟩
    intro x hx h0
    rcases List.mem_cons.mp hx with rfl | hx'
    · exact (h.cache.lookup b).resolve_left hne
    · exact h.returned x hx' h0
  | skipFlush _ => exact h

/-- A fact about the file map and the request being served. -/
structure Framed (F : Store → Prop) : Prop where
  keep : ∀ {s t : Store}, F s → t.map = s.map → t.cur = s.cur → F t

theorem framed_true : Framed (fun _ => True) := ⟨fun _ _ _ => trivial⟩

section Stability

variable {blkbits : Nat}

theorem requests_frame {s t : Store} (h : Requests s t) :
    t.map = s.map ∧ t.cur = s.cur ∧ t.dirty = s.dirty
      ∧ t.durable = s.durable ∧ t.error = s.error ∧ t.blkPhy = s.blkPhy := by
  cases h with
  | enqueue x => exact ⟨rfl, rfl, rfl, rfl, rfl, rfl⟩
  | lookup b _ => exact ⟨rfl, rfl, rfl, rfl, rfl, rfl⟩
  | skipFlush _ => exact ⟨rfl, rfl, rfl, rfl, rfl, rfl⟩

theorem Clean.request {s t : Store} (h : Clean s) (hr : Requests s t) : Clean t := by
  obtain ⟨hmap, -, hdirty, hdur, -, -⟩ := requests_frame hr
  refine ⟨h.kept.request hr, ?_⟩
  intro b p hb
  rw [hmap] at hb
  rw [Known, hmap, hdirty, hdur]
  exact h.durable b p hb

/-- `Clean`, and a fact. -/
theorem clean_stable {F : Store → Prop} (hF : Framed F) :
    (threadSetting blkbits).Stable (fun s => Clean s ∧ F s) where
  keep := by
    rintro s t ⟨hc, hf⟩ hr
    obtain ⟨hmap, hcur, -⟩ := requests_frame hr
    exact ⟨hc.request hr, hF.keep hf hmap hcur⟩
  inv h := h.1.kept

/-- The request being served, when it is completed, gives its owner a number of the file map. -/
def Ready (s : Store) : Prop :=
  ∀ p, s.error = 0 → s.blkPhy = some p → p ≠ 0 → s.map s.cur.cio.blkLocal = some p

theorem ready_stable {F : Store → Prop} (hF : Framed F) :
    (threadSetting blkbits).Stable (fun s => Clean s ∧ F s ∧ Ready s) where
  keep := by
    rintro s t ⟨hc, hf, hready⟩ hr
    obtain ⟨hmap, hcur, -, -, he, hp⟩ := requests_frame hr
    refine ⟨hc.request hr, hF.keep hf hmap hcur, ?_⟩
    rw [Ready, hmap, hcur, he, hp]
    exact hready
  inv h := h.1.kept

/-- No number has been stored in the request being served. -/
theorem unstored_stable : (threadSetting blkbits).Stable (fun s => Clean s ∧ s.blkPhy = none) where
  keep := by
    rintro s t ⟨hc, hn⟩ hr
    exact ⟨hc.request hr, (requests_frame hr).2.2.2.2.2.trans hn⟩
  inv h := h.1.kept

end Stability

/-! ## The requests of the thread -/

theorem Clean.same (h : Clean s) (hmap : t.map = s.map) (hdirty : t.dirty = s.dirty)
    (hdur : t.durable = s.durable) (hcache : t.cache = s.cache) (hret : t.returned = s.returned) :
    Clean t := by
  have hk : ∀ b p, Known s b p → Known t b p := by
    intro b p hb
    rw [Known, hmap, hdirty, hdur]
    exact hb
  refine ⟨h.kept.mono hcache hret hk, ?_⟩
  intro b p hb
  rw [hmap] at hb
  exact hk b p (h.durable b p hb)

/-- With the bit set, nothing has to be durable. -/
theorem Kept.setDirty (h : Kept s) : Clean { s with dirty := true } := by
  refine ⟨h.mono rfl rfl fun b p hb => ⟨hb.1, nofun⟩, ?_⟩
  exact fun b p hb => ⟨hb, nofun⟩

/-- After an fsync everything is durable, whatever the bit says. -/
theorem Kept.sync_clear (h : Kept s) (d : Bool) : Clean { s.sync with dirty := d } := by
  have hall : ∀ b p, s.map b = some p → Known { s.sync with dirty := d } b p := by
    intro b p hb
    refine ⟨hb, fun _ => ?_⟩
    show (s.durable b || (s.map b).isSome) = true
    rw [hb, isSome_some, Bool.or_true]
  exact ⟨h.mono rfl rfl fun b p hb => hall b p hb.1, hall⟩

theorem Clean.complete (h : Clean s) (hready : Ready s) : Clean s.complete := by
  refine ⟨⟨h.kept.cache, ?_⟩, h.durable⟩
  intro x hx h0
  rcases List.mem_append.mp hx with hg | hr
  · unfold Store.given at hg
    split at hg
    next he =>
      obtain ⟨p, hp, rfl⟩ := map_eq_some_iff.mp (mem_toList.mp hg)
      exact h.durable _ _ (hready p he hp h0)
    next => exact absurd hg List.not_mem_nil
  · exact h.kept.returned x hr h0

theorem Clean.addCache (h : Clean s) {b p : Nat}
    (hb : s.map b = some p) : Clean { s with cache := s.cache.addCache p b } :=
  ⟨⟨h.kept.cache.addCache (h.durable b p hb), h.kept.returned⟩, h.durable⟩

/-- The blocks that a buffer head describes. -/
def Extent (blkbits b : Nat) (bh : BhResult) (s : Store) : Prop :=
  bh.ret = 0 → bh.bBlocknr ≠ 0 → ∀ j < (gotNum bh.bSize blkbits).toNat,
    s.map (b + j) = some (bh.bBlocknr + j)

/-- In the first round, the block is the one that was asked for. -/
def Serving (i : Int) (blk : Nat) (s : Store) : Prop :=
  i = 0 → s.cur.cio.blkLocal = blk

theorem serving_framed (i : Int) (blk : Nat) : Framed (Serving i blk) where
  keep {s t} h _ hcur := by
    rw [Serving, hcur]
    exact h

theorem extent_framed (blkbits b : Nat) (bh : BhResult) : Framed (Extent blkbits b bh) where
  keep {s t} h hmap _ := by
    unfold Extent
    rw [hmap]
    exact h

theorem Framed.and {F G : Store → Prop} (hF : Framed F) (hG : Framed G) :
    Framed (fun s => F s ∧ G s) where
  keep h hmap hcur := ⟨hF.keep h.1 hmap hcur, hG.keep h.2 hmap hcur⟩

theorem gotNum_le (l blkbits : Nat) : (gotNum (l * 2 ^ blkbits) blkbits).toNat ≤ l := by
  unfold gotNum
  rw [Nat.mul_div_cancel l (Nat.two_pow_pos blkbits), Int.bmod_def]
  split <;> omega

section Requests

variable {blkbits : Nat} {F : Store → Prop} (hF : Framed F)

include hF

theorem complete_clean : (threadSetting blkbits).Triple (fun s => Clean s ∧ F s ∧ Ready s) complete
    (fun _ s => Clean s ∧ F s) :=
  .perform (ready_stable hF) (fun _ => clean_stable hF) trivial (by
    rintro s _ t ⟨hc, hf, hready⟩ rfl
    exact ⟨hc.complete hready, hF.keep hf rfl rfl⟩)

/-- A request that is completed with an error gives nothing. -/
theorem fail_clean {e : Int} (he : e ≠ 0) : (threadSetting blkbits).Triple
    (fun s => Clean s ∧ F s) (do storeError e; complete)
    (fun _ s => Clean s ∧ F s) := by
  refine .bind (.perform (clean_stable hF) (fun _ => ready_stable hF) trivial ?_)
    fun _ => complete_clean hF
  rintro s _ t ⟨hc, hf⟩ rfl
  exact ⟨hc.same rfl rfl rfl rfl rfl, hF.keep hf rfl rfl, fun p h0 => absurd h0 he⟩

theorem answer_clean {p : Nat} (hp : ∀ s, F s → p ≠ 0 → s.map s.cur.cio.blkLocal = some p) :
    (threadSetting blkbits).Triple (fun s => Clean s ∧ F s) (answer p)
      (fun _ s => Clean s ∧ F s) := by
  refine .bind (.perform (clean_stable hF) (fun _ => clean_stable hF) trivial ?_)
    fun _ => .bind (.perform (clean_stable hF) (fun _ => ready_stable hF)
      trivial ?_) fun _ => complete_clean hF
  · rintro s _ t ⟨hc, hf⟩ rfl
    exact ⟨hc.same rfl rfl rfl rfl rfl, hF.keep hf rfl rfl⟩
  · rintro s _ t ⟨hc, hf⟩ rfl
    refine ⟨hc.same rfl rfl rfl rfl rfl, hF.keep hf rfl rfl, ?_⟩
    rintro q - hq hq0
    cases hq
    exact hp s hf hq0

theorem onlyIf_clean {c : Prop} [Decidable c] {p : Prog ThreadSig Unit}
    (hp : c → (threadSetting blkbits).Triple (fun s => Clean s ∧ F s) p
      (fun _ s => Clean s ∧ F s)) :
    (threadSetting blkbits).Triple (fun s => Clean s ∧ F s) (onlyIf c p)
      (fun _ s => Clean s ∧ F s) := by
  by_cases hc : c
  · rw [onlyIf_pos hc]
    exact hp hc
  · rw [onlyIf_neg hc]
    exact .ret (clean_stable hF) fun _ h => h

/-- The first block of the first extent answers the request; the others are cached. -/
theorem cacheExtent_clean {first : Bool} {blk p : Nat} (n j : Nat)
    (hfirst : ∀ s, F s → first = true → s.cur.cio.blkLocal = blk)
    (hext : ∀ s, F s → ∀ i < j + n, s.map (blk + i) = some (p + i)) :
    (threadSetting blkbits).Triple (fun s => Clean s ∧ F s)
      (cacheExtent first blk p n j) (fun _ s => Clean s ∧ F s) := by
  induction n generalizing j with
  | zero => exact .ret (clean_stable hF) fun _ h => h
  | succ n ih =>
    refine .bind (onlyIf_clean hF ?_) fun _ => .bind (.perform
      (clean_stable hF) (fun _ => clean_stable hF) trivial ?_) fun _ => ?_
    · rintro ⟨h1, rfl⟩
      refine answer_clean hF fun s hs _ => ?_
      rw [hfirst s hs h1]
      exact hext s hs 0 (by omega)
    · rintro s _ t ⟨hc, hf⟩ rfl
      exact ⟨hc.addCache (hext s hf j (by omega)), hF.keep hf rfl rfl⟩
    · exact ih (j + 1) fun s hs i hi => hext s hs i (by omega)

end Requests

/-! ## The requests it serves -/

/-- After `get_block`: there may be an allocation that the bit does not show,
    and nobody knows it. -/
structure Got (blkbits : Nat) (create : Bool) (i : Int) (b : Nat)
    (bh : BhResult) (s : Store) : Prop where
  kept : Kept s
  clean : bh.ret ≠ 0 ∨ create = false → Clean s
  serving : Serving i b s
  extent : Extent blkbits b bh s

section Serve

variable {blkbits : Nat}

variable {create : Bool} {i : Int} {b : Nat}

theorem got_stable {bh : BhResult} :
    (threadSetting blkbits).Stable (Got blkbits create i b bh) where
  keep := by
    intro s t h hr
    obtain ⟨hmap, hcur, -⟩ := requests_frame hr
    exact ⟨h.kept.request hr, fun hc => (h.clean hc).request hr,
      (serving_framed i b).keep h.serving hmap hcur,
      (extent_framed blkbits b bh).keep h.extent hmap hcur⟩
  inv h := h.kept

theorem getBlock_got (i : Int) (b n : Nat) (create : Bool) :
    (threadSetting blkbits).Triple (fun s => Clean s ∧ Serving i b s)
      (getBlock b n create) (Got blkbits create i b) := by
  refine .perform (clean_stable (serving_framed i b)) (fun _ => got_stable) trivial ?_
  rintro s bh t ⟨hc, hs⟩ hget
  cases hget with
  | error he => exact ⟨hc.kept, fun _ => hc, hs, fun h => absurd h he⟩
  | hole _ _ => exact ⟨hc.kept, fun _ => hc, hs, fun _ h => absurd rfl h⟩
  | @extent p l m hp hl hmono hread hext =>
    refine ⟨?_, ?_, hs, ?_⟩
    · exact hc.kept.mono rfl rfl fun b p h => ⟨hmono b p h.1, h.2⟩
    · -- without an error, only a writer's call may have allocated
      rintro (h | h)
      · exact absurd rfl h
      · exact hc.same (hread h) rfl rfl rfl rfl
    · exact fun _ _ j hj => hext j (hj.trans_le (gotNum_le l blkbits))

/-- A writer's bit is set before anything else is done. -/
theorem setDirty_clean {bh : BhResult} :
    (threadSetting blkbits).Triple (Got blkbits create i b bh) (onlyIf (create = true) setDirty)
      (fun _ s => Clean s ∧ Serving i b s ∧ Extent blkbits b bh s) := by
  cases create with
  | true =>
    rw [onlyIf_pos rfl]
    refine .perform got_stable (fun _ => clean_stable
      ((serving_framed i b).and (extent_framed blkbits b bh))) trivial ?_
    rintro s _ t h rfl
    exact ⟨h.kept.setDirty, h.serving, h.extent⟩
  | false =>
    rw [onlyIf_neg Bool.false_ne_true]
    exact .ret got_stable fun s h => ⟨h.clean (.inr rfl), h.serving, h.extent⟩

/-- A round of the prefetch loop. -/
theorem afterGetBlock_clean (hi : 0 ≤ i)
    {next : Int → Nat → Prog ThreadSig Unit}
    (hnext : ∀ i' b', 0 ≤ i' → (threadSetting blkbits).Triple
      (fun s => Clean s ∧ Serving i' b' s) (next i' b') (fun _ s => Clean s))
    (bh : BhResult) : (threadSetting blkbits).Triple
      (Got blkbits create i b bh) (afterGetBlock blkbits create next i b bh)
      (fun _ s => Clean s) := by
  have hfr := (serving_framed i b).and (extent_framed blkbits b bh)
  unfold afterGetBlock
  by_cases hret : bh.ret ≠ 0
  · rw [if_pos hret]
    exact ((fail_clean hfr hret).post fun _ _ h => h.1).pre
      fun s h => ⟨h.clean (.inl hret), h.serving, h.extent⟩
  rw [if_neg hret]
  refine .bind setDirty_clean fun _ => ?_
  generalize hgot : gotNum bh.bSize blkbits = got
  by_cases hp : bh.bBlocknr ≠ 0
  · rw [if_pos hp]
    refine .bind (cacheExtent_clean hfr _ 0 ?_ ?_) fun _ => ?_
    · exact fun s h h0 => h.1 (of_decide_eq_true h0)
    · intro s h j hj
      exact h.2 (not_not.mp hret) hp j (by omega)
    · refine (hnext _ _ (by omega)).pre fun s h => ⟨h.1, fun h0 => ?_⟩
      -- an extent without a block leaves the loop where it was
      rw [h.2.1 (by omega)]
      omega
  rw [if_neg hp]
  by_cases hpos : 0 < got
  · rw [if_pos hpos]
    refine .bind (onlyIf_clean hfr fun _ => answer_clean hfr fun s _ h => absurd rfl h) fun _ => ?_
    exact (hnext _ _ (by omega)).pre fun s h => ⟨h.1, fun h0 => by omega⟩
  · rw [if_neg hpos]
    exact (hnext i b hi).pre fun s h => ⟨h.1, h.2.1⟩

theorem prefetchLoop_clean (prefetchBlocks : Int) (create : Bool)
    (fuel : Nat) (i : Int) (b : Nat) (hi : 0 ≤ i) :
    (threadSetting blkbits).Triple (fun s => Clean s ∧ Serving i b s)
      (prefetchLoop prefetchBlocks blkbits create fuel i b)
      (fun _ s => Clean s) := by
  have hst : (threadSetting blkbits).Stable
      (fun s => Clean s ∧ Serving i b s) := clean_stable (serving_framed i b)
  induction fuel generalizing i b with
  | zero =>
    unfold prefetchLoop
    split
    · intro s hs t ht
      exact ⟨hst.inv (Setting.Stable.keeps _ hst hs ht), trivial, fun x => x.elim⟩
    · exact .ret hst fun _ h => h.1
  | succ fuel ih =>
    unfold prefetchLoop
    split
    · exact .bind (getBlock_got i b _ create) (afterGetBlock_clean hi
        fun i' b' hi' => ih i' b' hi' (clean_stable (serving_framed i' b')))
    · exact .ret hst fun _ h => h.1

/-- After the fsync of a flush, if it has succeeded, everything is durable. -/
structure Synced (ret : Int) (s : Store) : Prop where
  clean : Clean s
  unstored : s.blkPhy = none
  durable : ret = 0 → ∀ b p, s.map b = some p → s.durable b = true

theorem synced_stable {ret : Int} : (threadSetting blkbits).Stable (Synced ret) where
  keep := by
    intro s t h hr
    obtain ⟨hmap, -, -, hdur, -, hphy⟩ := requests_frame hr
    refine ⟨h.clean.request hr, hphy.trans h.unstored, ?_⟩
    rw [hmap, hdur]
    exact h.durable
  inv h := h.clean.kept

theorem vfsFsync_synced : (threadSetting blkbits).Triple
    (fun s => Clean s ∧ s.blkPhy = none) vfsFsync Synced := by
  refine .perform unstored_stable (fun _ => synced_stable) trivial ?_
  rintro s r t ⟨hc, hn⟩ (⟨hr, rfl⟩ | ⟨-, rfl⟩)
  · exact ⟨hc, hn, fun h0 => absurd h0 hr⟩
  · refine ⟨hc.kept.sync_clear s.dirty, hn, fun _ b p hb => ?_⟩
    have hb' : s.map b = some p := hb
    show (s.durable b || (s.map b).isSome) = true
    rw [hb', isSome_some, Bool.or_true]

/-- The bit is cleared only after an fsync that has succeeded, and no block has
    been allocated since. -/
theorem clearDirty_clean {ret : Int} : (threadSetting blkbits).Triple
    (Synced ret) (onlyIf (ret = 0) clearDirty)
    (fun _ s => Clean s ∧ s.blkPhy = none) := by
  by_cases h0 : ret = 0
  · rw [onlyIf_pos h0]
    refine .perform synced_stable (fun _ => unstored_stable) trivial ?_
    rintro s _ t h rfl
    have hall : ∀ b p, s.map b = some p →
        Known { s with dirty := false } b p :=
      fun b p hb => ⟨hb, fun _ => h.durable h0 b p hb⟩
    exact ⟨⟨h.clean.kept.mono rfl rfl fun b p hb => hall b p hb.1, hall⟩, h.unstored⟩
  · rw [onlyIf_neg h0]
    exact .ret synced_stable fun s h => ⟨h.clean, h.unstored⟩

theorem serveFlush_clean : (threadSetting blkbits).Triple
    (fun s => Clean s ∧ s.blkPhy = none) serveFlush (fun _ s => Clean s) := by
  refine .bind vfsFsync_synced fun ret => .bind (.perform synced_stable
    (fun _ => synced_stable) trivial ?_) fun _ => .bind clearDirty_clean
    fun _ => ((complete_clean framed_true).post fun _ _ h => h.1).pre ?_
  · rintro s _ t h rfl
    exact ⟨h.clean.same rfl rfl rfl rfl rfl, h.unstored, h.durable⟩
  · rintro s ⟨hc, hn⟩
    exact ⟨hc, trivial, fun p _ hp => nomatch hn.symm.trans hp⟩

/-- A node that is found has a number of the file map. -/
theorem findCacheNode_clean (b : Nat) : (threadSetting blkbits).Triple
    (fun s => Clean s ∧ Serving 0 b s) (findCacheNode b)
    (fun r s => Clean s ∧ Serving 0 b s ∧ ∀ p, r = some p → s.map b = some p) := by
  have hfr : ∀ r : Option Nat, Framed (fun s => Serving 0 b s
      ∧ ∀ p, r = some p → s.map b = some p) := fun r =>
    (serving_framed 0 b).and ⟨fun h hmap _ => by rw [hmap]; exact h⟩
  refine .perform (clean_stable (serving_framed 0 b)) (fun r => clean_stable (hfr r)) trivial ?_
  rintro s r t ⟨hc, hs⟩ ⟨rfl, rfl⟩
  refine ⟨hc, hs, fun p hp => ?_⟩
  obtain ⟨n, hn, rfl⟩ := map_eq_some_iff.mp hp
  exact (hc.kept.cache.find hn).1

theorem serveTranslation_clean (prefetchBlocks : Int) (fuel : Nat)
    (create : Bool) (b : Nat) : (threadSetting blkbits).Triple
    (fun s => Clean s ∧ Serving 0 b s)
    (serveTranslation prefetchBlocks blkbits fuel create b)
    (fun _ s => Clean s) := by
  refine .bind (findCacheNode_clean b) fun r => ?_
  cases r with
  | none =>
    exact (prefetchLoop_clean prefetchBlocks create fuel 0 b le_rfl).pre fun s h => ⟨h.1, h.2.1⟩
  | some p =>
    have hfr : Framed (fun s => Serving 0 b s ∧ s.map b = some p) :=
      (serving_framed 0 b).and ⟨fun h hmap _ => by rw [hmap]; exact h⟩
    refine ((onlyIf_clean hfr fun _ => answer_clean hfr ?_).post
      fun _ _ h => h.1).pre fun s h => ⟨h.1, h.2.1, h.2.2 p rfl⟩
    intro s h _
    rw [h.1 rfl]
    exact h.2

/-- A request that has just been taken. -/
theorem serveCio_clean (prefetchBlocks : Int) (fuel : Nat) (cio : CioReq) :
    (threadSetting blkbits).Triple (fun s => Clean s ∧ s.cur.cio = cio ∧ s.blkPhy = none)
      (serveCio prefetchBlocks blkbits fuel cio) (fun _ s => Clean s) := by
  unfold serveCio
  split
  · exact serveFlush_clean.pre fun s h => ⟨h.1, h.2.2⟩
  · refine (serveTranslation_clean prefetchBlocks fuel _ _).pre fun s h => ?_
    exact ⟨h.1, fun _ => congrArg CioReq.blkLocal h.2.1⟩

end Serve

/-! ## The thread -/

/-- The thread is safe, and at the end of a request it is clean. -/
def Sound (blkbits : Nat) (c : Prog ThreadSig Unit × Store) : Prop :=
  (threadSetting blkbits).Safe (fun _ s => Clean s) c.1 c.2

variable {prefetchBlocks : Int} {blkbits fuel : Nat}

theorem Sound.move {c c' : Prog ThreadSig Unit × Store} (h : Sound blkbits c)
    (hm : ThreadMove prefetchBlocks blkbits fuel c c') : Sound blkbits c' := by
  cases hm with
  | serve hm => exact Setting.Safe.move _ h hm
  | take hq =>
    have hc : Clean _ := (h _ .refl).2
    refine serveCio_clean prefetchBlocks fuel _ _ ⟨?_, rfl, rfl⟩
    exact hc.same rfl rfl rfl rfl rfl

theorem Sound.run {c c' : Prog ThreadSig Unit × Store} (h : Sound blkbits c)
    (hr : ReflTransGen (ThreadMove prefetchBlocks blkbits fuel) c c') :
    Sound blkbits c' := by
  induction hr with
  | refl => exact h
  | tail _ hm ih => exact ih.move hm

theorem startStore_clean (m : Nat → Option Nat) : Clean (startStore m) where
  kept := ⟨initCache_agrees _, nofun⟩
  durable b p hb := ⟨hb, fun _ => by
    have hb' : m b = some p := hb
    show (m b).isSome = true
    rw [hb', isSome_some]⟩

theorem sound_start (blkbits : Nat) (m : Nat → Option Nat) :
    Sound blkbits (.ret (), startStore m) :=
  Setting.Triple.ret (clean_stable framed_true) (fun _ h => h.1) _ ⟨startStore_clean m, trivial⟩

/-- In every state that the thread and the requesters can reach, whatever the
    order of their steps: when the bit is clear, a number that a requester has
    been given is durable, so that a flush that is skipped loses nothing. -/
theorem clear_bit_loses_nothing {prefetchBlocks : Int} {blkbits fuel : Nat}
    {m : Nat → Option Nat} {p : Prog ThreadSig Unit} {s : Store}
    (hreach : ReflTransGen (ThreadMove prefetchBlocks blkbits fuel)
      (.ret (), startStore m) (p, s)) (hclear : s.dirty = false)
    {b n : Nat} (hret : (b, n) ∈ s.returned) (hn : n ≠ 0) :
    s.durable b = true ∧ s.afterCrash b = some n := by
  have hkept : Kept s := Setting.Safe.inv _ ((sound_start blkbits m).run hreach)
  obtain ⟨hmap, hdur⟩ := hkept.returned _ hret hn
  refine ⟨hdur hclear, ?_⟩
  rw [Store.afterCrash, if_pos (hdur hclear)]
  exact hmap

/-- A request of the thread is answered. -/
theorem after_ask {φ : Prog ThreadSig Unit × Store → Prop} (q : ThreadReq) (x : q.Ans) (t : Store)
    {k : q.Ans → Prog ThreadSig Unit} (hstep : threadStep blkbits q s x t)
    (h : ∃ d, ReflTransGen (ThreadMove prefetchBlocks blkbits fuel) (k x, t) d ∧ φ d) :
    ∃ d, ReflTransGen (ThreadMove prefetchBlocks blkbits fuel)
      (.ask (S := ThreadSig) q k, s) d ∧ φ d :=
  after_step (.serve (.ask hstep)) h

/-- A block is allocated for a writer, handed out, and made durable by a flush. -/
theorem wrote_then_flushed : ∃ c, ReflTransGen (ThreadMove 1 12 1)
    (.ret (), startStore fun _ => none) c
    ∧ c.2.dirty = false ∧ (0, 5) ∈ c.2.returned := by
  refine after_step (.serve (.others (.enqueue ⟨1, translationCio 1 0 ⟨true, false, false⟩⟩))) ?_
  refine after_step (.take rfl) ?_
  refine after_ask (.findCacheNode 0) (none : Option Nat) _ ⟨rfl, rfl⟩ ?_
  refine after_ask (.getBlock 0 4096 true) (⟨0, 5, 4096⟩ : BhResult) _
    (.extent (p := 5) (l := 1) (m := fun b => if b = 0 then some 5 else none)
      (by decide) le_rfl nofun nofun
      (by decide)) ?_
  refine after_ask .setDirty () _ rfl ?_
  refine after_ask (.storeError 0) () _ rfl ?_
  refine after_ask (.storePhys 5) () _ rfl ?_
  refine after_ask .complete () _ rfl ?_
  refine after_ask (.addCache 5 0) () _ rfl ?_
  refine after_step (.serve (.others (.enqueue ⟨1, flushCio 0 ⟨true, true, false⟩⟩))) ?_
  refine after_step (.take rfl) ?_
  refine after_ask .fsync (0 : Int) _ (.inr ⟨rfl, rfl⟩) ?_
  refine after_ask (.storeError 0) () _ rfl ?_
  refine after_ask .clearDirty () _ rfl ?_
  refine after_ask .complete () _ rfl ?_
  exact ⟨_, .refl, rfl, List.mem_cons_self ..⟩

theorem wrote_then_flushed_durable : ∃ s : Store, s.dirty = false
    ∧ (0, 5) ∈ s.returned ∧ s.durable 0 = true ∧ s.afterCrash 0 = some 5 := by
  obtain ⟨⟨p, s⟩, hreach, hclear, hret⟩ := wrote_then_flushed
  exact ⟨s, hclear, hret, clear_bit_loses_nothing hreach hclear hret (by decide)⟩

end DirtyBit
