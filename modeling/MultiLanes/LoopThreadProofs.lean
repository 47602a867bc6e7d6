import MultiLanes.RedirectProofs
import Mathlib.Tactic.Linarith

/-! # `loop_thread` — serving one translation request

The translation thread takes a `cio_req` from its list, looks its block up, asks the
backing file system for extents until `prefetch_blocks` blocks are cached, and completes
the request on the way.  `serveCio` is that code as an interaction program over
`ThreadSig`: the fields it stores in the request (which lives on the requester's stack),
the completion, the dirty bit, the cache and `get_block` are requests.

The prefetch loop need not advance: `b_size` is an `int` shift, so a hole can come back
with a `got_num` that is not positive.  The loop is run with explicit fuel, and what is
said about a request is said of every run with enough of it. -/

namespace LoopThread

open InteractProg LoopBio List

/-- `struct cio_req` as the thread finds it: `blk_num = -1` asks for a flush. -/
structure CioReq where
  create : ReqFlags
  blkNum : Int
  blkLocal : Nat

/-- What the thread reads after `get_block`: its return value and the fields of
    the buffer head. -/
structure BhResult where
  ret : Int
  bBlocknr : Nat
  bSize : Nat
deriving DecidableEq, Repr

/-- The requests of the thread. -/
inductive ThreadReq where
  | fsync
  /-- `find_cache_node`, answered by the node's `b_blocknr` -/
  | findCacheNode (blk : Nat)
  | getBlock (blk bSize : Nat) (create : Bool)
  /-- `set_bit(LOOP_DIRTY, ..)` -/
  | setDirty
  /-- `clear_bit(LOOP_DIRTY, ..)` -/
  | clearDirty
  /-- `cio->error = e` -/
  | storeError (e : Int)
  /-- `cio->blk_phy = p` -/
  | storePhys (p : Nat)
  /-- `complete(&cio->allocated)` -/
  | complete
  | addCache (phys blk : Nat)
  /-- the loop has outlived its bound -/
  | spin
deriving DecidableEq

/-- `complete(&cio->allocated)`. -/
def isComplete (q : ThreadReq) : Bool := q = .complete

/-- The answers. -/
def ThreadReq.Ans : ThreadReq → Type
  | .fsync => Int
  | .findCacheNode _ => Option Nat
  | .getBlock _ _ _ => BhResult
  | .spin => Empty
  | _ => Unit

/-- The signature of the thread. -/
def ThreadSig : Sig := ⟨ThreadReq, ThreadReq.Ans⟩

def vfsFsync : Prog ThreadSig Int := perform (S := ThreadSig) .fsync

def findCacheNode (blk : Nat) : Prog ThreadSig (Option Nat) :=
  perform (S := ThreadSig) (.findCacheNode blk)

def getBlock (blk bSize : Nat) (create : Bool) : Prog ThreadSig BhResult :=
  perform (S := ThreadSig) (.getBlock blk bSize create)

def setDirty : Prog ThreadSig Unit := perform (S := ThreadSig) .setDirty

def clearDirty : Prog ThreadSig Unit := perform (S := ThreadSig) .clearDirty

def storeError (e : Int) : Prog ThreadSig Unit :=
  perform (S := ThreadSig) (.storeError e)

def storePhys (p : Nat) : Prog ThreadSig Unit :=
  perform (S := ThreadSig) (.storePhys p)

def complete : Prog ThreadSig Unit := perform (S := ThreadSig) .complete

def addCache (phys blk : Nat) : Prog ThreadSig Unit :=
  perform (S := ThreadSig) (.addCache phys blk)

def spin : Prog ThreadSig Unit := .ask (S := ThreadSig) .spin Empty.elim

/-- `(prefetch_blocks - i) << i_blkbits`, an `int`, stored in a `size_t`. -/
def askedSize (prefetchBlocks i : Int) (blkbits : Nat) : Nat :=
  (Int.bmod ((prefetchBlocks - i) * 2 ^ blkbits) (2 ^ 32) % 2 ^ 64).toNat

/-- `int got_num = b_size >> i_blkbits`. -/
def gotNum (bSize blkbits : Nat) : Int :=
  Int.bmod ((bSize / 2 ^ blkbits : Nat) : Int) (2 ^ 32)

/-- `cio->error = 0; cio->blk_phy = p; complete(..)`. -/
def answer (p : Nat) : Prog ThreadSig Unit := do
  storeError 0
  storePhys p
  complete

/-- The inner loop over an extent, from its `j`-th block on; the requester is
    answered at the first block of the first extent. -/
def cacheExtent (first : Bool) (blkStart bBlocknr : Nat) : Nat → Nat → Prog ThreadSig Unit
  | 0, _ => return ()
  | n + 1, j => do
    onlyIf (first = true ∧ j = 0) (answer bBlocknr)
    addCache (bBlocknr + j) (blkStart + j)
    cacheExtent first blkStart bBlocknr n (j + 1)

/-- One round of the prefetch loop after `get_block`; `next` is the rest of the loop. -/
def afterGetBlock (blkbits : Nat) (create : Bool) (next : Int → Nat → Prog ThreadSig Unit) (i : Int)
    (blkStart : Nat) (bh : BhResult) : Prog ThreadSig Unit := do
  if bh.ret ≠ 0 then do
    storeError bh.ret
    complete
  else do
    onlyIf (create = true) setDirty
    let got := gotNum bh.bSize blkbits
    if bh.bBlocknr ≠ 0 then do
      cacheExtent (i = 0) blkStart bh.bBlocknr got.toNat 0
      next (i + got.toNat) (blkStart + got.toNat)
    else if 0 < got then do
      -- a hole: one block of it is skipped
      onlyIf (i = 0) (answer 0)
      next (i + 1) (blkStart + 1)
    else
      next i blkStart

/-- The loop `while (i < prefetch_blocks)` of a request that is not cached. -/
def prefetchLoop (prefetchBlocks : Int) (blkbits : Nat) (create : Bool) :
    Nat → Int → Nat → Prog ThreadSig Unit
  | 0, i, _ => if i < prefetchBlocks then spin else return ()
  | fuel + 1, i, blkStart =>
    if i < prefetchBlocks then do
      let bh ← getBlock blkStart (askedSize prefetchBlocks i blkbits) create
      afterGetBlock blkbits create
        (prefetchLoop prefetchBlocks blkbits create fuel) i blkStart bh
    else
      return ()

/-- A request with `blk_num == -1`. -/
def serveFlush : Prog ThreadSig Unit := do
  let ret ← vfsFsync
  storeError ret
  onlyIf (ret = 0) clearDirty
  complete

/-- The loop `while (i < prefetch_blocks)`, with the node `cur` found before it:
    a cached block is answered in the first round, which is the last. -/
def afterLookup (prefetchBlocks : Int) (blkbits fuel : Nat) (create : Bool)
    (blkStart : Nat) : Option Nat → Prog ThreadSig Unit
  | some p => onlyIf (0 < prefetchBlocks) (answer p)
  | none => prefetchLoop prefetchBlocks blkbits create fuel 0 blkStart

/-- Any other request. -/
def serveTranslation (prefetchBlocks : Int) (blkbits fuel : Nat)
    (create : Bool) (blkStart : Nat) : Prog ThreadSig Unit := do
  let cur ← findCacheNode blkStart
  afterLookup prefetchBlocks blkbits fuel create blkStart cur

/-- What the thread does with a request it has taken from the list. -/
def serveCio (prefetchBlocks : Int) (blkbits fuel : Nat) (cio : CioReq) : Prog ThreadSig Unit :=
  if cio.blkNum = -1 then serveFlush
  else serveTranslation prefetchBlocks blkbits fuel cio.create.write cio.blkLocal

/-- `loop_init`: `prefetch_blocks = prefetch_blocks / 4`. -/
def loopInit (prefetchBlocks : Int) : Int := prefetchBlocks.tdiv 4

/-- `cio_make_request`. -/
def translationCio (prefetchBlocks : Int) (blk : Nat) (flag : ReqFlags) :
    CioReq := ⟨flag, prefetchBlocks, blk⟩

/-- `cio_make_request_flush`, which leaves `blk_local` as it is. -/
def flushCio (blk : Nat) (flag : ReqFlags) : CioReq := ⟨flag, -1, blk⟩

/-- The request that the bio path puts on the list; `blkLocal` is what the last one left
    in the `cio_req`. -/
def requestCio (prefetchBlocks : Int) (blkLocal : Nat) : LoopRedirect.LoopReq → Option CioReq
  | .cioRequest blk rw => some (translationCio prefetchBlocks blk rw)
  | .flush rw => some (flushCio blkLocal rw)
  | _ => none

theorem serveCio_translation {prefetchBlocks : Int} {blkbits fuel blk : Nat}
    {flag : ReqFlags} (h : prefetchBlocks ≠ -1) :
    serveCio prefetchBlocks blkbits fuel (translationCio prefetchBlocks blk flag)
      = serveTranslation prefetchBlocks blkbits fuel flag.write blk := if_neg h

/-! ## The four ways a round can go -/

section Rounds

variable {blkbits size : Nat} {create : Bool}
  {next : Int → Nat → Prog ThreadSig Unit} {i : Int} {blk : Nat}

theorem afterGetBlock_error {e : Int} {phys : Nat} (he : e ≠ 0) :
    afterGetBlock blkbits create next i blk ⟨e, phys, size⟩ = (do
      storeError e
      complete) := if_pos he

theorem afterGetBlock_extent {phys n : Nat} (hphys : phys ≠ 0) (hgot : gotNum size blkbits = n) :
    afterGetBlock blkbits create next i blk ⟨0, phys, size⟩ = (do
      onlyIf (create = true) setDirty
      cacheExtent (i = 0) blk phys n 0
      next (i + n) (blk + n)) := by
  unfold afterGetBlock
  simp only [ne_eq, not_true_eq_false, if_false, hgot, hphys,
    not_false_eq_true, if_true, Int.toNat_natCast]

theorem afterGetBlock_hole (hgot : 0 < gotNum size blkbits) :
    afterGetBlock blkbits create next i blk ⟨0, 0, size⟩ = (do
      onlyIf (create = true) setDirty
      onlyIf (i = 0) (answer 0)
      next (i + 1) (blk + 1)) := by
  unfold afterGetBlock
  simp only [ne_eq, not_true_eq_false, if_false, hgot, if_true]

/-- A hole whose `got_num` is not positive: the round is made again. -/
theorem afterGetBlock_stuck (hgot : ¬ 0 < gotNum size blkbits) :
    afterGetBlock blkbits create next i blk ⟨0, 0, size⟩ = (do
      onlyIf (create = true) setDirty
      next i blk) := by
  unfold afterGetBlock
  simp only [ne_eq, not_true_eq_false, if_false, hgot]

end Rounds

/-! ## Answers of `get_block` -/

/-- What `get_block` may answer: an extent of `n` blocks, a hole, an error. -/
inductive GetBlock where
  | extent (phys n : Nat)
  | hole
  | error (e : Int)
deriving DecidableEq

/-- A hole and an error leave `b_size` as it was asked. -/
def GetBlock.result (blkbits asked : Nat) : GetBlock → BhResult
  | .extent phys n => ⟨0, phys, n * 2 ^ blkbits⟩
  | .hole => ⟨0, 0, asked⟩
  | .error e => ⟨e, 0, asked⟩

def GetBlock.isError : GetBlock → Bool
  | .error _ => true
  | _ => false

/-- What the surroundings answer while one request is served: the cached block,
    the result of `vfs_fsync`, and the result of the `k`-th `get_block`. -/
structure Answers where
  cur : Option Nat
  fsyncRet : Int
  getBlock : Nat → GetBlock

/-- The state counts the calls of `get_block`. -/
def answersHandler (a : Answers) (blkbits : Nat) : Handler ThreadSig Nat
  | .fsync, k => some (a.fsyncRet, k)
  | .findCacheNode _, k => some (a.cur, k)
  | .getBlock _ asked _, k => some ((a.getBlock k).result blkbits asked, k + 1)
  | .setDirty, k => some ((), k)
  | .clearDirty, k => some ((), k)
  | .storeError _, k => some ((), k)
  | .storePhys _, k => some ((), k)
  | .complete, k => some ((), k)
  | .addCache _ _, k => some ((), k)
  | .spin, _ => none

/-- How far one answer moves the loop on. -/
def GetBlock.progress (prefetchBlocks : Int) (blkbits : Nat) (i : Int) : GetBlock → Int
  | .extent _ n => n
  | .hole => if 0 < gotNum (askedSize prefetchBlocks i blkbits) blkbits then 1 else 0
  | .error _ => 0

section Positions

variable (prefetchBlocks : Int) (blkbits : Nat) (a : Answers)

/-- The value of `i` at the `k`-th call of `get_block`. -/
def position : Nat → Int
  | 0 => 0
  | k + 1 => position k + (a.getBlock k).progress prefetchBlocks blkbits (position k)

/-- The `k`-th call is made. -/
def Reached (k : Nat) : Prop :=
  (∀ j < k, (a.getBlock j).isError = false)
    ∧ position prefetchBlocks blkbits a k < prefetchBlocks

/-- The answers that `get_block` may give: an extent is not empty and not longer
    than what was asked for. -/
def Valid : Prop :=
  ∀ k, Reached prefetchBlocks blkbits a k → match a.getBlock k with
    | .extent phys n => phys ≠ 0 ∧ 1 ≤ n
        ∧ (n : Int) ≤ prefetchBlocks - position prefetchBlocks blkbits a k
    | .hole => True
    | .error e => e ≠ 0

end Positions

theorem progress_nonneg (prefetchBlocks : Int) (blkbits : Nat) (i : Int)
    (b : GetBlock) : 0 ≤ b.progress prefetchBlocks blkbits i := by
  cases b with
  | extent phys n => exact Int.natCast_nonneg n
  | hole =>
    rw [GetBlock.progress]
    split
    · exact Int.one_nonneg
    · exact Int.le_refl 0
  | error e => exact Int.le_refl 0

section Serving

variable {prefetchBlocks : Int} {blkbits : Nat} {a : Answers}

variable (prefetchBlocks blkbits a) in
/-- The loop never moves back. -/
theorem position_mono {j k : Nat} (hjk : j ≤ k) :
    position prefetchBlocks blkbits a j ≤ position prefetchBlocks blkbits a k := by
  induction hjk with
  | refl => exact Int.le_refl _
  | step _ ih =>
    exact Int.le_trans ih (Int.le_add_of_nonneg_right (progress_nonneg _ _ _ _))

variable (prefetchBlocks blkbits a) in
theorem position_nonneg (k : Nat) : 0 ≤ position prefetchBlocks blkbits a k :=
  position_mono prefetchBlocks blkbits a (Nat.zero_le k)

theorem Reached.of_le {j k : Nat} (hk : Reached prefetchBlocks blkbits a k)
    (hjk : j ≤ k) : Reached prefetchBlocks blkbits a j :=
  ⟨fun i hi => hk.1 i (lt_of_lt_of_le hi hjk), Int.lt_of_le_of_lt (position_mono _ _ _ hjk) hk.2⟩

end Serving

/-- A value in the range of an `int` keeps it. -/
theorem bmod_int32 {n : Int} (hl : -2 ^ 31 ≤ n) (hu : n < 2 ^ 31) : Int.bmod n (2 ^ 32) = n := by
  apply Int.bmod_eq_of_le
  · norm_num
    norm_num at hl
    exact hl
  · norm_num
    norm_num at hu
    exact hu

/-- An extent of fewer than `2^31` blocks keeps its length. -/
theorem gotNum_mul {n blkbits : Nat} (hn : (n : Int) < 2 ^ 31) :
    gotNum (n * 2 ^ blkbits) blkbits = n := by
  have hdiv : n * 2 ^ blkbits / 2 ^ blkbits = n :=
    Nat.mul_div_cancel n (Nat.two_pow_pos blkbits)
  unfold gotNum
  rw [hdiv]
  exact bmod_int32 (by omega) hn

/-! ## What serving does to the request -/

/-- The requests that write to the `cio_req` or end the wait for it. -/
def ThreadReq.touchesCio : ThreadReq → Bool
  | .storeError _ => true
  | .storePhys _ => true
  | .complete => true
  | _ => false

/-- Nothing in the list touches the request. -/
def Quiet (l : List ThreadReq) : Prop := ∀ q ∈ l, q.touchesCio = false

theorem Quiet.nil : Quiet [] := nofun

theorem Quiet.cons {q : ThreadReq} {l : List ThreadReq}
    (hq : q.touchesCio = false) (hl : Quiet l) : Quiet (q :: l) := by
  intro x hx
  rcases mem_cons.mp hx with rfl | htail
  · exact hq
  · exact hl x htail

theorem Quiet.append {l l' : List ThreadReq} (h : Quiet l) (h' : Quiet l') : Quiet (l ++ l') := by
  intro q hq
  rcases mem_append.mp hq with hl | hr
  · exact h q hl
  · exact h' q hr

theorem Quiet.complete_not_mem {l : List ThreadReq} (h : Quiet l) :
    ThreadReq.complete ∉ l := fun hmem => nomatch h _ hmem

/-- The request is completed once, after its fields were stored for the last time.
    `needPhys` asks that a request without error has its `blk_phy`. -/
def AnsweredOnce (needPhys : Bool) (l : List ThreadReq) : Prop :=
  ∃ before after, l = before ++ ThreadReq.complete :: after
    ∧ ThreadReq.complete ∉ before ∧ Quiet after
    ∧ ∃ e, ThreadReq.storeError e ∈ before
      ∧ (needPhys = true → e = 0 → ∃ p, ThreadReq.storePhys p ∈ before)

theorem AnsweredOnce.count {needPhys : Bool} {l : List ThreadReq}
    (h : AnsweredOnce needPhys l) : l.count ThreadReq.complete = 1 := by
  obtain ⟨before, after, rfl, hb, ha, -⟩ := h
  rw [count_append, count_cons_self, count_eq_zero_of_not_mem hb,
    count_eq_zero_of_not_mem ha.complete_not_mem]

theorem AnsweredOnce.stored {needPhys : Bool} {l : List ThreadReq}
    (h : AnsweredOnce needPhys l) : ∃ e, ThreadReq.storeError e ∈ l
      ∧ (needPhys = true → e = 0 → ∃ p, ThreadReq.storePhys p ∈ l) := by
  obtain ⟨before, after, rfl, -, -, e, he, hp⟩ := h
  refine ⟨e, mem_append_left _ he, fun hn h0 => ?_⟩
  obtain ⟨p, hp'⟩ := hp hn h0
  exact ⟨p, mem_append_left _ hp'⟩

/-- Quiet steps before an answer do not matter. -/
theorem AnsweredOnce.cons_quiet {needPhys : Bool} {l q : List ThreadReq}
    (h : AnsweredOnce needPhys l) (hq : Quiet q) :
    AnsweredOnce needPhys (q ++ l) := by
  obtain ⟨before, after, rfl, hb, ha, e, he, hp⟩ := h
  refine ⟨q ++ before, after, (append_assoc _ _ _).symm, ?_, ha, e, mem_append_right q he, ?_⟩
  · intro hmem
    rcases mem_append.mp hmem with hl | hr
    · exact hq.complete_not_mem hl
    · exact hb hr
  · intro hn h0
    obtain ⟨p, hp'⟩ := hp hn h0
    exact ⟨p, mem_append_right q hp'⟩

/-- The steps of `answer`. -/
def answerSteps (p : Nat) : List ThreadReq :=
  [.storeError 0, .storePhys p, .complete]

section Trace

variable (a : Answers) (blkbits : Nat)

/-- The steps of a service, from the `k`-th call of `get_block` on. -/
def steps (p : Prog ThreadSig Unit) (k : Nat) : List ThreadReq :=
  trace (answersHandler a blkbits) p k

variable {a blkbits} in
theorem steps_bind {p q : Prog ThreadSig Unit} {k k' : Nat}
    (hp : run (answersHandler a blkbits) p k = some ((), k')) :
    steps a blkbits (p >>= fun _ => q) k
      = steps a blkbits p k ++ steps a blkbits q k' := trace_bind_some hp

theorem steps_getBlock (blk bSize : Nat) (create : Bool)
    (f : BhResult → Prog ThreadSig Unit) (k : Nat) :
    steps a blkbits (getBlock blk bSize create >>= f) k = .getBlock blk bSize create
        :: steps a blkbits (f ((a.getBlock k).result blkbits bSize)) (k + 1) :=
  trace_ask_some rfl

theorem run_answer (p k : Nat) : run (answersHandler a blkbits) (answer p) k = some ((), k) := rfl

theorem steps_answer (p k : Nat) : steps a blkbits (answer p) k = answerSteps p := rfl

/-- Setting the dirty bit is none of the request's business. -/
theorem setDirty_quiet (create : Bool) (k : Nat) :
    run (answersHandler a blkbits) (onlyIf (create = true) setDirty) k = some ((), k)
      ∧ Quiet (steps a blkbits (onlyIf (create = true) setDirty) k) := by
  cases create
  · exact ⟨rfl, Quiet.nil⟩
  · exact ⟨rfl, Quiet.nil.cons rfl⟩

/-- Past its first block, or past the first extent, the inner loop only inserts. -/
theorem cacheExtent_quiet (first : Bool) (blkStart bBlocknr n j k : Nat)
    (h : first = false ∨ 0 < j) :
    run (answersHandler a blkbits) (cacheExtent first blkStart bBlocknr n j) k = some ((), k)
      ∧ Quiet (steps a blkbits (cacheExtent first blkStart bBlocknr n j) k) := by
  induction n generalizing j with
  | zero => exact ⟨rfl, Quiet.nil⟩
  | succ n ih =>
    have hno : ¬ (first = true ∧ j = 0) := by
      rintro ⟨hf, h0⟩
      rcases h with h' | h'
      · rw [hf] at h'
        exact Bool.noConfusion h'
      · omega
    obtain ⟨hrun, hq⟩ := ih (j + 1) (.inr (Nat.succ_pos j))
    rw [cacheExtent, onlyIf_neg hno]
    exact ⟨hrun, hq.cons rfl⟩

/-- The first extent: the requester is answered before anything is cached. -/
theorem cacheExtent_first {n : Nat} (blkStart bBlocknr k : Nat) (hn : 1 ≤ n) :
    run (answersHandler a blkbits) (cacheExtent true blkStart bBlocknr n 0) k = some ((), k)
      ∧ ∃ q, Quiet q ∧ steps a blkbits (cacheExtent true blkStart bBlocknr n 0) k
          = answerSteps bBlocknr ++ q := by
  obtain ⟨n, rfl⟩ : ∃ n', n = n' + 1 := ⟨n - 1, by omega⟩
  obtain ⟨hrun, hq⟩ := cacheExtent_quiet a blkbits true blkStart bBlocknr n 1 k (.inr Nat.one_pos)
  refine ⟨hrun, ThreadReq.addCache (bBlocknr + 0) (blkStart + 0) :: steps a blkbits
      (cacheExtent true blkStart bBlocknr n 1) k, hq.cons rfl, rfl⟩

/-! ## One round of the prefetch loop -/

/-- The steps of a round that is not an error: the requester is answered when
    the loop leaves `i = 0`, and only then. -/
def RoundSteps (i i' : Int) (l : List ThreadReq) : Prop :=
  (Quiet l ∧ (i ≠ 0 ∨ i' = 0)) ∨
    (i = 0 ∧ 0 < i' ∧ ∃ q q' p, Quiet q ∧ Quiet q' ∧ l = q ++ answerSteps p ++ q')

/-- A round that is not an error. -/
theorem trace_afterGetBlock {prefetchBlocks : Int} {g : GetBlock} {i : Int}
    (hi : 0 ≤ i) (hP : prefetchBlocks < 2 ^ 31)
    (hg : match g with
      | .extent phys n => phys ≠ 0 ∧ 1 ≤ n ∧ (n : Int) ≤ prefetchBlocks - i
      | .hole => True
      | .error _ => False)
    (create : Bool) (next : Int → Nat → Prog ThreadSig Unit) (blk k : Nat) :
    ∃ l blk', steps a blkbits (afterGetBlock blkbits create next i blk
          (g.result blkbits (askedSize prefetchBlocks i blkbits))) k
        = l ++ steps a blkbits (next (i + g.progress prefetchBlocks blkbits i) blk') k
      ∧ RoundSteps i (i + g.progress prefetchBlocks blkbits i) l := by
  obtain ⟨hdrun, hdq⟩ := setDirty_quiet a blkbits create k
  cases g with
  | error e => exact hg.elim
  | extent phys n =>
    obtain ⟨hphys, hn, hle⟩ := hg
    have hgot : gotNum (n * 2 ^ blkbits) blkbits = n := gotNum_mul (by omega)
    rw [GetBlock.result, afterGetBlock_extent hphys hgot, GetBlock.progress, steps_bind hdrun]
    by_cases h0 : i = 0
    · obtain ⟨hrun, q, hq, htr⟩ := cacheExtent_first a blkbits blk phys k hn
      rw [show decide (i = 0) = true from decide_eq_true h0, steps_bind hrun, htr]
      refine ⟨_, blk + n, (append_assoc _ _ _).symm, ?_⟩
      exact .inr ⟨h0, by omega, _, q, phys, hdq, hq, (append_assoc _ _ _).symm⟩
    · obtain ⟨hrun, hq⟩ := cacheExtent_quiet a blkbits (decide (i = 0)) blk
        phys n 0 k (.inl (decide_eq_false h0))
      rw [steps_bind hrun]
      exact ⟨_, blk + n, (append_assoc _ _ _).symm, .inl ⟨hdq.append hq, .inl h0⟩⟩
  | hole =>
    rw [GetBlock.result, GetBlock.progress]
    by_cases hpos : 0 < gotNum (askedSize prefetchBlocks i blkbits) blkbits
    · rw [if_pos hpos, afterGetBlock_hole hpos, steps_bind hdrun]
      by_cases h0 : i = 0
      · rw [onlyIf_pos h0, steps_bind (run_answer a blkbits 0 k), steps_answer]
        refine ⟨_, blk + 1, (append_assoc _ _ _).symm, ?_⟩
        exact .inr ⟨h0, by omega, _, [], 0, hdq, Quiet.nil, (append_nil _).symm⟩
      · rw [onlyIf_neg h0]
        exact ⟨_, blk + 1, rfl, .inl ⟨hdq, .inl h0⟩⟩
    · rw [if_neg hpos, Int.add_zero, afterGetBlock_stuck hpos, steps_bind hdrun]
      refine ⟨_, blk, rfl, .inl ⟨hdq, ?_⟩⟩
      by_cases h0 : i = 0
      · exact .inr h0
      · exact .inl h0

variable {a blkbits} {prefetchBlocks : Int}

/-- A round of the loop that is not an error. -/
theorem trace_prefetchLoop_succ (hv : Valid prefetchBlocks blkbits a) (hP : prefetchBlocks < 2 ^ 31)
    {k : Nat} (hr : Reached prefetchBlocks blkbits a k) (hne : (a.getBlock k).isError = false)
    (create : Bool) (fuel blk : Nat) :
    ∃ l blk', steps a blkbits (prefetchLoop prefetchBlocks blkbits create (fuel + 1)
          (position prefetchBlocks blkbits a k) blk) k
        = l ++ steps a blkbits (prefetchLoop prefetchBlocks blkbits create fuel
            (position prefetchBlocks blkbits a (k + 1)) blk') (k + 1)
      ∧ RoundSteps (position prefetchBlocks blkbits a k)
          (position prefetchBlocks blkbits a (k + 1)) l := by
  have hg := hv k hr
  obtain ⟨l, blk', htr, hl⟩ := trace_afterGetBlock a blkbits
    (position_nonneg prefetchBlocks blkbits a k) hP
    (g := a.getBlock k)
    (by
      cases hk : a.getBlock k with
      | extent phys n => rw [hk] at hg; exact hg
      | hole => trivial
      | error e => rw [hk] at hne; exact Bool.noConfusion hne)
    create (prefetchLoop prefetchBlocks blkbits create fuel) blk (k + 1)
  refine ⟨.getBlock blk (askedSize prefetchBlocks
    (position prefetchBlocks blkbits a k) blkbits) create :: l, blk', ?_, ?_⟩
  · rw [prefetchLoop, if_pos hr.2, steps_getBlock a blkbits, htr]
    rfl
  · rcases hl with ⟨hq, hi⟩ | ⟨h0, h1, q, q', p, hq, hq', rfl⟩
    · exact .inl ⟨hq.cons rfl, hi⟩
    · exact .inr ⟨h0, h1, _ :: q, q', p, hq.cons rfl, hq', rfl⟩

/-- A round that is an error. -/
theorem trace_prefetchLoop_error {e : Int} {k : Nat} (hr : Reached prefetchBlocks blkbits a k)
    (he : a.getBlock k = .error e) (hne : e ≠ 0) (create : Bool) (fuel blk : Nat) :
    steps a blkbits (prefetchLoop prefetchBlocks blkbits create (fuel + 1)
        (position prefetchBlocks blkbits a k) blk) k
      = [.getBlock blk (askedSize prefetchBlocks
          (position prefetchBlocks blkbits a k) blkbits) create,
         .storeError e, .complete] := by
  rw [prefetchLoop, if_pos hr.2]
  rw [steps_getBlock a blkbits, he, GetBlock.result, afterGetBlock_error hne]
  rfl

/-! ## Whole services -/

theorem forall_lt_succ {P : Nat → Prop} {k : Nat} (h : ∀ j < k, P j)
    (hk : P k) : ∀ j < k + 1, P j := by
  intro j hj
  rcases Nat.lt_succ_iff_lt_or_eq.mp hj with hlt | rfl
  · exact h j hlt
  · exact hk

section

variable (hv : Valid prefetchBlocks blkbits a) (hP : prefetchBlocks < 2 ^ 31) (create : Bool)
include hv hP create

/-- As long as no call fails, and none moves the loop on from its first block,
    nothing touches the request. -/
theorem quiet_prefetchLoop :
    ∀ (fuel k blk : Nat), (∀ j < k, (a.getBlock j).isError = false) →
      (∀ j, k ≤ j → Reached prefetchBlocks blkbits a j → (a.getBlock j).isError = false
          ∧ (0 < position prefetchBlocks blkbits a j
            ∨ position prefetchBlocks blkbits a (j + 1) = 0)) →
      Quiet (steps a blkbits (prefetchLoop prefetchBlocks blkbits create fuel
          (position prefetchBlocks blkbits a k) blk) k) := by
  intro fuel
  induction fuel with
  | zero =>
    intro k blk _ _
    rw [prefetchLoop]
    split <;> exact Quiet.nil
  | succ fuel ih =>
    intro k blk hne hlater
    by_cases hlt : position prefetchBlocks blkbits a k < prefetchBlocks
    · have hr : Reached prefetchBlocks blkbits a k := ⟨hne, hlt⟩
      obtain ⟨hk, hstay⟩ := hlater k (le_refl k) hr
      obtain ⟨l, blk', htr, hl⟩ :=
        trace_prefetchLoop_succ hv hP hr hk create fuel blk
      rw [htr]
      rcases hl with ⟨hq, -⟩ | ⟨h0, hpos, -⟩
      · exact hq.append (ih (k + 1) blk' (forall_lt_succ hne hk) fun j hj => hlater j (by omega))
      · omega
    · rw [prefetchLoop, if_neg hlt]
      exact Quiet.nil

/-- The request is answered once when some call fails or moves the loop on, and
    no call fails after that. -/
theorem answeredOnce_of_progress {k₀ : Nat}
    (hr₀ : Reached prefetchBlocks blkbits a k₀)
    (hmove : (a.getBlock k₀).isError = true ∨ 0 < position prefetchBlocks blkbits a (k₀ + 1))
    (hok : ∀ k, Reached prefetchBlocks blkbits a k →
      (a.getBlock k).isError = true → position prefetchBlocks blkbits a k = 0) :
    ∀ (fuel k blk : Nat), k₀ < fuel + k → k ≤ k₀ → position prefetchBlocks blkbits a k = 0 →
      AnsweredOnce true (steps a blkbits (prefetchLoop prefetchBlocks blkbits create fuel
          (position prefetchBlocks blkbits a k) blk) k) := by
  intro fuel
  induction fuel with
  | zero =>
    intro k blk hlt hle
    omega
  | succ fuel ih =>
    intro k blk hfuel hle h0
    have hr := hr₀.of_le hle
    cases hk : a.getBlock k with
    | error e =>
      have he : e ≠ 0 := by
        have := hv k hr
        rw [hk] at this
        exact this
      rw [trace_prefetchLoop_error hr hk he]
      exact ⟨[.getBlock _ _ _, .storeError e], [], rfl, by simp, Quiet.nil,
        e, by simp, fun _ h => absurd h he⟩
    | _ =>
      have hne : (a.getBlock k).isError = false := by rw [hk]; rfl
      obtain ⟨l, blk', htr, hl⟩ :=
        trace_prefetchLoop_succ hv hP hr hne create fuel blk
      rw [htr]
      rcases hl with ⟨hq, hi⟩ | ⟨-, hpos, q, q', p, hq, hq', rfl⟩
      · -- the round is made again
        have h1 : position prefetchBlocks blkbits a (k + 1) = 0 :=
          hi.resolve_left (fun hc => hc h0)
        have hlt : k < k₀ := by
          rcases Nat.lt_or_eq_of_le hle with hlt | rfl
          · exact hlt
          · rcases hmove with he | hp
            · rw [hne] at he
              exact Bool.noConfusion he
            · omega
        exact (ih (k + 1) blk' (by omega) hlt h1).cons_quiet hq
      · -- the loop leaves its first block
        have hquiet := quiet_prefetchLoop hv hP create fuel (k + 1) blk'
          (forall_lt_succ hr.1 hne) (by
            intro j hj hrj
            have hpos' := Int.lt_of_lt_of_le hpos (position_mono prefetchBlocks blkbits a hj)
            refine ⟨?_, .inl hpos'⟩
            by_contra hej
            have hz := hok j hrj (by simpa using hej)
            omega)
        have hans : AnsweredOnce true (answerSteps p ++ (q' ++ steps a blkbits
              (prefetchLoop prefetchBlocks blkbits create fuel
                (position prefetchBlocks blkbits a (k + 1)) blk')
              (k + 1))) :=
          ⟨[.storeError 0, .storePhys p], _, rfl, by simp,
            hq'.append hquiet, 0, by simp, fun _ _ => ⟨p, by simp⟩⟩
        have := hans.cons_quiet hq
        simpa [append_assoc] using this

/-- A call that fails after the requester has been answered completes the request once more. -/
theorem completed_again {k₁ : Nat} (hr₁ : Reached prefetchBlocks blkbits a k₁)
    (herr : (a.getBlock k₁).isError = true) (hpos : 0 < position prefetchBlocks blkbits a k₁) :
    ∀ (fuel k blk : Nat), k₁ < fuel + k → k ≤ k₁ →
      (if position prefetchBlocks blkbits a k = 0 then 2 else 1) ≤ (steps a blkbits
            (prefetchLoop prefetchBlocks blkbits create fuel
              (position prefetchBlocks blkbits a k) blk) k).count .complete := by
  intro fuel
  induction fuel with
  | zero =>
    intro k blk hlt hle
    omega
  | succ fuel ih =>
    intro k blk hfuel hle
    have hr := hr₁.of_le hle
    rcases Nat.lt_or_eq_of_le hle with hlt | rfl
    · have hne := hr₁.1 k hlt
      obtain ⟨l, blk', htr, hl⟩ :=
        trace_prefetchLoop_succ hv hP hr hne create fuel blk
      have hrest := ih (k + 1) blk' (by omega) hlt
      rw [htr, count_append]
      rcases hl with ⟨-, hi⟩ | ⟨h0, h1, q, q', p, -, -, rfl⟩
      · rcases hi with hi | hi
        · rw [if_neg hi]
          split at hrest <;> omega
        · rw [if_pos hi] at hrest
          split <;> omega
      · rw [if_pos h0]
        rw [if_neg (by omega)] at hrest
        have hone : 1 ≤ (q ++ answerSteps p ++ q').count .complete := by
          rw [Nat.one_le_iff_ne_zero, ne_eq, count_eq_zero]
          simp [answerSteps]
        omega
    · rw [if_neg (by omega)]
      cases hk : a.getBlock k with
      | error e =>
        have he : e ≠ 0 := by
          have := hv k hr
          rw [hk] at this
          exact this
        rw [trace_prefetchLoop_error hr hk he]
        simp
      | _ =>
        rw [hk] at herr
        exact Bool.noConfusion herr

end

end Trace

/-- The two kinds of request on the list. -/
inductive Asked where
  | translation (blk : Nat) (flag : ReqFlags)
  | flush (blk : Nat) (flag : ReqFlags)

/-- The request as the requester fills it in. -/
def Asked.cio (prefetchBlocks : Int) : Asked → CioReq
  | .translation blk flag => translationCio prefetchBlocks blk flag
  | .flush blk flag => flushCio blk flag

/-- A translation is asked for a physical block. -/
def Asked.needPhys : Asked → Bool
  | .translation _ _ => true
  | .flush _ _ => false

/-- However long the thread goes on, the request is completed once, with its
    fields stored before and left alone after. -/
def ServedOnce (prefetchBlocks : Int) (blkbits : Nat) (a : Answers) (asked : Asked) : Prop :=
  ∃ fuel₀, ∀ fuel ≥ fuel₀, AnsweredOnce asked.needPhys (steps a blkbits
      (serveCio prefetchBlocks blkbits fuel (asked.cio prefetchBlocks)) 0)

/-- When a request is served once.  A translation with `prefetch_blocks = -1` passes for a
    flush and is served when that fails; with no blocks to prefetch it is never served;
    otherwise a cached block is, and a block that is not cached is when some call of
    `get_block` answers it and no call fails once it has been answered. -/
def ServedWhen (prefetchBlocks : Int) (blkbits : Nat) (a : Answers) : Asked → Prop
  | .flush _ _ => True
  | .translation _ _ =>
    (prefetchBlocks = -1 ∧ a.fsyncRet ≠ 0) ∨
    (0 < prefetchBlocks ∧ (a.cur ≠ none ∨ ((∃ k, Reached prefetchBlocks blkbits a k ∧
            ((a.getBlock k).isError = true
              ∨ 0 < position prefetchBlocks blkbits a (k + 1))) ∧
          ∀ k, Reached prefetchBlocks blkbits a k → (a.getBlock k).isError = true →
            position prefetchBlocks blkbits a k = 0)))

section Served

variable {prefetchBlocks : Int} {blkbits : Nat} {a : Answers}

variable (prefetchBlocks blkbits a) in
/-- The steps of a flush. -/
theorem steps_flush {cio : CioReq} (h : cio.blkNum = -1) (fuel : Nat) :
    steps a blkbits (serveCio prefetchBlocks blkbits fuel cio) 0
      = [.fsync, .storeError a.fsyncRet, .clearDirty, .complete] ∧ a.fsyncRet = 0 ∨
    steps a blkbits (serveCio prefetchBlocks blkbits fuel cio) 0
      = [.fsync, .storeError a.fsyncRet, .complete] ∧ a.fsyncRet ≠ 0 := by
  have hst : steps a blkbits (serveCio prefetchBlocks blkbits fuel cio) 0
      = .fsync :: .storeError a.fsyncRet :: steps a blkbits
          (onlyIf (a.fsyncRet = 0) clearDirty >>= fun _ => complete) 0 := by
    rw [serveCio, if_pos h]
    rfl
  rw [hst]
  by_cases h0 : a.fsyncRet = 0
  · rw [onlyIf_pos h0]
    exact .inl ⟨rfl, h0⟩
  · rw [onlyIf_neg h0]
    exact .inr ⟨rfl, h0⟩

/-- A flush completes its request, but never stores a physical block. -/
theorem answeredOnce_flush {cio : CioReq} (h : cio.blkNum = -1) (fuel : Nat) (needPhys : Bool) :
    AnsweredOnce needPhys (steps a blkbits (serveCio prefetchBlocks blkbits fuel cio) 0)
      ↔ needPhys = false ∨ a.fsyncRet ≠ 0 := by
  rcases steps_flush prefetchBlocks blkbits a h fuel with ⟨hst, h0⟩ | ⟨hst, h0⟩
  · rw [hst]
    constructor
    · intro hans
      obtain ⟨e, he, hp⟩ := hans.stored
      left
      by_contra hn
      have he0 : e = 0 := by simpa [h0] using he
      obtain ⟨p, hp'⟩ := hp (by simpa using hn) he0
      simp at hp'
    · intro hor
      rcases hor with hn | hne
      · exact ⟨[.fsync, .storeError a.fsyncRet, .clearDirty], [], rfl, by simp,
          Quiet.nil, a.fsyncRet, by simp, fun ht => by rw [hn] at ht; cases ht⟩
      · exact absurd h0 hne
  · rw [hst]
    refine ⟨fun _ => .inr h0, fun _ => ?_⟩
    exact ⟨[.fsync, .storeError a.fsyncRet], [], rfl, by simp, Quiet.nil,
      a.fsyncRet, by simp, fun _ he => absurd he h0⟩

variable (blkbits a) in
/-- A translation that is not mistaken for a flush. -/
theorem steps_translation (blk fuel : Nat) (flag : ReqFlags) (h : prefetchBlocks ≠ -1) :
    steps a blkbits (serveCio prefetchBlocks blkbits fuel
        (translationCio prefetchBlocks blk flag)) 0
      = .findCacheNode blk :: steps a blkbits
          (afterLookup prefetchBlocks blkbits fuel flag.write blk a.cur) 0 := by
  rw [serveCio, if_neg (show (translationCio prefetchBlocks blk flag).blkNum ≠ -1 from h)]
  rfl

theorem not_answeredOnce_of_quiet {needPhys : Bool} {l : List ThreadReq}
    (hq : Quiet l) : ¬ AnsweredOnce needPhys l := by
  intro hans
  have hcount := hans.count
  rw [count_eq_zero_of_not_mem hq.complete_not_mem] at hcount
  exact Nat.zero_ne_one hcount

/-- A translation of a cached block. -/
theorem answeredOnce_cached {blk p fuel : Nat} {flag : ReqFlags}
    (h : prefetchBlocks ≠ -1) (hc : a.cur = some p) :
    AnsweredOnce true (steps a blkbits (serveCio prefetchBlocks blkbits fuel
        (translationCio prefetchBlocks blk flag)) 0) ↔ 0 < prefetchBlocks := by
  rw [steps_translation blkbits a blk fuel flag h, hc, afterLookup]
  by_cases hpos : 0 < prefetchBlocks
  · rw [onlyIf_pos hpos, steps_answer]
    refine ⟨fun _ => hpos, fun _ => ?_⟩
    exact ⟨[.findCacheNode blk, .storeError 0, .storePhys p], [], rfl, by simp,
      Quiet.nil, 0, by simp, fun _ _ => ⟨p, by simp⟩⟩
  · rw [onlyIf_neg hpos]
    refine ⟨fun hans => ?_, fun h0 => absurd h0 hpos⟩
    exact absurd hans (not_answeredOnce_of_quiet (Quiet.nil.cons rfl))

/-- A translation of a block that is not cached. -/
theorem servedOnce_miss {blk : Nat} {flag : ReqFlags} (h : prefetchBlocks ≠ -1)
    (hP : prefetchBlocks < 2 ^ 31) (hc : a.cur = none) (hv : Valid prefetchBlocks blkbits a) :
    ServedOnce prefetchBlocks blkbits a (.translation blk flag) ↔ 0 < prefetchBlocks ∧
        (∃ k, Reached prefetchBlocks blkbits a k ∧ ((a.getBlock k).isError = true
            ∨ 0 < position prefetchBlocks blkbits a (k + 1))) ∧
        ∀ k, Reached prefetchBlocks blkbits a k → (a.getBlock k).isError = true →
          position prefetchBlocks blkbits a k = 0 := by
  have hst : ∀ fuel, steps a blkbits (serveCio prefetchBlocks blkbits fuel
      ((Asked.translation blk flag).cio prefetchBlocks)) 0
      = .findCacheNode blk :: steps a blkbits (prefetchLoop prefetchBlocks
          blkbits flag.write fuel (position prefetchBlocks blkbits a 0) blk)
          0 := by
    intro fuel
    have := steps_translation blkbits a blk fuel flag h
    rwa [hc] at this
  constructor
  · rintro ⟨fuel₀, hall⟩
    have hnoerr : ∀ j < 0, (a.getBlock j).isError = false :=
      fun j hj => absurd hj (Nat.not_lt_zero j)
    refine ⟨?_, ?_, ?_⟩
    · -- without blocks to prefetch the loop is not entered
      by_contra hneg
      refine not_answeredOnce_of_quiet ?_ (hall (fuel₀ + 1) (by omega))
      rw [hst, prefetchLoop, if_neg (show ¬ position prefetchBlocks blkbits a 0
        < prefetchBlocks from hneg)]
      exact Quiet.nil.cons rfl
    · -- without an answer nothing touches the request
      by_contra hno
      refine not_answeredOnce_of_quiet ?_ (hall fuel₀ (Nat.le_refl _))
      rw [hst]
      refine (quiet_prefetchLoop hv hP flag.write fuel₀ 0 blk hnoerr ?_).cons rfl
      intro k _ hr
      have hk : (a.getBlock k).isError = false := by
        by_contra he
        exact hno ⟨k, hr, .inl (by simpa using he)⟩
      refine ⟨hk, .inr ?_⟩
      have := position_nonneg prefetchBlocks blkbits a (k + 1)
      by_contra hne
      exact hno ⟨k, hr, .inr (by omega)⟩
    · -- a late failure completes the request a second time
      intro k hr he
      by_contra hne
      have hpos : 0 < position prefetchBlocks blkbits a k := by
        have := position_nonneg prefetchBlocks blkbits a k
        omega
      have htwo := completed_again hv hP flag.write hr he hpos
        (fuel₀ + k + 1) 0 blk (by omega) (Nat.zero_le k)
      have hone := (hall (fuel₀ + k + 1) (by omega)).count
      rw [hst, count_cons_of_ne (by simp)] at hone
      rw [if_pos (show position prefetchBlocks blkbits a 0 = 0 from rfl)] at htwo
      omega
  · rintro ⟨-, ⟨k₀, hr₀, hmove⟩, hok⟩
    refine ⟨k₀ + 1, fun fuel hfuel => ?_⟩
    rw [hst]
    exact (answeredOnce_of_progress hv hP flag.write hr₀ hmove hok fuel 0 blk
      (by omega) (Nat.zero_le _) rfl).cons_quiet (Quiet.nil.cons rfl)

theorem loopInit_lt {param : Int} (h : -2 ^ 31 ≤ param ∧ param < 2 ^ 31) :
    loopInit param < 2 ^ 31 := by
  have habs : (loopInit param).natAbs = param.natAbs / 4 :=
    Int.natAbs_tdiv param 4
  omega

/-- A request on the list is served once exactly in the cases of `ServedWhen`. -/
theorem servedOnce_iff (param : Int) (hparam : -2 ^ 31 ≤ param ∧ param < 2 ^ 31) (blkbits : Nat)
    (a : Answers) (hv : Valid (loopInit param) blkbits a) (asked : Asked) :
    ServedOnce (loopInit param) blkbits a asked
      ↔ ServedWhen (loopInit param) blkbits a asked := by
  have hP := loopInit_lt hparam
  generalize loopInit param = P at hv hP
  cases asked with
  | flush blk flag =>
    refine ⟨fun _ => trivial, fun _ => ⟨0, fun fuel _ => ?_⟩⟩
    exact (answeredOnce_flush rfl fuel false).mpr (Or.inl rfl)
  | translation blk flag =>
    by_cases hneg : P = -1
    · -- the request passes for a flush
      have hflush : ∀ fuel, AnsweredOnce true (steps a blkbits
          (serveCio P blkbits fuel (translationCio P blk flag)) 0)
          ↔ a.fsyncRet ≠ 0 := by
        intro fuel
        rw [answeredOnce_flush hneg]
        simp
      constructor
      · rintro ⟨fuel₀, h⟩
        exact Or.inl ⟨hneg, (hflush fuel₀).mp (h fuel₀ (Nat.le_refl _))⟩
      · rintro (⟨-, hne⟩ | ⟨hpos, -⟩)
        · exact ⟨0, fun fuel _ => (hflush fuel).mpr hne⟩
        · omega
    · have hwhen : ServedWhen P blkbits a (.translation blk flag) ↔ 0 < P ∧ (a.cur ≠ none ∨
            ((∃ k, Reached P blkbits a k ∧ ((a.getBlock k).isError = true
              ∨ 0 < position P blkbits a (k + 1))) ∧
            ∀ k, Reached P blkbits a k → (a.getBlock k).isError = true →
              position P blkbits a k = 0)) :=
        ⟨fun h => h.resolve_left (fun hc => hneg hc.1), Or.inr⟩
      rw [hwhen]
      cases hc : a.cur with
      | none =>
        rw [servedOnce_miss hneg hP hc hv]
        simp
      | some p =>
        constructor
        · rintro ⟨fuel₀, h⟩
          have := (answeredOnce_cached hneg hc).mp (h fuel₀ (Nat.le_refl _))
          exact ⟨this, Or.inl (by simp)⟩
        · rintro ⟨hpos, -⟩
          exact ⟨0, fun fuel _ => (answeredOnce_cached hneg hc).mpr hpos⟩

end Served

/-- A miss that is answered by one extent of two blocks. -/
def oneExtent : Answers where
  cur := none
  fsyncRet := 0
  getBlock := fun k => if k = 0 then .extent 100 2 else .hole

theorem servedOnce_iff_oneExtent :
    Valid (loopInit 8) 12 oneExtent ∧ ServedOnce (loopInit 8) 12 oneExtent
        (.translation 0 ⟨true, false, false⟩) := by
  have hv : Valid (loopInit 8) 12 oneExtent := by
    intro k _
    rcases k with _ | k
    · exact ⟨by decide, by decide, by decide⟩
    · trivial
  refine ⟨hv, (servedOnce_iff 8 (by decide) 12 oneExtent hv _).mpr ?_⟩
  refine Or.inr ⟨by decide, Or.inr ⟨⟨0, ⟨?_, by decide⟩, Or.inr (by decide)⟩, ?_⟩⟩
  · exact fun j hj => absurd hj (Nat.not_lt_zero j)
  · intro k _ he
    rcases k with _ | k
    · rfl
    · exact Bool.noConfusion he

/-- A miss whose first block is found, and whose prefetch then fails. -/
def lateError : Answers where
  cur := none
  fsyncRet := 0
  getBlock := fun k => if k = 0 then .extent 100 1 else .error (-5)

/-- The request of a requester that has gone on is written to and completed again. -/
theorem lateError_completed_twice :
    ¬ ServedOnce (loopInit 8) 12 lateError (.translation 0 ⟨true, false, false⟩) := by
  have hv : Valid (loopInit 8) 12 lateError := by
    intro k _
    rcases k with _ | k
    · exact ⟨by decide, by decide, by decide⟩
    · exact (by decide : (-5 : Int) ≠ 0)
  have hr : Reached (loopInit 8) 12 lateError 1 := by
    refine ⟨?_, by decide⟩
    intro j hj
    obtain rfl : j = 0 := by omega
    rfl
  intro hserved
  have hlate := ((servedOnce_miss (by decide) (by decide) rfl hv).mp hserved).2.2 1 hr rfl
  exact absurd hlate (by decide)

end LoopThread
