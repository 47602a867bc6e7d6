import MultiLanes.ProgProofs
import MultiLanes.BioProofs

/-! # `redirect_bio` — the program

`redirect_bio` cuts a bio into slices addressed to the host device.  Here it is as an
interaction program over `LoopSig`: everything it learns from its surroundings (the
dirty bit, the mapping cache, the translation thread, `bio_alloc`, `bio_add_page`) is a
request, and so is everything it does to the bio it was given (`touch` is a read of one
of its fields, `bioEndio` ends it, `bioPut` drops the reference).

The two nested loops advance the cursors of `Cursor`.  Their bounds are explicit fuel: a
loop that outlives it makes the request `spin`, which nobody answers, so "the loops end"
is a theorem and not a convention. -/

namespace LoopRedirect

open InteractProg LoopBio

/-- `-EIO` and `-ENOMEM`. -/
def eio : Int := -5

/-- See `eio`. -/
def enomem : Int := -12

/-- `BIO_MAX_PAGES`. -/
def bioMaxPages : Nat := 256

/-- What the requester reads from its `cio_req` after the wait. -/
structure CioReply where
  error : Int
  blkPhy : Nat
deriving DecidableEq, Repr

/-- The requests of the bio path. -/
inductive LoopReq where
  /-- a field of the original bio is read -/
  | touch
  /-- `bio_endio(old_bio, error)` -/
  | bioEndio (error : Int)
  /-- `bio_put(old_bio)` -/
  | bioPut
  /-- `complete(&p->wait)` in `do_loop_switch` -/
  | switchDone
  /-- `test_bit(LOOP_DIRTY, ..)` -/
  | testDirty
  /-- `cio_make_request_flush`, answered by `cio.error` -/
  | flush (rw : ReqFlags)
  /-- `block_cache_lookup` -/
  | cacheLookup (blk : Nat)
  /-- `cio_make_request` -/
  | cioRequest (blk : Nat) (rw : ReqFlags)
  /-- `bio_alloc`: did it give a bio? -/
  | bioAlloc (nrPages : Nat)
  /-- `bio_add_page`: its return value and the bio after the call -/
  | addPage (bio : Bio) (page len off : Nat)
  /-- `submit_bio` of a slice; its completion runs `lo_end_bio`, which finds the
      number of slices, `head->nr_total`, by `bi_private` -/
  | submit (bio : Bio) (nrTotal : Nat)
  /-- `submit_bio` of the empty bio; its completion runs `sync_end_bio` -/
  | forward (rw : ReqFlags)
  /-- `LO_ASSERT` failed -/
  | bug
  /-- a loop has outlived its bound -/
  | spin

/-- The answers. -/
def LoopReq.Ans : LoopReq → Type
  | .testDirty => Bool
  | .flush _ => Int
  | .cacheLookup _ => Nat
  | .cioRequest _ _ => CioReply
  | .bioAlloc _ => Bool
  | .addPage _ _ _ _ => Nat × Bio
  | .bug => Empty
  | .spin => Empty
  | _ => Unit

/-- The signature of the bio path. -/
def LoopSig : Sig := ⟨LoopReq, LoopReq.Ans⟩

def touch : Prog LoopSig Unit := perform (S := LoopSig) LoopReq.touch

def bioEndio (error : Int) : Prog LoopSig Unit :=
  perform (S := LoopSig) (LoopReq.bioEndio error)

def testDirty : Prog LoopSig Bool := perform (S := LoopSig) LoopReq.testDirty

/-- `cio_make_request_flush`. -/
def cioMakeRequestFlush (rw : ReqFlags) : Prog LoopSig Int :=
  perform (S := LoopSig) (LoopReq.flush rw)

/-- `block_cache_lookup`. -/
def blockCacheLookup (blk : Nat) : Prog LoopSig Nat :=
  perform (S := LoopSig) (LoopReq.cacheLookup blk)

/-- `cio_make_request`. -/
def cioMakeRequest (blk : Nat) (rw : ReqFlags) : Prog LoopSig CioReply :=
  perform (S := LoopSig) (LoopReq.cioRequest blk rw)

def bioAlloc (nrPages : Nat) : Prog LoopSig Bool :=
  perform (S := LoopSig) (LoopReq.bioAlloc nrPages)

def bioAddPage (b : Bio) (page len off : Nat) : Prog LoopSig (Nat × Bio) :=
  perform (S := LoopSig) (LoopReq.addPage b page len off)

def submitBio (b : Bio) (nrTotal : Nat) : Prog LoopSig Unit :=
  perform (S := LoopSig) (LoopReq.submit b nrTotal)

def forwardBio (rw : ReqFlags) : Prog LoopSig Unit :=
  perform (S := LoopSig) (LoopReq.forward rw)

/-- A request without answers: the program stops here. -/
def stop {α : Type} (q : LoopReq) (h : q.Ans → False) : Prog LoopSig α :=
  .ask (S := LoopSig) q (fun x => (h x).elim)

def bugOn {α : Type} : Prog LoopSig α := stop .bug Empty.elim

def spin {α : Type} : Prog LoopSig α := stop .spin Empty.elim

/-- `lo_new_bio`: `nr_segs` is the `bi_vcnt` of the original bio. -/
def loNewBio (bd start : Nat) (old : Bio) : Prog LoopSig (Option Bio) := do
  touch
  let nrPages := min old.biIoVec.length bioMaxPages
  let ok ← bioAlloc nrPages
  if ok then
    return some
      { biBdev := some bd
        biSector := start
        biRw := old.biRw
        biIdx := 0
        biMaxVecs := nrPages
        biIoVec := [] }
  else
    return none

/-- The locals that the two loops of `redirect_bio` advance; `head` is the list `head->head`. -/
structure Cursor where
  secNrLogical : Nat
  nextSector : Nat
  nrTotalSectors : Nat
  count : Nat
  i : Nat
  page : Nat
  curPageOffset : Nat
  curPageLen : Nat
  newBio : Option Bio
  head : List Bio

/-- `if (cur_page_len == 0)`: go to the next segment of the original bio. -/
def Cursor.load (old : Bio) (c : Cursor) : Cursor :=
  let v := old.biIoVec.getD c.i default
  { c with
    page := v.bvPage
    curPageOffset := v.bvOffset
    curPageLen := v.bvLen
    i := c.i + 1 }

/-- The test and the load. -/
def loadSegment (old : Bio) (c : Cursor) : Prog LoopSig Cursor :=
  if c.curPageLen = 0 then do
    touch
    return c.load old
  else
    return c

/-- After a piece of `n` sectors: `cur_page_offset += n << 9`, `cur_page_len -= n << 9`. -/
def Cursor.advance (n : Nat) (c : Cursor) : Cursor :=
  { c with
    curPageOffset := c.curPageOffset + n * 512
    curPageLen := c.curPageLen - n * 512 }

/-- `lo_send_bio(head, new_bio)`. -/
def Cursor.loSendBio (b : Bio) (c : Cursor) : Cursor :=
  { c with head := c.head ++ [b] }

/-- One piece of the inner loop.  A refused piece closes the slice and is
    offered again to a fresh one, which starts at `sec_nr_phys`; `none` when the
    bio has been ended because no bio could be allocated. -/
def addPiece (bd : Nat) (old : Bio) (secNrPhys n : Nat) (nb : Bio)
    (c : Cursor) : Prog LoopSig (Option (Bio × Cursor)) := do
  let r ← bioAddPage nb c.page (n * 512) c.curPageOffset
  if r.1 = n * 512 then
    return some (r.2, c.advance n)
  else
    let fresh ← loNewBio bd secNrPhys old
    match fresh with
    | none =>
      bioEndio enomem
      return none
    | some fb =>
      let r' ← bioAddPage fb c.page (n * 512) c.curPageOffset
      if r'.1 = n * 512 then
        return some (r'.2, (c.loSendBio r.2).advance n)
      else
        bugOn

/-- The inner loop, `while (remaining_sectors > 0)`. -/
def fillBlock (bd : Nat) (old : Bio) (secNrPhys : Nat) :
    Nat → Nat → Bio → Cursor → Prog LoopSig (Option (Bio × Cursor))
  | _, 0, nb, c => return some (nb, c)
  | 0, _ + 1, _, _ => spin
  | fuel + 1, r + 1, nb, c => do
    let c ← loadSegment old c
    let toWritten := min (r + 1) (c.curPageLen / 512)
    let piece ← addPiece bd old secNrPhys toWritten nb c
    match piece with
    | none => return none
    | some (nb, c) => fillBlock bd old secNrPhys fuel (r + 1 - toWritten) nb c

/-- `block_cache_lookup`, and the translation thread on a miss; `none` when the
    translation failed and the bio has been ended. -/
def translateBlock (old : Bio) (blkLogical : Nat) : Prog LoopSig (Option Nat) := do
  let blkPhys ← blockCacheLookup blkLogical
  if blkPhys ≠ 0 then
    return some blkPhys
  else
    touch
    let cio ← cioMakeRequest blkLogical old.biRw
    if cio.error ≠ 0 then
      bioEndio eio
      return none
    else
      return some cio.blkPhy

/-- `if (count && sec_nr_phys != next_sector)`: close a slice that the block
    does not continue. -/
def Cursor.cut (secNrPhys : Nat) (c : Cursor) : Cursor :=
  if c.count ≠ 0 ∧ secNrPhys ≠ c.nextSector then
    { c with head := c.head ++ c.newBio.toList, newBio := none }
  else c

/-- `if (new_bio == NULL)`: open a slice. -/
def openSlice (bd secNrPhys : Nat) (old : Bio) (c : Cursor) : Prog LoopSig (Option Bio) :=
  match c.newBio with
  | some nb => return some nb
  | none => loNewBio bd secNrPhys old

/-- The outer loop, `while (nr_total_sectors > 0)`: one block of the backing file per round. -/
def blockLoop (bd blkbits : Nat) (old : Bio) : Nat → Cursor → Prog LoopSig (Option Cursor)
  | 0, c => if c.nrTotalSectors = 0 then return some c else spin
  | fuel + 1, c => do
    if c.nrTotalSectors = 0 then
      return some c
    else
      let spb := 2 ^ (blkbits - 9)
      let translated ← translateBlock old (c.secNrLogical / spb)
      match translated with
      | none => return none
      | some blkPhys =>
        let secNrPhys := blkPhys * spb + c.secNrLogical % spb
        let remaining := min c.nrTotalSectors (spb - c.secNrLogical % spb)
        let c := c.cut secNrPhys
        let opened ← openSlice bd secNrPhys old c
        match opened with
        | none =>
          bioEndio enomem
          return none
        | some nb =>
          let c := { c with
            count := c.count + 1
            nrTotalSectors := c.nrTotalSectors - remaining
            nextSector := secNrPhys + remaining
            secNrLogical := c.secNrLogical + remaining }
          let filled ← fillBlock bd old secNrPhys
            (remaining + old.biIoVec.length) remaining nb c
          match filled with
          | none => return none
          | some (nb, c) =>
            blockLoop bd blkbits old fuel { c with newBio := some nb }

/-- The locals before the outer loop. -/
def Cursor.start (old : Bio) : Cursor where
  secNrLogical := old.biSector
  nextSector := 0
  nrTotalSectors := old.nrSectors
  count := 0
  i := old.biIdx
  page := 0
  curPageOffset := 0
  curPageLen := 0
  newBio := none
  head := []

/-- The two loops and the last `lo_send_bio`: the slices on `head->head`. -/
def buildSlices (bd blkbits : Nat) (old : Bio) : Prog LoopSig (Option (List Bio)) := do
  let done ← blockLoop bd blkbits old old.nrSectors (.start old)
  match done with
  | none => return none
  | some c => return some (c.head ++ c.newBio.toList)

/-- The submission loop: `submit_bio(old_bio->bi_rw, lo_bio->bio)` for each slice. -/
def submitSlices (nrTotal : Nat) : List Bio → Prog LoopSig Unit
  | [] => return ()
  | s :: rest => do
    touch
    submitBio s nrTotal
    submitSlices nrTotal rest

/-- `loop_handle_bio`: only the magic bio of `loop_switch` has no device. -/
def loopHandleBio (old : Bio) : Prog LoopSig Unit := do
  touch
  if old.biBdev = none then
    let _ ← perform (S := LoopSig) LoopReq.switchDone
    let _ ← perform (S := LoopSig) LoopReq.bioPut
    return ()
  else
    return ()

/-- `cio.error = 0`, and the backing file's fsync when `LOOP_DIRTY` is set: the
    resulting `cio.error`. -/
def flushIfDirty (rw : ReqFlags) : Prog LoopSig Int := do
  let dirty ← testDirty
  if dirty then cioMakeRequestFlush rw else return 0

/-- A bio without data but with `REQ_FLUSH` or `REQ_FUA`. -/
def emptyFlush (old : Bio) : Prog LoopSig Unit := do
  let error ← flushIfDirty old.biRw
  if error ≠ 0 then
    bioEndio eio
  else do
    touch
    forwardBio old.biRw

/-- The flush before the data of a `REQ_FLUSH` bio; `false` when it failed and
    the bio has been ended. -/
def preFlush (old : Bio) : Prog LoopSig Bool := do
  touch
  if old.biRw.flush then
    let error ← flushIfDirty old.biRw
    if error ≠ 0 then
      bioEndio eio
      return false
    else
      return true
  else
    return true

/-- The flush after the submission of a `REQ_FUA` bio. -/
def fuaFlush (rw : ReqFlags) : Prog LoopSig Unit := do
  if rw.fua then
    let error ← flushIfDirty rw
    if error ≠ 0 then bioEndio error else return ()
  else
    return ()

/-- `if (count)`: submit the slices, or end a bio that has none. -/
def sendSlices (slices : List Bio) : Prog LoopSig Unit :=
  if slices = [] then bioEndio 0 else submitSlices slices.length slices

/-- From the first loop to the end; `old_bio_rw` is read before the slices are submitted. -/
def redirectData (bd blkbits : Nat) (old : Bio) : Prog LoopSig Unit := do
  let built ← buildSlices bd blkbits old
  match built with
  | none => return ()
  | some slices => do
    touch
    sendSlices slices
    fuaFlush old.biRw

/-- `redirect_bio`. -/
def redirectBio (bd blkbits : Nat) (old : Bio) : Prog LoopSig Unit := do
  loopHandleBio old
  touch
  if old.nrSectors = 0 ∧ (old.biRw.flush = true ∨ old.biRw.fua = true) then
    emptyFlush old
  else do
    let ok ← preFlush old
    if ok then redirectData bd blkbits old else return ()

/-! ## Runs, request by request

The requests under their source names: a run that meets one goes on from the handler's
answer. -/

section Runs

variable {σ α : Type} {h : Handler LoopSig σ} {s s' : σ}

theorem run_touch (hq : h LoopReq.touch s = some ((), s')) (f : Unit → Prog LoopSig α) :
    run h (touch >>= f) s = run h (f ()) s' := run_ask_some hq

theorem run_testDirty {d : Bool} (hq : h LoopReq.testDirty s = some (d, s'))
    (f : Bool → Prog LoopSig α) :
    run h (testDirty >>= f) s = run h (f d) s' := run_ask_some hq

theorem run_blockCacheLookup {b p : Nat} (hq : h (LoopReq.cacheLookup b) s = some (p, s'))
    (f : Nat → Prog LoopSig α) :
    run h (blockCacheLookup b >>= f) s = run h (f p) s' := run_ask_some hq

theorem run_cioMakeRequest {b : Nat} {rw : ReqFlags} {r : CioReply}
    (hq : h (LoopReq.cioRequest b rw) s = some (r, s')) (f : CioReply → Prog LoopSig α) :
    run h (cioMakeRequest b rw >>= f) s = run h (f r) s' := run_ask_some hq

theorem run_bioAlloc {n : Nat} {ok : Bool} (hq : h (LoopReq.bioAlloc n) s = some (ok, s'))
    (f : Bool → Prog LoopSig α) :
    run h (bioAlloc n >>= f) s = run h (f ok) s' := run_ask_some hq

theorem run_bioAddPage {b : Bio} {page len off : Nat} {r : Nat × Bio}
    (hq : h (LoopReq.addPage b page len off) s = some (r, s')) (f : Nat × Bio → Prog LoopSig α) :
    run h (bioAddPage b page len off >>= f) s = run h (f r) s' :=
  run_ask_some hq

theorem run_submitBio {b : Bio} {n : Nat} (hq : h (LoopReq.submit b n) s = some ((), s'))
    (f : Unit → Prog LoopSig α) :
    run h (submitBio b n >>= f) s = run h (f ()) s' := run_ask_some hq

end Runs

end LoopRedirect
