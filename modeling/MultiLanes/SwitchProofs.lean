import MultiLanes.LoopDeviceProofs

/-! # Switching the backing file

`loop_change_fd` gives a bound read-only device a new file of the same size. The old
file is known in three places: `lo_backing_file`, the variables `file` and `inode` that
`loop_thread` has read once before its loop, and the block cache.  `Lane` is a device
with all three, and each number in it carries the file it was taken from: a cached block
in `origin`, the number the thread has in hand in `source`.

The switch changes the first place only.  So a read after it is sent to the new file's
device at block numbers of the old file: what goes with a switch is clean for the reads
without a sector and for no others (`clean_iff_no_sectors`). -/

namespace LoopSwitch

open InteractProg LoopBio LoopRedirect LoopThread LoopDevice LoopCache List Option

/-- The two files of a switch. -/
inductive Which where
  | old
  | new
deriving DecidableEq, Repr

/-- A file that may back a device: the block device of its file system, its block size, whether
    it is a regular file or a block device, `get_loop_size`, and `get_block` without `create`. -/
structure File where
  bdev : Nat
  blkbits : Nat
  regular : Bool
  loopSize : Nat
  getBlock : Nat → Nat → BhResult

/-- A device with the file of `lo_backing_file` and the file of the thread's variables.
    `uses` lists the file that each number used by `redirect_bio` was taken from, `sent` the
    devices that its slices went to. -/
structure Lane where
  bound : Bool
  readOnly : Bool
  dirty : Bool
  backing : Which
  threadFile : Which
  cache : BlockCache
  origin : Nat → Which
  source : Which
  cio : CioReply
  pending : Prog ThreadSig Unit
  tick : Nat
  uses : List Which
  sent : List (Option Nat)

/-- The parameters of the module and the schedule: `sched n` steps of the thread
    come before the `n`-th look at shared state. -/
structure Config where
  prefetchBlocks : Int
  fuel : Nat
  sched : Nat → Nat
  files : Which → File

/-- The thread looks a block up in the cache: what it finds carries its origin. -/
def Lane.found (b : Nat) (l : Lane) : Lane :=
  if (l.cache.findCacheNode b).isSome then { l with source := l.origin b }
  else l

/-- The thread: `get_block` goes to the inode it read before its loop. -/
def threadHandler (cfg : Config) : Handler ThreadSig Lane
  | .fsync, l => some ((0 : Int), l)
  | .findCacheNode b, l =>
    some ((l.cache.findCacheNode b).map (·.bBlocknr), l.found b)
  | .getBlock b bSize _, l =>
    some ((cfg.files l.threadFile).getBlock b bSize, { l with source := l.threadFile })
  | .setDirty, l => some ((), { l with dirty := true })
  | .clearDirty, l => some ((), { l with dirty := false })
  | .storeError e, l => some ((), { l with cio := { l.cio with error := e } })
  | .storePhys p, l => some ((), { l with cio := { l.cio with blkPhy := p } })
  | .complete, l => some ((), l)
  | .addCache phys blk, l =>
    some ((), { l with
      cache := l.cache.addCache phys blk
      origin := Function.update l.origin blk l.source })
  | .spin, _ => none

/-- The thread runs on. -/
def Lane.wake (cfg : Config) (l : Lane) : Lane :=
  let r := stepMany (threadHandler cfg) (cfg.sched l.tick) (l.pending, l)
  { r.2 with pending := r.1, tick := l.tick + 1 }

/-- A request is queued; the thread finishes what it was doing and serves it up
    to its completion.  Its block size is the thread's inode's. -/
def Lane.request (cfg : Config) (cio : CioReq) (l : Lane) : Option (CioReply × Lane) :=
  match run (threadHandler cfg) l.pending l with
  | none => none
  | some (_, l₁) =>
    match runUntil (threadHandler cfg) isComplete
        (serveCio cfg.prefetchBlocks (cfg.files l₁.threadFile).blkbits cfg.fuel cio)
        { l₁ with cio := { l₁.cio with error := 0 } } with
    | none => none
    | some (rest, l₂) => some (l₂.cio, { l₂ with pending := rest })

/-- A number of the file `w` is used for a slice. -/
def Lane.use (w : Which) (l : Lane) : Lane := { l with uses := l.uses ++ [w] }

/-- `redirect_bio` looks a block up in the cache; 0 is a miss. -/
def Lane.hit (b : Nat) (l : Lane) : Lane :=
  if l.cache.blockCacheLookup b = 0 then l else l.use (l.origin b)

/-- The surroundings of `redirect_bio`.  `switchDone` is `do_loop_switch`, which
    stores the new file in `lo_backing_file` and completes the caller. -/
def laneHandler (cfg : Config) : Handler LoopSig Lane
  | .touch, l => some ((), l)
  | .bioEndio _, l => some ((), l)
  | .bioPut, l => some ((), l)
  | .switchDone, l => some ((), { l with backing := .new })
  | .testDirty, l => some ((l.wake cfg).dirty, l.wake cfg)
  | .flush rw, l =>
    (l.request cfg (flushCio 0 rw)).map (fun r => (r.1.error, r.2))
  | .cacheLookup b, l =>
    some ((l.wake cfg).cache.blockCacheLookup b, (l.wake cfg).hit b)
  | .cioRequest b rw, l =>
    (l.request cfg (translationCio cfg.prefetchBlocks b rw)).map
      (fun r => (r.1, r.2.use r.2.source))
  | .bioAlloc _, l => some (true, l)
  | .addPage b page len off, l => some ((len, bioStore b page len off), l)
  | .submit b _, l => some ((), { l with sent := l.sent ++ [b.biBdev] })
  | .forward _, l => some ((), l)
  | .bug, _ => none
  | .spin, _ => none

/-- `redirect_bio` on a lane: it begins with `lo_backing_file`. -/
def redirect (cfg : Config) (b : Bio) (l : Lane) : Option (Unit × Lane) :=
  run (laneHandler cfg)
    (redirectBio (cfg.files l.backing).bdev (cfg.files l.backing).blkbits b) l

/-- The bio of `loop_switch`: `bio_alloc(GFP_KERNEL, 0)` without a device. -/
def magicBio : Bio where
  biBdev := none
  biSector := 0
  biRw := ⟨false, false, false⟩
  biIdx := 0
  biMaxVecs := 0
  biIoVec := []

/-- `-ENXIO`, `-EBADF` and `-EINVAL`. -/
def enxio : Int := -6

/-- See `enxio`. -/
def ebadf : Int := -9

/-- See `enxio`. -/
def einval : Int := -22

/-- `loop_change_fd`; `opened` says whether `fget` finds the new file. -/
def loopChangeFd (cfg : Config) (opened : Bool) (l : Lane) : Option (Int × Lane) :=
  if l.bound = false then some (enxio, l)
  else if l.readOnly = false then some (einval, l)
  else if opened = false then some (ebadf, l)
  else if (cfg.files .new).regular = false then some (einval, l)
  else if (cfg.files .new).loopSize ≠ (cfg.files l.backing).loopSize then
    some (einval, l)
  else
    match redirect cfg magicBio l with
    | none => none
    | some (_, l') => some (0, l')

/-- A device after `LOOP_SET_FD` with the old file. -/
def boundLane (readOnly : Bool) : Lane where
  bound := true
  readOnly := readOnly
  dirty := false
  backing := .old
  threadFile := .old
  cache := initCache
  origin := fun _ => .old
  source := .old
  cio := ⟨0, 0⟩
  pending := .ret ()
  tick := 0
  uses := []
  sent := []

/-- A read: no write, no barrier, and not the bio of a switch. -/
def IsRead (b : Bio) : Prop :=
  b.biRw = ⟨false, false, false⟩ ∧ b.biBdev ≠ none

/-- A sequence of bios, one after the other. -/
def readAll (cfg : Config) : List Bio → Lane → Option Lane
  | [], l => some l
  | b :: bs, l =>
    match redirect cfg b l with
    | none => none
    | some (_, l') => readAll cfg bs l'

/-- From `l` to `l'` only numbers of the new file were used, and only for its device. -/
def OnlyNew (cfg : Config) (l l' : Lane) : Prop :=
  ∃ us ds, l'.uses = l.uses ++ us ∧ (∀ w ∈ us, w = Which.new)
    ∧ l'.sent = l.sent ++ ds ∧ ∀ d ∈ ds, d = some (cfg.files .new).bdev

/-- Every bio of the list is served, with the new file only. -/
def Clean (cfg : Config) : List Bio → Lane → Prop
  | [], _ => True
  | b :: bs, l =>
    ∃ l', redirect cfg b l = some ((), l') ∧ OnlyNew cfg l l' ∧ Clean cfg bs l'

/-! ## The old file stays where it was -/

/-- The thread and the cache know the old file only. -/
structure KnowsOld (l : Lane) : Prop where
  thread : l.threadFile = .old
  cached : ∀ b, l.origin b = .old
  source : l.source = .old

/-- What happens between two looks at a lane: the old file stays in the thread
    and in the cache, and what was used stays used. -/
structure Later (l l' : Lane) : Prop where
  knows : KnowsOld l → KnowsOld l'
  uses : ∃ us, l'.uses = l.uses ++ us

theorem Later.refl (l : Lane) : Later l l := ⟨id, [], (append_nil _).symm⟩

variable {l l' : Lane} {cfg : Config}

theorem Later.trans {l'' : Lane} (h : Later l l') (h' : Later l' l'') : Later l l'' := by
  refine ⟨h'.knows ∘ h.knows, ?_⟩
  obtain ⟨us, hus⟩ := h.uses
  obtain ⟨us', hus'⟩ := h'.uses
  exact ⟨us ++ us', by rw [hus', hus, append_assoc]⟩

/-- A step that leaves the file knowledge and the list of uses alone. -/
theorem Later.same (ht : l'.threadFile = l.threadFile) (ho : l'.origin = l.origin)
    (hs : l'.source = l.source) (hu : l'.uses = l.uses) : Later l l' :=
  ⟨fun h => ⟨ht.trans h.thread, fun b => (congrFun ho b).trans (h.cached b),
    hs.trans h.source⟩, [], by rw [hu, append_nil]⟩

theorem found_later (b : Nat) (l : Lane) : Later l (l.found b) := by
  unfold Lane.found
  split
  · exact ⟨fun hk => ⟨hk.thread, hk.cached, hk.cached b⟩, [], (append_nil _).symm⟩
  · exact .refl l

/-- One step of the thread. -/
theorem threadStep_later {q : ThreadReq}
    {x : ThreadSig.Ans q} (h : threadHandler cfg q l = some (x, l')) :
    Later l l' := by
  have hsame : ∀ {m : Lane}, m = l' → m.threadFile = l.threadFile →
      m.origin = l.origin → m.source = l.source → m.uses = l.uses →
      Later l l' := by
    rintro m rfl h₁ h₂ h₃ h₄
    exact .same h₁ h₂ h₃ h₄
  cases q with
  | findCacheNode b =>
    cases congrArg Prod.snd (Option.some.inj h)
    exact found_later b l
  | getBlock b bSize create =>
    cases congrArg Prod.snd (Option.some.inj h)
    exact ⟨fun hk => ⟨hk.thread, hk.cached, hk.thread⟩, [], (append_nil _).symm⟩
  | addCache phys blk =>
    cases congrArg Prod.snd (Option.some.inj h)
    refine ⟨fun hk => ⟨hk.thread, fun b => ?_, hk.source⟩, [], (append_nil _).symm⟩
    -- the new node's number is the one that the thread has in hand
    by_cases hb : b = blk
    · rw [hb]
      exact (Function.update_self _ _ _).trans hk.source
    · exact (Function.update_of_ne hb _ _).trans (hk.cached b)
  | spin => cases h
  | _ => exact hsame (congrArg Prod.snd (Option.some.inj h)) rfl rfl rfl rfl

theorem wake_later (cfg : Config) (l : Lane) : Later l (l.wake cfg) :=
  have h : Later l _ := stepMany_induct (R := Later) Later.refl Later.trans
    threadStep_later (cfg.sched l.tick) (l.pending, l)
  h.trans (.same rfl rfl rfl rfl)

theorem request_later {cio : CioReq}
    {r : CioReply} (h : l.request cfg cio = some (r, l')) : Later l l' := by
  unfold Lane.request at h
  split at h
  · cases h
  · rename_i l₁ hrun
    split at h
    · cases h
    · rename_i rest l₂ hserve
      cases congrArg Prod.snd (Option.some.inj h)
      have h₁ : Later l l₁ :=
        run_induct (R := Later) Later.refl Later.trans threadStep_later hrun
      have h₂ : Later l₁ { l₁ with cio := { l₁.cio with error := 0 } } :=
        .same rfl rfl rfl rfl
      have h₃ : Later _ l₂ :=
        runUntil_induct (R := Later) Later.trans threadStep_later hserve
      exact ((h₁.trans h₂).trans h₃).trans (.same rfl rfl rfl rfl)

theorem use_later (w : Which) (l : Lane) : Later l (l.use w) :=
  ⟨fun h => ⟨h.thread, h.cached, h.source⟩, [w], rfl⟩

theorem hit_later (b : Nat) (l : Lane) : Later l (l.hit b) := by
  unfold Lane.hit
  split
  · exact .refl l
  · exact use_later _ l

/-- One request of `redirect_bio`, the switch included. -/
theorem laneStep_later {q : LoopReq} {x : LoopSig.Ans q} (h : laneHandler cfg q l = some (x, l')) :
    Later l l' := by
  cases q with
  | testDirty =>
    cases congrArg Prod.snd (Option.some.inj h)
    exact wake_later cfg l
  | flush rw =>
    obtain ⟨⟨r, m⟩, hreq, hx⟩ := map_eq_some_iff.mp h
    cases congrArg Prod.snd hx
    exact request_later hreq
  | cacheLookup b =>
    cases congrArg Prod.snd (Option.some.inj h)
    exact (wake_later cfg l).trans (hit_later b _)
  | cioRequest b rw =>
    obtain ⟨⟨r, m⟩, hreq, hx⟩ := map_eq_some_iff.mp h
    cases congrArg Prod.snd hx
    exact (request_later hreq).trans (use_later _ _)
  | bug => cases h
  | spin => cases h
  | _ =>
    cases congrArg Prod.snd (Option.some.inj h)
    exact .same rfl rfl rfl rfl

theorem run_later {α : Type} {p : Prog LoopSig α}
    {a : α} (h : run (laneHandler cfg) p l = some (a, l')) :
    Later l l' := run_induct (R := Later) Later.refl Later.trans laneStep_later h

theorem readAll_later {bs : List Bio} (h : readAll cfg bs l = some l') : Later l l' := by
  induction bs generalizing l with
  | nil =>
    obtain rfl := Option.some.inj h
    exact .refl l
  | cons b bs ih =>
    rw [readAll] at h
    split at h
    · cases h
    · rename_i m hrun
      exact (run_later hrun).trans (ih h)

/-- `loop_change_fd` itself, whatever it returns. -/
theorem loopChangeFd_later {opened : Bool}
    {e : Int} (h : loopChangeFd cfg opened l = some (e, l')) :
    Later l l' := by
  unfold loopChangeFd at h
  split_ifs at h
  case neg =>
    split at h
    · cases h
    · rename_i m hrun
      cases congrArg Prod.snd (Option.some.inj h)
      exact run_later hrun
  all_goals
    cases congrArg Prod.snd (Option.some.inj h)
    exact .refl l

/-! ## A read with a sector uses the old file -/

/-- The old file has been used. -/
def UsesOld (l l' : Lane) : Prop :=
  ∃ us, l'.uses = l.uses ++ us ∧ Which.old ∈ us

theorem UsesOld.of_later {l'' : Lane} (h : UsesOld l l') (h' : Later l' l'') : UsesOld l l'' := by
  obtain ⟨us, hus, hmem⟩ := h
  obtain ⟨vs, hvs⟩ := h'.uses
  exact ⟨us ++ vs, by rw [hvs, hus, append_assoc], mem_append_left _ hmem⟩

theorem UsesOld.not_onlyNew (h : UsesOld l l') : ¬ OnlyNew cfg l l' := by
  rintro ⟨us, -, hus, hnew, -⟩
  obtain ⟨vs, hvs, hmem⟩ := h
  have heq : us = vs := append_cancel_left (hus.symm.trans hvs)
  have hold : Which.old = Which.new := hnew _ (heq.symm ▸ hmem)
  cases hold

/-- A use at the end of a stretch. -/
theorem usesOld_use {m : Lane} (h : Later l m) {w : Which} (hw : w = .old) :
    UsesOld l (m.use w) := by
  obtain ⟨us, hus⟩ := h.uses
  refine ⟨us ++ [w], ?_, by rw [hw]; exact mem_append_right _ (.head _)⟩
  rw [Lane.use, hus, append_assoc]

/-- Whether the number comes from the cache or from the thread, it is one of the old file. -/
theorem translateBlock_usesOld {old : Bio} {blk : Nat} {r : Option Nat} (hk : KnowsOld l)
    (h : run (laneHandler cfg) (translateBlock old blk) l = some (r, l')) :
    UsesOld l l' := by
  have hwake := wake_later cfg l
  by_cases hmiss : (l.wake cfg).cache.blockCacheLookup blk = 0
  · have hq : laneHandler cfg (.cacheLookup blk) l = some ((0 : Nat), l.wake cfg) := by
      rw [laneHandler, Lane.hit, if_pos hmiss, hmiss]
      rfl
    rw [translateBlock, run_blockCacheLookup hq, if_neg (by decide), run_touch rfl] at h
    obtain ⟨⟨cio, m⟩, hm, hrest⟩ := bind_eq_some_iff.mp
      ((run_ask (laneHandler cfg) _ _ _).symm.trans h)
    obtain ⟨⟨r', m'⟩, hreq', hx⟩ := map_eq_some_iff.mp hm
    cases congrArg Prod.snd hx
    have hlater := hwake.trans (request_later hreq')
    exact (usesOld_use hlater (hlater.knows hk).source).of_later (run_later hrest)
  · have hq : laneHandler cfg (.cacheLookup blk) l = some ((l.wake cfg).cache.blockCacheLookup blk,
          (l.wake cfg).use ((l.wake cfg).origin blk)) := by
      rw [laneHandler, Lane.hit, if_neg hmiss]
      rfl
    rw [translateBlock, run_blockCacheLookup hq, if_pos hmiss] at h
    cases congrArg Prod.snd (Option.some.inj h)
    exact usesOld_use hwake ((hwake.knows hk).cached blk)

variable {b : Bio}

/-- The parts of `redirect_bio` in front of the data do nothing for a read. -/
theorem redirect_read (hb : IsRead b) (l : Lane) :
    redirect cfg b l = run (laneHandler cfg) (redirectData (cfg.files l.backing).bdev
          (cfg.files l.backing).blkbits b) l := by
  have hhandle : run (laneHandler cfg) (loopHandleBio b) l = some ((), l) := by
    rw [loopHandleBio, run_touch rfl, if_neg hb.2]
    rfl
  have hflush : run (laneHandler cfg) (preFlush b) l = some (true, l) := by
    rw [preFlush, run_touch rfl, hb.1]
    rfl
  rw [redirect, redirectBio, run_bind_some hhandle, run_touch rfl,
    if_neg (by rw [hb.1]; simp), run_bind_some hflush]
  rfl

theorem redirect_usesOld (hb : IsRead b) (hn : b.nrSectors ≠ 0) (hk : KnowsOld l)
    (h : redirect cfg b l = some ((), l')) : UsesOld l l' := by
  rw [redirect_read hb] at h
  obtain ⟨built, l₃, hbuild, hrest₃⟩ := run_bind_eq_some.mp h
  obtain ⟨done, l₂, hloop, hrest₂⟩ := run_bind_eq_some.mp hbuild
  obtain ⟨n, hn'⟩ := Nat.exists_eq_succ_of_ne_zero hn
  have hmore : ¬ (Cursor.start b).nrTotalSectors = 0 := hn
  rw [hn', blockLoop, if_neg hmore] at hloop
  obtain ⟨tr, l₁, htr, hrest₁⟩ := run_bind_eq_some.mp hloop
  exact (translateBlock_usesOld hk htr).of_later
    (((run_later hrest₁).trans (run_later hrest₂)).trans (run_later hrest₃))

/-- A read without a sector is ended at once. -/
theorem redirect_empty (hb : IsRead b) (hn : b.nrSectors = 0) (l : Lane) :
    redirect cfg b l = some ((), l) := by
  rw [redirect_read hb, redirectData, buildSlices, hn, blockLoop,
    if_pos (show (Cursor.start b).nrTotalSectors = 0 from hn), fuaFlush, hb.1]
  rfl

/-! ## Reads after the switch -/

theorem knowsOld_boundLane (readOnly : Bool) : KnowsOld (boundLane readOnly) :=
  ⟨rfl, fun _ => rfl, rfl⟩

theorem OnlyNew.refl (cfg : Config) (l : Lane) : OnlyNew cfg l l :=
  ⟨[], [], (append_nil _).symm, nofun, (append_nil _).symm, nofun⟩

/-- Over a device whose thread and cache know the old file, exactly the reads
    without a sector are served cleanly. -/
theorem clean_iff_of_knowsOld {bs : List Bio} (hr : ∀ b ∈ bs, IsRead b) (hk : KnowsOld l) :
    Clean cfg bs l ↔ ∀ b ∈ bs, b.nrSectors = 0 := by
  induction bs generalizing l with
  | nil => exact ⟨fun _ => nofun, fun _ => trivial⟩
  | cons b bs ih =>
    have hb := hr b (.head _)
    have hrest : ∀ c ∈ bs, IsRead c := fun c hc => hr c (.tail _ hc)
    rw [forall_mem_cons]
    constructor
    · rintro ⟨l', hrun, honly, hclean⟩
      refine ⟨?_, (ih hrest ((run_later hrun).knows hk)).mp hclean⟩
      by_contra hn
      exact (redirect_usesOld hb hn hk hrun).not_onlyNew honly
    · rintro ⟨hn, hall⟩
      exact ⟨l, redirect_empty hb hn l, .refl cfg l, (ih hrest hk).mpr hall⟩

/-- After any reads and a switch that returned 0, later reads use the new file
    alone iff they have no sector to read. -/
theorem clean_iff_no_sectors (cfg : Config) (before after : List Bio) (opened : Bool) {l l' : Lane}
    (hbefore : readAll cfg before (boundLane true) = some l)
    (hswitch : loopChangeFd cfg opened l = some (0, l')) (hreads : ∀ b ∈ after, IsRead b) :
    Clean cfg after l' ↔ ∀ b ∈ after, b.nrSectors = 0 :=
  clean_iff_of_knowsOld hreads ((loopChangeFd_later hswitch).knows
    ((readAll_later hbefore).knows (knowsOld_boundLane true)))

/-! ## Two files of one block -/

/-- A file with its first block at `phys` and nothing behind it. -/
def oneBlockFile (bdev phys : Nat) : File where
  bdev := bdev
  blkbits := 12
  regular := true
  loopSize := 8
  getBlock := fun b bSize => if b = 0 then ⟨0, phys, 4096⟩ else ⟨0, 0, bSize⟩

/-- The old file on device 1 at block 5, the new one on device 2 at block 7. -/
def twoFiles : Config where
  prefetchBlocks := 1
  fuel := 1
  sched := fun _ => 0
  files := fun w => match w with
    | .old => oneBlockFile 1 5
    | .new => oneBlockFile 2 7

/-- A read of `n` sectors from the start of the disk. -/
def readBio (n : Nat) : Bio where
  biBdev := some 9
  biSector := 0
  biRw := ⟨false, false, false⟩
  biIdx := 0
  biMaxVecs := 1
  biIoVec := [⟨0, 512 * n, 0⟩]

theorem isRead_readBio (n : Nat) : IsRead (readBio n) := ⟨rfl, nofun⟩

/-- The device after the switch. -/
def switchedLane : Lane := { boundLane true with backing := .new }

theorem loopChangeFd_twoFiles :
    loopChangeFd twoFiles true (boundLane true) = some (0, switchedLane) := rfl

theorem clean_empty_read : Clean twoFiles [readBio 0] switchedLane :=
  (clean_iff_no_sectors twoFiles [] [readBio 0] true rfl loopChangeFd_twoFiles
    (forall_mem_singleton.mpr (isRead_readBio 0))).mpr
    (forall_mem_singleton.mpr rfl)

/-- One sector is read after the switch: the slice goes to the new file's
    device, at the block number that `get_block` gave for the old inode. -/
theorem read_after_switch_uses_old :
    loopChangeFd twoFiles true (boundLane true) = some (0, switchedLane)
    ∧ (∃ l, redirect twoFiles (readBio 1) switchedLane = some ((), l)
      ∧ l.sent = [some 2] ∧ l.uses = [Which.old])
    ∧ ¬ Clean twoFiles [readBio 1] switchedLane := by
  refine ⟨loopChangeFd_twoFiles, ⟨_, rfl, rfl, rfl⟩, ?_⟩
  rintro ⟨l, hrun, honly, -⟩
  exact (redirect_usesOld (isRead_readBio 1) (by decide)
    ⟨rfl, fun _ => rfl, rfl⟩ hrun).not_onlyNew honly

end LoopSwitch
