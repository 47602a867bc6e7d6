import MultiLanes.SliceProofs
import MultiLanes.LoopDeviceProofs

/-! # The virtual disk — bios on a device

A loop device serves bios from three places that move independently: the requester in
`redirect_bio`, the translation thread, which is still prefetching for earlier requests
when later ones look at the cache, and the host disk.  `Device` is their state and
`deviceHandler` the answers of the two to the requester; the thread is given any number
of steps before each request that looks at shared state, so that what holds here holds
for every schedule.

`Steady` is the invariant between two bios: the thread will finish what it is doing,
with a true cache at every moment.  Over it, `run_redirectBio` says what a bio
transfers. -/

namespace VirtualDisk

open InteractProg LoopBio LoopRedirect LoopSlice LoopThread LoopDevice List

/-- The contents of a sector. -/
abbrev SectorData : Type := Fin 512 → UInt8

/-- The parameters of a device: `prefetch_blocks`, the block size of the host,
    a bound for the prefetch loop, and the number of steps that the thread makes
    before the `n`-th look at shared state. -/
structure Config where
  prefetchBlocks : Int
  blkbits : Nat
  fuel : Nat
  sched : Nat → Nat

/-- The sectors of a block. -/
def Config.spb (cfg : Config) : Nat := 2 ^ (cfg.blkbits - 9)

/-- A device: the thread's part, what the thread has still to do, the host disk
    by physical sector, and the transfers that were made. -/
structure Device (H : Host) where
  core : Core H
  pending : Prog ThreadSig Unit
  disk : Nat → SectorData
  io : List (Nat × Loc × SectorData)
  tick : Nat

variable {H : Host}

/-- The thread runs on. -/
def Device.wake (cfg : Config) (d : Device H) : Device H :=
  let r := stepMany (threadHandler H cfg.blkbits) (cfg.sched d.tick) (d.pending, d.core)
  { d with core := r.2, pending := r.1, tick := d.tick + 1 }

/-- A request is queued: the thread finishes what it was doing, takes the
    request and runs until it is completed.  The requester goes on with the
    reply, the thread has the rest of the service still to do. -/
def Device.request (cfg : Config) (cio : CioReq) (d : Device H) : Option (CioReply × Device H) :=
  match run (threadHandler H cfg.blkbits) d.pending d.core with
  | none => none
  | some (_, c) =>
    match runUntil (threadHandler H cfg.blkbits) isComplete
        (serveCio cfg.prefetchBlocks cfg.blkbits cfg.fuel cio)
        { c with cio := { c.cio with error := 0 } } with
    | none => none
    | some (rest, c₁) => some (c₁.cio, { d with core := c₁, pending := rest })

/-- One sector is transferred. -/
def Device.transfer (mem : Loc → SectorData) (write : Bool) (d : Device H)
    (x : Nat × Loc) : Device H :=
  if write then
    { d with
      disk := Function.update d.disk x.1 (mem x.2)
      io := d.io ++ [(x.1, x.2, mem x.2)] }
  else { d with io := d.io ++ [(x.1, x.2, d.disk x.1)] }

/-- The surroundings of `redirect_bio` on a device without I/O errors whose `bio_add_page`
    takes every piece; `mem` is the memory that the bio's pages are in. -/
def deviceHandler (H : Host) (cfg : Config) (mem : Loc → SectorData) : Handler LoopSig (Device H)
  | .touch, d => some ((), d)
  | .bioEndio _, d => some ((), d)
  | .bioPut, d => some ((), d)
  | .switchDone, d => some ((), d)
  | .testDirty, d => some ((d.wake cfg).core.dirty, d.wake cfg)
  | .flush rw, d => (d.request cfg (flushCio 0 rw)).map (fun r => (r.1.error, r.2))
  | .cacheLookup b, d =>
    some ((d.wake cfg).core.cache.blockCacheLookup b, d.wake cfg)
  | .cioRequest b rw, d => d.request cfg (translationCio cfg.prefetchBlocks b rw)
  | .bioAlloc _, d => some (true, d)
  | .addPage b page len off, d => some ((len, bioStore b page len off), d)
  | .submit b _, d => some ((), b.placed.foldl (Device.transfer mem b.biRw.write) d)
  | .forward _, d => some ((), d)
  | .bug, _ => none
  | .spin, _ => none

/-! ## The thread under a requester -/

/-- The thread will finish what it is doing, with a true cache at every moment. -/
def Steady (cfg : Config) (d : Device H) : Prop :=
  Ends (threadHandler H cfg.blkbits) CacheOk d.pending d.core (fun _ _ => True)

/-- The file map when the thread has finished. -/
def Device.finalMap (cfg : Config) (d : Device H) (b : Nat) : Option Nat :=
  (run (threadHandler H cfg.blkbits) d.pending d.core).bind (fun r => r.2.map b)

variable {cfg : Config} {d : Device H}

theorem finalMap_eq {c : Core H}
    (h : run (threadHandler H cfg.blkbits) d.pending d.core = some ((), c)) :
    d.finalMap cfg = c.map := by
  funext b
  rw [Device.finalMap, h]
  rfl

/-- The map as it is now is part of the map as it will be. -/
theorem Steady.map_le_finalMap (hs : Steady cfg d) {b p : Nat} (h : d.core.map b = some p) :
    d.finalMap cfg b = some p := by
  obtain ⟨⟨⟩, c, hrun, -, -⟩ := hs
  rw [finalMap_eq hrun]
  exact run_extends hrun b p h

theorem Steady.wake (h : Steady cfg d) : Steady cfg (d.wake cfg) := Ends.stepMany h _

theorem finalMap_wake (cfg : Config) (d : Device H) :
    (d.wake cfg).finalMap cfg = d.finalMap cfg := by
  have hrun := run_stepMany (threadHandler H cfg.blkbits) (cfg.sched d.tick) (d.pending, d.core)
  funext b
  exact congrArg (fun r => r.bind (fun r => r.2.map b)) hrun

/-- What a request may do to the file map. -/
def Grows (create : Bool) (m m' : Nat → Option Nat) : Prop :=
  (∀ b p, m b = some p → m' b = some p) ∧ (create = false → m' = m)

theorem Grows.refl (create : Bool) (m : Nat → Option Nat) : Grows create m m :=
  ⟨fun _ _ h => h, fun _ => rfl⟩

theorem Grows.trans {create : Bool} {m m' m'' : Nat → Option Nat}
    (h : Grows create m m') (h' : Grows create m' m'') : Grows create m m'' :=
  ⟨fun b p hb => h'.1 b p (h.1 b p hb), fun hc => (h'.2 hc).trans (h.2 hc)⟩

/-- A requester that lets the thread run on sees the map grow. -/
theorem wake_extends (cfg : Config) (d : Device H) : Extends d.core (d.wake cfg).core :=
  stepMany_induct Extends.refl Extends.trans step_extends _ (d.pending, d.core)

/-- The requester's part of a device. -/
def SameDisk (d d' : Device H) : Prop := d'.disk = d.disk ∧ d'.io = d.io

theorem SameDisk.trans {d' d'' : Device H} (h : SameDisk d d')
    (h' : SameDisk d' d'') : SameDisk d d'' :=
  ⟨h'.1.trans h.1, h'.2.trans h.2⟩

/-- The thread takes a request up: it finishes in a state from which the request is served. -/
theorem request_eq {c e : Core H}
    {cio : CioReq} {rest : Prog ThreadSig Unit}
    (hrun : run (threadHandler H cfg.blkbits) d.pending d.core = some ((), c))
    (hserve : runUntil (threadHandler H cfg.blkbits) isComplete
      (serveCio cfg.prefetchBlocks cfg.blkbits cfg.fuel cio)
      { c with cio := { c.cio with error := 0 } } = some (rest, e)) :
    d.request cfg cio = some (e.cio, { d with core := e, pending := rest }) := by
  unfold Device.request
  simp only [hrun, hserve]

/-- A translation on a steady device. -/
theorem request_translation (hf : Fits cfg.prefetchBlocks cfg.blkbits)
    (hfuel : cfg.prefetchBlocks ≤ cfg.fuel) (hs : Steady cfg d) (b : Nat) (rw : ReqFlags) :
    ∃ r d', d.request cfg (translationCio cfg.prefetchBlocks b rw) = some (r, d')
      ∧ r.error = 0 ∧ Steady cfg d' ∧ SameDisk d d' ∧ Extends d.core d'.core
      ∧ Grows rw.write (d.finalMap cfg) (d'.finalMap cfg)
      ∧ (rw.write = true → d'.core.map b = some r.blkPhy)
      ∧ (rw.write = false → r.blkPhy = (d.finalMap cfg b).getD 0) := by
  obtain ⟨⟨⟩, c, hrun, -, hI⟩ := hs
  have hc : CacheOk { c with cio := { c.cio with error := 0 } } :=
    hI c (passes_of_run hrun)
  have hserve : serveCio cfg.prefetchBlocks cfg.blkbits cfg.fuel
      (translationCio cfg.prefetchBlocks b rw)
      = serveTranslation cfg.prefetchBlocks cfg.blkbits cfg.fuel rw.write b :=
    serveCio_translation (by have := hf.1; omega)
  obtain ⟨rest, c₁, hu, herr, hw, hr⟩ :=
    runUntil_serveTranslation hf hfuel hc rw.write b
  have hrest := (ends_serveTranslation hf hfuel hc rw.write b).runUntil hu
  obtain ⟨⟨⟩, c₂, hrun₂, ⟨-, hg⟩, hI₂⟩ := hrest
  refine ⟨c₁.cio, _, request_eq hrun (by rw [hserve]; exact hu), herr,
    ⟨(), c₂, hrun₂, trivial, hI₂⟩, ⟨rfl, rfl⟩, ?_, ?_, hw, ?_⟩
  · have he := runUntil_extends hu
    exact (run_extends hrun).trans (show Extends c c₁ from he)
  · rw [finalMap_eq hrun, finalMap_eq hrun₂]
    exact hg
  · intro hfalse
    rw [finalMap_eq hrun]
    exact hr hfalse

/-- What happens to a device without a transfer or an allocation. -/
structure Undisturbed (cfg : Config) (d d' : Device H) : Prop where
  steady : Steady cfg d'
  same : SameDisk d d'
  grown : Extends d.core d'.core
  map : d'.finalMap cfg = d.finalMap cfg

theorem Steady.undisturbed (hs : Steady cfg d) : Undisturbed cfg d d :=
  ⟨hs, ⟨rfl, rfl⟩, .refl _, rfl⟩

theorem Steady.undisturbed_wake (hs : Steady cfg d) : Undisturbed cfg d (d.wake cfg) :=
  ⟨hs.wake, ⟨rfl, rfl⟩, wake_extends cfg d, finalMap_wake cfg d⟩

theorem Undisturbed.trans {d' d'' : Device H}
    (h : Undisturbed cfg d d') (h' : Undisturbed cfg d' d'') :
    Undisturbed cfg d d'' :=
  ⟨h'.steady, h.same.trans h'.same, h.grown.trans h'.grown, h'.map.trans h.map⟩

/-- A flush on a steady device. -/
theorem request_flush (hs : Steady cfg d) (rw : ReqFlags) :
    ∃ r d', d.request cfg (flushCio 0 rw) = some (r, d') ∧ r.error = 0 ∧ Undisturbed cfg d d' := by
  obtain ⟨⟨⟩, c, hrun, -, hI⟩ := hs
  have hc : CacheOk { c with cio := { c.cio with error := 0 } } :=
    hI c (passes_of_run hrun)
  obtain ⟨rest, c₁, hu, herr, -⟩ := runUntil_serveFlush cfg.blkbits
    { c with cio := { c.cio with error := 0 } }
  obtain ⟨⟨⟩, c₂, hrun₂, ⟨-, hmap⟩, hI₂⟩ := (ends_serveFlush hc).runUntil hu
  refine ⟨c₁.cio, _, request_eq hrun hu, herr, ⟨(), c₂, hrun₂, trivial, hI₂⟩, ⟨rfl, rfl⟩, ?_, ?_⟩
  · have he := runUntil_extends hu
    exact (run_extends hrun).trans (show Extends c c₁ from he)
  · rw [finalMap_eq hrun, finalMap_eq hrun₂]
    exact hmap

/-! ## Slicing on a device -/

section Bios

variable {cfg : Config} {mem : Loc → SectorData}

variable {d : Device H}

/-- Translating a block: a cache hit is true, and so is the thread's reply. -/
theorem run_translateBlock (hf : Fits cfg.prefetchBlocks cfg.blkbits)
    (hfuel : cfg.prefetchBlocks ≤ cfg.fuel) (old : Bio) (hs : Steady cfg d) (b : Nat) :
    ∃ p d', run (deviceHandler H cfg mem) (translateBlock old b) d = some (some p, d')
      ∧ Steady cfg d' ∧ SameDisk d d' ∧ Extends d.core d'.core
      ∧ Grows old.biRw.write (d.finalMap cfg) (d'.finalMap cfg)
      ∧ (old.biRw.write = true → d'.core.map b = some p)
      ∧ (old.biRw.write = false → p = (d.finalMap cfg b).getD 0) := by
  have hw := hs.wake
  have hlook : deviceHandler H cfg mem (LoopReq.cacheLookup b) d
      = some ((d.wake cfg).core.cache.blockCacheLookup b, d.wake cfg) := rfl
  rw [translateBlock, run_blockCacheLookup hlook]
  by_cases h0 : (d.wake cfg).core.cache.blockCacheLookup b ≠ 0
  · have htrue := (hw.inv.lookup b).resolve_left h0
    rw [if_pos h0]
    refine ⟨_, d.wake cfg, rfl, hw, ⟨rfl, rfl⟩, wake_extends cfg d, ?_, fun _ => htrue, fun _ => ?_⟩
    · rw [finalMap_wake]
      exact .refl _ _
    · rw [← finalMap_wake cfg d, hw.map_le_finalMap htrue]
      rfl
  · obtain ⟨r, d', hreq, herr, hs', hsame, he, hg, hwr, hrd⟩ :=
      request_translation hf hfuel hw b old.biRw
    have hcio : deviceHandler H cfg mem (LoopReq.cioRequest b old.biRw)
        (d.wake cfg) = some (r, d') := hreq
    rw [if_neg h0, run_touch rfl, run_cioMakeRequest hcio,
      if_neg (by rw [herr]; exact fun h => h rfl)]
    rw [finalMap_wake] at hg hrd
    exact ⟨r.blkPhy, d', rfl, hs', ⟨hsame.1, hsame.2⟩, (wake_extends cfg d).trans he, hg, hwr, hrd⟩

variable (mem) in
/-- The loops of `redirect_bio` on a device; `d₀` is the device when the bio came. -/
theorem deviceHandler_env (hf : Fits cfg.prefetchBlocks cfg.blkbits)
    (hfuel : cfg.prefetchBlocks ≤ cfg.fuel) (old : Bio) (d₀ : Device H) :
    SliceEnv (deviceHandler H cfg mem) old (fun _ d => Steady cfg d ∧ SameDisk d₀ d
        ∧ Grows old.biRw.write (d₀.finalMap cfg) (d.finalMap cfg))
      (fun d d' => Extends d.core d'.core)
      (fun b p d => (old.biRw.write = true → d.core.map b = some p)
        ∧ (old.biRw.write = false → p = (d₀.finalMap cfg b).getD 0))
      (fun _ => false) where
  refl d := .refl d.core
  trans h h' := Extends.trans h h'
  keep h hR := ⟨fun hw => hR _ _ (h.1 hw), h.2⟩
  touch _ := rfl
  alloc _ _ := rfl
  refused := by
    intro k d t b page off _ _ hr
    exact Bool.noConfusion hr
  taken := by
    intro k d t b page off hat _ _
    exact ⟨d, rfl, hat, .refl _⟩
  empty := by
    intro k d b page off hat
    exact ⟨_, d, rfl, .inr rfl, hat, .refl _⟩
  translate := by
    rintro k d b ⟨hs, hsame, hg⟩
    obtain ⟨p, d', hrun, hs', hsame', he, hg', hwr, hrd⟩ :=
      run_translateBlock hf hfuel old hs b
    refine ⟨p, d', hrun, ⟨hs', hsame.trans hsame', hg.trans hg'⟩, he, hwr, ?_⟩
    intro hfalse
    rw [hrd hfalse, hg.2 hfalse]

variable (mem) in
/-- The slices of a bio on a device. -/
theorem run_buildSlices (hf : Fits cfg.prefetchBlocks cfg.blkbits)
    (hfuel : cfg.prefetchBlocks ≤ cfg.fuel) (bd : Nat) {old : Bio}
    (hw : old.Whole) (hs : Steady cfg d) :
    ∃ m slices d', run (deviceHandler H cfg mem)
          (buildSlices bd cfg.blkbits old) d = some (some slices, d')
      ∧ Steady cfg d' ∧ SameDisk d d'
      ∧ Grows old.biRw.write (d.finalMap cfg) (d'.finalMap cfg)
      ∧ (∀ k < old.sectors.length, (old.biRw.write = true →
            d'.core.map ((old.biSector + k) / cfg.spb) = some (m ((old.biSector + k) / cfg.spb)))
          ∧ (old.biRw.write = false → m ((old.biSector + k) / cfg.spb)
              = (d.finalMap cfg ((old.biSector + k) / cfg.spb)).getD 0))
      ∧ (∀ b ∈ slices, b.biRw = old.biRw)
      ∧ slices.flatMap Bio.placed = place (fun k => physSector m cfg.spb (old.biSector + k))
              old.sectors := by
  obtain ⟨m, slices, d', hrun, ⟨hs', hsame, hg⟩, -, hq, hrw, hiff⟩ :=
    slices_placed_iff (deviceHandler_env mem hf hfuel old d) bd hw rfl ⟨hs, ⟨rfl, rfl⟩, .refl _ _⟩
  refine ⟨m, slices, d', hrun, hs', hsame, hg, hq, hrw, ?_⟩
  have hplaced := hiff.mpr (fun j _ _ _ hr => Bool.noConfusion hr)
  rw [hplaced, expected, take_length]
  rfl

/-! ## Transfers and flushes -/

/-- The transfers of a list of placed sectors. -/
def Device.transfers (mem : Loc → SectorData) (write : Bool)
    (l : List (Nat × Loc)) (d : Device H) : Device H :=
  l.foldl (Device.transfer mem write) d

variable (mem) in
/-- Transfers concern the disk, not the thread. -/
theorem transfers_core (write : Bool) (l : List (Nat × Loc)) (d : Device H) :
    (d.transfers mem write l).core = d.core ∧ (d.transfers mem write l).pending = d.pending
      ∧ (d.transfers mem write l).tick = d.tick := by
  induction l generalizing d with
  | nil => exact ⟨rfl, rfl, rfl⟩
  | cons x l ih =>
    obtain ⟨h1, h2, h3⟩ := ih (d.transfer mem write x)
    have hx : (d.transfer mem write x).core = d.core ∧ (d.transfer mem write x).pending = d.pending
        ∧ (d.transfer mem write x).tick = d.tick := by
      unfold Device.transfer
      split <;> exact ⟨rfl, rfl, rfl⟩
    exact ⟨h1.trans hx.1, h2.trans hx.2.1, h3.trans hx.2.2⟩

variable (mem) in
theorem Steady.transfers {d : Device H} (hs : Steady cfg d) (write : Bool)
    (l : List (Nat × Loc)) : Steady cfg (d.transfers mem write l) := by
  obtain ⟨h1, h2, -⟩ := transfers_core mem write l d
  unfold Steady
  rw [h1, h2]
  exact hs

theorem finalMap_transfers (write : Bool) (l : List (Nat × Loc)) (d : Device H) :
    (d.transfers mem write l).finalMap cfg = d.finalMap cfg := by
  obtain ⟨h1, h2, -⟩ := transfers_core mem write l d
  funext b
  rw [Device.finalMap, h1, h2]
  rfl

variable (mem) in
/-- Transfers depend on the disk only. -/
theorem SameDisk.transfers {d' : Device H} (h : SameDisk d d')
    (write : Bool) (l : List (Nat × Loc)) :
    SameDisk (d.transfers mem write l) (d'.transfers mem write l) := by
  induction l generalizing d d' with
  | nil => exact h
  | cons x l ih =>
    refine ih (d := d.transfer mem write x) ?_
    cases write
    · exact ⟨h.1, by show d'.io ++ _ = d.io ++ _; rw [h.1, h.2]⟩
    · refine ⟨?_, by show d'.io ++ _ = d.io ++ _; rw [h.2]⟩
      show Function.update d'.disk _ _ = Function.update d.disk _ _
      rw [h.1]

/-- Reading records what is on the disk. -/
theorem transfers_read (l : List (Nat × Loc)) (d : Device H) :
    (d.transfers mem false l).disk = d.disk ∧ (d.transfers mem false l).io
          = d.io ++ l.map (fun x => (x.1, x.2, d.disk x.1)) := by
  induction l generalizing d with
  | nil => exact ⟨rfl, (append_nil _).symm⟩
  | cons x l ih =>
    obtain ⟨h1, h2⟩ := ih (d.transfer mem false x)
    exact ⟨h1, h2.trans (append_assoc _ _ _)⟩

/-- The submission loop transfers what the slices place. -/
theorem run_submitSlices (write : Bool) (nrTotal : Nat) :
    ∀ (slices : List Bio) (d : Device H), (∀ b ∈ slices, b.biRw.write = write) →
      run (deviceHandler H cfg mem) (submitSlices nrTotal slices) d
        = some ((), d.transfers mem write (slices.flatMap Bio.placed)) := by
  intro slices
  induction slices with
  | nil => exact fun d _ => rfl
  | cons b rest ih =>
    intro d hb
    have hsub : deviceHandler H cfg mem (LoopReq.submit b nrTotal) d
        = some ((), d.transfers mem b.biRw.write b.placed) := rfl
    rw [submitSlices, run_touch rfl, run_submitBio hsub,
      ih _ (fun x hx => hb x (mem_cons_of_mem b hx)),
      hb b mem_cons_self, flatMap_cons]
    exact congrArg (fun x => some ((), x)) (foldl_append ..).symm

theorem run_sendSlices (write : Bool) (slices : List Bio) (d : Device H)
    (hb : ∀ b ∈ slices, b.biRw.write = write) :
    run (deviceHandler H cfg mem) (sendSlices slices) d
      = some ((), d.transfers mem write (slices.flatMap Bio.placed)) := by
  rw [sendSlices]
  by_cases hnil : slices = []
  · rw [if_pos hnil, hnil]
    rfl
  · rw [if_neg hnil]
    exact run_submitSlices write slices.length slices d hb

variable (mem) in
/-- The dirty test and the flush. -/
theorem run_flushIfDirty (hs : Steady cfg d) (rw : ReqFlags) :
    ∃ d', run (deviceHandler H cfg mem) (flushIfDirty rw) d = some (0, d')
      ∧ Undisturbed cfg d d' := by
  have htest : deviceHandler H cfg mem LoopReq.testDirty d
      = some ((d.wake cfg).core.dirty, d.wake cfg) := rfl
  rw [flushIfDirty, run_testDirty htest]
  by_cases hd : (d.wake cfg).core.dirty = true
  · obtain ⟨r, d', hreq, herr, hun⟩ := request_flush hs.wake rw
    have hflush : deviceHandler H cfg mem (LoopReq.flush rw) (d.wake cfg) = some (r.error, d') := by
      show (Device.request cfg (flushCio 0 rw) (d.wake cfg)).map _ = _
      rw [hreq]
      rfl
    rw [if_pos hd]
    rw [herr] at hflush
    exact ⟨d', run_ask_some hflush, hs.undisturbed_wake.trans hun⟩
  · rw [if_neg hd]
    exact ⟨d.wake cfg, rfl, hs.undisturbed_wake⟩

variable (mem) in
theorem run_preFlush {d : Device H} (hs : Steady cfg d) (old : Bio) :
    ∃ d', run (deviceHandler H cfg mem) (preFlush old) d = some (true, d')
      ∧ Undisturbed cfg d d' := by
  rw [preFlush, run_touch rfl]
  by_cases hfl : old.biRw.flush = true
  · obtain ⟨d', hrun, h⟩ := run_flushIfDirty mem hs old.biRw
    rw [if_pos hfl]
    exact ⟨d', run_bind_some hrun, h⟩
  · rw [if_neg hfl]
    exact ⟨d, rfl, hs.undisturbed⟩

variable (mem) in
theorem run_fuaFlush {d : Device H} (hs : Steady cfg d) (rw : ReqFlags) :
    ∃ d', run (deviceHandler H cfg mem) (fuaFlush rw) d = some ((), d') ∧ Undisturbed cfg d d' := by
  rw [fuaFlush]
  by_cases hfl : rw.fua = true
  · obtain ⟨d', hrun, h⟩ := run_flushIfDirty mem hs rw
    rw [if_pos hfl]
    exact ⟨d', run_bind_some hrun, h⟩
  · rw [if_neg hfl]
    exact ⟨d, rfl, hs.undisturbed⟩

variable (mem) in
theorem run_emptyFlush {d : Device H} (hs : Steady cfg d) (old : Bio) :
    ∃ d', run (deviceHandler H cfg mem) (emptyFlush old) d = some ((), d')
      ∧ Undisturbed cfg d d' := by
  obtain ⟨d', hrun, h⟩ := run_flushIfDirty mem hs old.biRw
  exact ⟨d', run_bind_some hrun, h⟩

theorem run_loopHandleBio (old : Bio) (d : Device H) :
    run (deviceHandler H cfg mem) (loopHandleBio old) d = some ((), d) := by
  rw [loopHandleBio, run_touch rfl]
  by_cases hb : old.biBdev = none
  · rw [if_pos hb]
    rfl
  · rw [if_neg hb]
    rfl

/-- What a bio has done to a device: `m` is where its blocks are. -/
structure Redirected (cfg : Config) (mem : Loc → SectorData) (old : Bio)
    (m : Nat → Nat) (d d' : Device H) : Prop where
  steady : Steady cfg d'
  grows : Grows old.biRw.write (d.finalMap cfg) (d'.finalMap cfg)
  /-- the blocks that a writer addresses are mapped by the file -/
  written : old.biRw.write = true → ∀ k < old.sectors.length,
    d'.core.map ((old.biSector + k) / cfg.spb) = some (m ((old.biSector + k) / cfg.spb))
  /-- a reader addresses the mapped blocks, and block 0 for a hole -/
  read : old.biRw.write = false → ∀ k < old.sectors.length, m ((old.biSector + k) / cfg.spb)
      = (d.finalMap cfg ((old.biSector + k) / cfg.spb)).getD 0
  transfers : SameDisk (d.transfers mem old.biRw.write
    (place (fun k => physSector m cfg.spb (old.biSector + k)) old.sectors)) d'

variable (mem) in
/-- A bio on a steady device ends, and transfers every sector at the place that
    the file map gives it. -/
theorem run_redirectBio (hf : Fits cfg.prefetchBlocks cfg.blkbits)
    (hfuel : cfg.prefetchBlocks ≤ cfg.fuel) (bd : Nat) {old : Bio}
    (hw : old.Whole) (hs : Steady cfg d) :
    ∃ m d', run (deviceHandler H cfg mem) (redirectBio bd cfg.blkbits old) d = some ((), d')
      ∧ Redirected cfg mem old m d d' := by
  rw [redirectBio, run_bind_some (run_loopHandleBio old d), run_touch rfl]
  by_cases hempty : old.nrSectors = 0 ∧ (old.biRw.flush = true ∨ old.biRw.fua = true)
  · -- nothing to transfer
    have hnil : old.sectors = [] := by
      rw [Bio.nrSectors_eq] at hempty
      exact eq_nil_of_length_eq_zero hempty.1
    obtain ⟨d', hrun, hun⟩ := run_emptyFlush mem hs old
    rw [if_pos hempty]
    refine ⟨fun _ => 0, d', hrun, hun.steady, ?_, ?_, ?_, ?_⟩
    · rw [hun.map]
      exact .refl _ _
    · rw [hnil]
      exact fun _ k hk => absurd hk (Nat.not_lt_zero k)
    · rw [hnil]
      exact fun _ k hk => absurd hk (Nat.not_lt_zero k)
    · rw [hnil]
      exact hun.same
  · obtain ⟨d₁, hrun₁, hun₁⟩ := run_preFlush mem hs old
    obtain ⟨m, slices, d₂, hrun₂, hs₂, hsame₂, hg₂, hm, hrw, hplaced⟩ :=
      run_buildSlices mem hf hfuel bd hw hun₁.steady
    have hsub : run (deviceHandler H cfg mem) (sendSlices slices) d₂
        = some ((), d₂.transfers mem old.biRw.write (slices.flatMap Bio.placed)) :=
      run_sendSlices _ slices d₂ (fun b hb => by rw [hrw b hb])
    obtain ⟨d₃, hrun₃, hun₃⟩ := run_fuaFlush mem
      (hs₂.transfers mem old.biRw.write (slices.flatMap Bio.placed)) old.biRw
    have hcore := (transfers_core mem old.biRw.write (slices.flatMap Bio.placed) d₂).1
    refine ⟨m, d₃, ?_, hun₃.steady, ?_, ?_, ?_, ?_⟩
    · rw [if_neg hempty, run_bind_some hrun₁, if_pos rfl, redirectData,
        run_bind_some hrun₂, run_touch rfl, run_bind_some hsub]
      exact hrun₃
    · rw [hun₃.map, finalMap_transfers, ← hun₁.map]
      exact hg₂
    · intro hwr k hk
      refine hun₃.grown _ _ ?_
      rw [hcore]
      exact (hm k hk).1 hwr
    · rw [← hun₁.map]
      exact fun hrd k hk => (hm k hk).2 hrd
    · rw [← hplaced]
      exact ((hun₁.same.trans hsame₂).transfers mem _ _).trans hun₃.same

end Bios

end VirtualDisk
