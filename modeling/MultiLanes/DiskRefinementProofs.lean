import MultiLanes.VirtualDiskProofs

/-! # The virtual disk is a disk

The purpose of a loop device, said without it: a map from logical sectors to the bytes
last written (`Contents`), which a write updates and a read looks up.  A sequence of
bios on a device refines it when every bio ends, every sector that was written is read
back, and no write touches a physical block that the backing file does not map
(`Refines`).

The simulation relation is `Holds`: the bytes last written to a sector are on the host
disk, at the place that the file map gives its block.  It survives whatever the cache
and the prefetches do, because a write goes to mapped blocks only and the map is
injective.

What breaks it is arithmetic, not the cache: a window of `2^31` bytes or more makes
`got_num` negative in a hole, and the thread never answers again (`prefetchLoop_hangs`).
-/

namespace DiskRefinement

open InteractProg LoopBio LoopRedirect LoopSlice LoopThread LoopDevice Function List Option
open VirtualDisk

/-- A bio of whole sectors, and the memory that its pages are in. -/
structure DiskOp where
  bio : Bio
  whole : bio.Whole
  mem : Loc → SectorData

/-- A transfer of one sector. -/
def DiskOp.sector (write : Bool) (x : Nat) (mem : Loc → SectorData) : DiskOp where
  bio := sectorBio write x
  whole := by simp [Bio.Whole, sectorBio]
  mem := mem

/-- The bytes last written, by logical sector. -/
abbrev Contents : Type := Nat → Option SectorData

/-- A write of the abstract disk; a read leaves it alone. -/
def DiskOp.apply (op : DiskOp) (last : Contents) : Contents := fun x =>
  if op.bio.biRw.write = true ∧ op.bio.biSector ≤ x then
    match op.bio.sectors[x - op.bio.biSector]? with
    | some loc => some (op.mem loc)
    | none => last x
  else last x

variable {H : Host}

/-- A device that has just been set up. -/
def initDevice (H : Host) (file : H.State) (disk : Nat → SectorData) : Device H where
  core := ⟨LoopCache.initCache, false, file, ⟨0, 0⟩⟩
  pending := .ret ()
  disk := disk
  io := []
  tick := 0

/-- The sectors that a read delivers are those last written. -/
def Delivers (op : DiskOp) (last : Contents) (d d' : Device H) : Prop :=
  ∀ k loc v, op.bio.sectors[k]? = some loc → last (op.bio.biSector + k) = some v →
    ∃ x, (d'.io.drop d.io.length)[k]? = some (x, loc, v)

/-- A write changes mapped blocks only. -/
def WritesMapped (cfg : Config) (d d' : Device H) : Prop :=
  ∀ x, d'.disk x ≠ d.disk x → ∃ b, d'.core.map b = some (x / cfg.spb)

/-- A sequence of bios, one after another, on a device whose contents are `last`. -/
def Refines (cfg : Config) : Contents → Device H → List DiskOp → Prop
  | _, _, [] => True
  | last, d, op :: ops =>
    ∃ d', run (deviceHandler H cfg op.mem)
          (redirectBio 0 cfg.blkbits op.bio) d = some ((), d')
      ∧ (op.bio.biRw.write = false → Delivers op last d d')
      ∧ (op.bio.biRw.write = true → WritesMapped cfg d d')
      ∧ Refines cfg (op.apply last) d' ops

/-- Every sequence of bios on every device with these parameters, whatever the
    host, the contents of the disk and the schedule of the thread. -/
def VirtualDiskCorrect (prefetchBlocks : Int) (blkbits : Nat) : Prop :=
  ∀ (H : Host) (file : H.State) (disk : Nat → SectorData)
    (sched : Nat → Nat) (ops : List DiskOp), ∃ fuel₀, ∀ fuel ≥ fuel₀,
    Refines ⟨prefetchBlocks, blkbits, fuel, sched⟩ (fun _ => none)
      (initDevice H file disk) ops

/-! ## Places on the host disk -/

/-- Writing a list of placed sectors. -/
def writeAll (mem : Loc → SectorData) (l : List (Nat × Loc))
    (disk : Nat → SectorData) : Nat → SectorData :=
  l.foldl (fun f x => update f x.1 (mem x.2)) disk

theorem transfers_write (mem : Loc → SectorData) (l : List (Nat × Loc)) (d : Device H) :
    (d.transfers mem true l).disk = writeAll mem l d.disk := by
  induction l generalizing d with
  | nil => rfl
  | cons x l ih => exact ih (d.transfer mem true x)

/-- Elsewhere nothing changes. -/
theorem writeAll_of_not_mem (mem : Loc → SectorData) {l : List (Nat × Loc)}
    (disk : Nat → SectorData) {x : Nat} (hx : ∀ y ∈ l, y.1 ≠ x) :
    writeAll mem l disk x = disk x := by
  induction l generalizing disk with
  | nil => rfl
  | cons y l ih =>
    have hy : y.1 ≠ x := hx y (.head _)
    exact (ih (update disk y.1 (mem y.2)) (fun z hz => hx z (mem_cons_of_mem y hz))).trans
      (update_of_ne (Ne.symm hy) _ _)

/-- At distinct places everything arrives. -/
theorem writeAll_of_mem (mem : Loc → SectorData) {l : List (Nat × Loc)}
    (disk : Nat → SectorData) (hd : l.Pairwise (fun x y => x.1 ≠ y.1))
    {y : Nat × Loc} (hy : y ∈ l) : writeAll mem l disk y.1 = mem y.2 := by
  induction l generalizing disk with
  | nil => cases hy
  | cons z l ih =>
    obtain ⟨hz, hd'⟩ := pairwise_cons.mp hd
    rcases mem_cons.mp hy with rfl | hy'
    · exact (writeAll_of_not_mem mem (update disk y.1 (mem y.2))
        (fun w hw => Ne.symm (hz w hw))).trans (update_self ..)
    · exact ih _ hd' hy'

theorem mem_place {f : Nat → Nat} {ls : List Loc} {y : Nat × Loc} :
    y ∈ place f ls ↔ ∃ k, ls[k]? = some y.2 ∧ y.1 = f k := by
  rw [mem_iff_getElem?]
  constructor
  · rintro ⟨k, hk⟩
    rw [place, List.getElem?_mapIdx] at hk
    obtain ⟨loc, hloc, rfl⟩ := map_eq_some_iff.mp hk
    exact ⟨k, hloc, rfl⟩
  · rintro ⟨k, hloc, h1⟩
    refine ⟨k, ?_⟩
    rw [place, List.getElem?_mapIdx, hloc, map_some, ← h1]

theorem place_pairwise {f : Nat → Nat} {ls : List Loc}
    (hf : ∀ i j, i < ls.length → j < ls.length → f i = f j → i = j) :
    (place f ls).Pairwise (fun x y => x.1 ≠ y.1) := by
  rw [pairwise_iff_getElem]
  intro i j hi hj hij
  rw [place_length] at hi hj
  simp only [place, getElem_mapIdx]
  intro heq
  exact absurd (hf i j hi hj heq) (ne_of_lt hij)

/-- Two sectors have one place only if their blocks have. -/
theorem physSector_inj {m m' : Nat → Nat} {spb x y : Nat} (hpos : 0 < spb)
    (h : physSector m spb x = physSector m' spb y) :
    m (x / spb) = m' (y / spb) ∧ x % spb = y % spb := by
  have hx := Nat.mod_lt x hpos
  have hy := Nat.mod_lt y hpos
  have hdiv := congrArg (· / spb) h
  have hmod := congrArg (· % spb) h
  simp only [physSector, mul_comm _ spb, Nat.mul_add_div hpos,
    Nat.mul_add_mod, Nat.div_eq_of_lt hx, Nat.div_eq_of_lt hy,
    Nat.mod_eq_of_lt hx, Nat.mod_eq_of_lt hy, add_zero] at hdiv hmod
  exact ⟨hdiv, hmod⟩

/-- A sector is its block and its offset. -/
theorem sector_ext {spb x y : Nat} (hd : x / spb = y / spb) (hm : x % spb = y % spb) : x = y := by
  rw [← Nat.div_add_mod x spb, ← Nat.div_add_mod y spb, hd, hm]

theorem spb_pos (cfg : Config) : 0 < cfg.spb := Nat.two_pow_pos _

theorem physSector_div (m : Nat → Nat) {spb x : Nat} (hpos : 0 < spb) :
    physSector m spb x / spb = m (x / spb) := by
  rw [physSector, mul_comm, Nat.mul_add_div hpos, Nat.div_eq_of_lt (Nat.mod_lt x hpos), add_zero]

/-! ## The simulation -/

/-- The bytes last written to a sector are where the file map puts it. -/
def Holds (cfg : Config) (last : Contents) (d : Device H) : Prop :=
  ∀ x v, last x = some v → ∃ p, d.finalMap cfg (x / cfg.spb) = some p
    ∧ d.disk (p * cfg.spb + x % cfg.spb) = v

theorem Steady.finalMap_inj {cfg : Config} {d : Device H} (hs : Steady cfg d) {b b' p : Nat}
    (h : d.finalMap cfg b = some p) (h' : d.finalMap cfg b' = some p) : b = b' := by
  obtain ⟨⟨⟩, c, hrun, -, -⟩ := hs
  rw [finalMap_eq hrun] at h h'
  exact H.inj h h'

section Simulation

variable {cfg : Config} {op : DiskOp} {m : Nat → Nat} {d d' : Device H} {last : Contents}

section

variable (hr : Redirected cfg op.mem op.bio m d d')
include hr

/-- A read delivers what the relation promises. -/
theorem delivers_of_redirected (hread : op.bio.biRw.write = false) (hh : Holds cfg last d) :
    Delivers op last d d' := by
  intro k loc v hloc hlast
  have hk : k < op.bio.sectors.length := (List.getElem?_eq_some_iff.mp hloc).1
  obtain ⟨p, hp, hdisk⟩ := hh _ v hlast
  have hm : m ((op.bio.biSector + k) / cfg.spb) = p := by
    rw [hr.read hread k hk, hp]
    rfl
  have hio := hr.transfers.2
  rw [hread, (transfers_read _ d).2] at hio
  refine ⟨physSector m cfg.spb (op.bio.biSector + k), ?_⟩
  rw [hio, drop_left, List.getElem?_map, place, List.getElem?_mapIdx, hloc]
  simp only [map_some, Option.some.injEq, Prod.mk.injEq, true_and]
  rw [physSector, hm]
  exact hdisk

theorem holds_of_read (hread : op.bio.biRw.write = false) (hh : Holds cfg last d) :
    Holds cfg (op.apply last) d' := by
  intro x v hlast
  have hsame : op.apply last x = last x := if_neg (by rw [hread]; simp)
  rw [hsame] at hlast
  obtain ⟨p, hp, hdisk⟩ := hh x v hlast
  refine ⟨p, by rw [hr.grows.2 hread]; exact hp, ?_⟩
  rw [hr.transfers.1, hread, (transfers_read _ d).1]
  exact hdisk

section

variable (hwrite : op.bio.biRw.write = true)
include hwrite

/-- The disk after a write. -/
theorem disk_of_write :
    d'.disk = writeAll op.mem (place (fun k => physSector m cfg.spb (op.bio.biSector + k))
        op.bio.sectors) d.disk := by
  rw [hr.transfers.1, hwrite, transfers_write]

/-- The places that a write addresses are mapped for good. -/
theorem written_final {k : Nat} (hk : k < op.bio.sectors.length) :
    d'.finalMap cfg ((op.bio.biSector + k) / cfg.spb)
      = some (m ((op.bio.biSector + k) / cfg.spb)) :=
  hr.steady.map_le_finalMap (hr.written hwrite k hk)

theorem writesMapped_of_redirected : WritesMapped cfg d d' := by
  intro x hx
  by_contra hno
  apply hx
  rw [disk_of_write hr hwrite]
  refine writeAll_of_not_mem _ _ ?_
  intro y hy heq
  obtain ⟨k, hloc, hk⟩ := mem_place.mp hy
  refine hno ⟨(op.bio.biSector + k) / cfg.spb, ?_⟩
  rw [hr.written hwrite k (List.getElem?_eq_some_iff.mp hloc).1, ← heq, hk,
    physSector_div m (spb_pos cfg)]

/-- The sectors of one bio go to distinct places. -/
theorem places_distinct :
    (place (fun k => physSector m cfg.spb (op.bio.biSector + k))
      op.bio.sectors).Pairwise (fun x y => x.1 ≠ y.1) := by
  apply place_pairwise
  intro i j hi hj heq
  obtain ⟨hblk, hoff⟩ := physSector_inj (spb_pos cfg) heq
  have hi' := written_final hr hwrite hi
  have hj' := written_final hr hwrite hj
  rw [hblk] at hi'
  have hdiv := Steady.finalMap_inj hr.steady hi' hj'
  have := sector_ext hdiv hoff
  omega

theorem holds_of_write (hh : Holds cfg last d) :
    Holds cfg (op.apply last) d' := by
  intro x v hlast
  rw [disk_of_write hr hwrite]
  by_cases hin : op.bio.biSector ≤ x ∧ x - op.bio.biSector < op.bio.sectors.length
  · -- a sector that the bio has written
    obtain ⟨hle, hlt⟩ := hin
    have hx : op.bio.biSector + (x - op.bio.biSector) = x := by omega
    have hloc := List.getElem?_eq_getElem hlt
    have hv : op.mem op.bio.sectors[x - op.bio.biSector] = v := by
      unfold DiskOp.apply at hlast
      rw [if_pos ⟨hwrite, hle⟩, hloc] at hlast
      exact Option.some.inj hlast
    have hp := written_final hr hwrite hlt
    rw [hx] at hp
    refine ⟨m (x / cfg.spb), hp, ?_⟩
    have hmem : (physSector m cfg.spb x, op.bio.sectors[x - op.bio.biSector])
        ∈ place (fun k => physSector m cfg.spb (op.bio.biSector + k))
          op.bio.sectors :=
      mem_place.mpr ⟨x - op.bio.biSector, hloc, by rw [hx]⟩
    have := writeAll_of_mem op.mem d.disk (places_distinct hr hwrite) hmem
    rw [← hv]
    exact this
  · -- any other sector has another place
    have hold : op.apply last x = last x := by
      unfold DiskOp.apply
      split
      · rename_i hc
        rw [List.getElem?_eq_none (by omega)]
      · rfl
    rw [hold] at hlast
    obtain ⟨p, hp, hdisk⟩ := hh x v hlast
    have hp' := hr.grows.1 _ _ hp
    refine ⟨p, hp', ?_⟩
    rw [writeAll_of_not_mem, hdisk]
    intro y hy heq
    obtain ⟨k, hloc, hk⟩ := mem_place.mp hy
    have hlt := (List.getElem?_eq_some_iff.mp hloc).1
    have hplace : physSector m cfg.spb (op.bio.biSector + k)
        = physSector (fun _ => p) cfg.spb x := by
      rw [← hk, heq]
      rfl
    obtain ⟨hblk, hoff⟩ := physSector_inj (spb_pos cfg) hplace
    have hk' := written_final hr hwrite hlt
    rw [hblk] at hk'
    have hdiv := Steady.finalMap_inj hr.steady hk' hp'
    have := sector_ext hdiv hoff
    omega

end

end

end Simulation

/-- Every sequence of bios on a steady device refines the abstract disk. -/
theorem refines_of_holds {cfg : Config} (hf : Fits cfg.prefetchBlocks cfg.blkbits)
    (hfuel : cfg.prefetchBlocks ≤ cfg.fuel) :
    ∀ (ops : List DiskOp) (last : Contents) (d : Device H), Steady cfg d →
      Holds cfg last d → Refines cfg last d ops := by
  intro ops
  induction ops with
  | nil => exact fun _ _ _ _ => trivial
  | cons op ops ih =>
    intro last d hs hh
    obtain ⟨m, d', hrun, hr⟩ := run_redirectBio op.mem hf hfuel 0 op.whole hs
    refine ⟨d', hrun, fun hread => delivers_of_redirected hr hread hh,
      fun hwrite => writesMapped_of_redirected hr hwrite, ih _ d' hr.steady ?_⟩
    cases hw : op.bio.biRw.write
    · exact holds_of_read hr hw hh
    · exact holds_of_write hr hw hh

theorem initDevice_steady (cfg : Config) (file : H.State)
    (disk : Nat → SectorData) : Steady cfg (initDevice H file disk) :=
  .ret (LoopCache.initCache_agrees _) trivial

/-! ## A device that hangs -/

/-- The thread is in a loop that it does not leave, with this cache. -/
def Hung (cfg : Config) (cache : LoopCache.BlockCache) (d : Device H) : Prop :=
  Hangs cfg.blkbits d.pending d.core ∧ d.core.cache = cache

section Hang

variable {cfg : Config} {cache : LoopCache.BlockCache}
  {mem : Loc → SectorData} {d d' : Device H}

theorem Hung.wake (h : Hung cfg cache d) : Hung cfg cache (d.wake cfg) := by
  obtain ⟨⟨hrun, hpass⟩, hcache⟩ := h
  have hnow : (d.wake cfg).core.cache = d.core.cache := by
    refine hpass _ (Passes.of_stepMany (n := cfg.sched d.tick) (r := (d.pending, d.core)) ?_)
    exact passes_self _ _ _
  refine ⟨⟨(run_stepMany _ _ (d.pending, d.core)).trans hrun, ?_⟩, hnow.trans hcache⟩
  intro t ht
  rw [hnow]
  exact hpass t (Passes.of_stepMany (r := (d.pending, d.core)) ht)

theorem Hung.request (h : Hung cfg cache d) (cio : CioReq) : d.request cfg cio = none := by
  unfold Device.request
  rw [h.1.1]

theorem transfers_hung (h : Hung cfg cache d) (write : Bool)
    (l : List (Nat × Loc)) : Hung cfg cache (d.transfers mem write l) := by
  obtain ⟨h1, h2, -⟩ := transfers_core mem write l d
  unfold Hung
  rw [h1, h2]
  exact h

/-- A requester cannot help a device that hangs. -/
theorem hung_step {q : LoopReq} {x : q.Ans}
    (hq : deviceHandler H cfg mem q d = some (x, d')) (h : Hung cfg cache d) :
    Hung cfg cache d' := by
  cases q with
  | testDirty =>
    cases hq
    exact h.wake
  | cacheLookup b =>
    cases hq
    exact h.wake
  | flush rw =>
    have hnone : deviceHandler H cfg mem (.flush rw) d = none := by
      show (Device.request cfg (flushCio 0 rw) d).map _ = none
      rw [h.request]
      rfl
    rw [hnone] at hq
    cases hq
  | cioRequest b rw =>
    have hnone : deviceHandler H cfg mem (.cioRequest b rw) d = none :=
      h.request _
    rw [hnone] at hq
    cases hq
  | submit b n =>
    cases hq
    exact transfers_hung h _ _
  | bug => cases hq
  | spin => cases hq
  | _ =>
    cases hq
    exact h

theorem run_hung {α : Type} {p : Prog LoopSig α} {a : α}
    (hrun : run (deviceHandler H cfg mem) p d = some (a, d'))
    (h : Hung cfg cache d) : Hung cfg cache d' :=
  run_induct (R := fun d d' => Hung cfg cache d → Hung cfg cache d')
    (fun _ h => h) (fun h h' hd => h' (h hd)) hung_step hrun h

/-- A lookup that finds nothing. -/
theorem lookup_miss {b : Nat} (h : (d.wake cfg).core.cache.blockCacheLookup b = 0) :
    deviceHandler H cfg mem (LoopReq.cacheLookup b) d = some ((0 : Nat), d.wake cfg) := by
  show some ((d.wake cfg).core.cache.blockCacheLookup b, _) = _
  rw [h]

theorem run_cioRequest (b : Nat) (rw : ReqFlags) (d : Device H) :
    run (deviceHandler H cfg mem) (cioMakeRequest b rw) d
      = d.request cfg (translationCio cfg.prefetchBlocks b rw) := by
  cases hq : d.request cfg (translationCio cfg.prefetchBlocks b rw) with
  | none => exact run_ask_none hq
  | some x => exact run_ask_some hq

/-- A block that is not cached is not translated any more. -/
theorem translateBlock_hung (h : Hung cfg cache d) (old : Bio) {b : Nat}
    (hmiss : cache.blockCacheLookup b = 0) :
    run (deviceHandler H cfg mem) (translateBlock old b) d = none := by
  have hlook : deviceHandler H cfg mem (LoopReq.cacheLookup b) d = some ((0 : Nat), d.wake cfg) :=
    lookup_miss (by rw [h.wake.2]; exact hmiss)
  rw [translateBlock, run_blockCacheLookup hlook, if_neg (by decide),
    run_touch rfl, run_bind, run_cioRequest, h.wake.request]
  rfl

variable (cache) in
/-- A data bio begins with the translation of its first block, and what follows
    does not help a device that hangs. -/
theorem redirectBio_translates {old : Bio} (hn : old.nrSectors ≠ 0) (hfl : old.biRw.flush = false)
    (h : run (deviceHandler H cfg mem) (redirectBio 0 cfg.blkbits old) d = some ((), d')) :
    ∃ tr d₁, run (deviceHandler H cfg mem)
          (translateBlock old (old.biSector / cfg.spb)) d = some (tr, d₁)
      ∧ (Hung cfg cache d₁ → Hung cfg cache d') := by
  have hdata : run (deviceHandler H cfg mem)
      (redirectData 0 cfg.blkbits old) d = some ((), d') := by
    have hok : run (deviceHandler H cfg mem) (preFlush old) d = some (true, d) := by
      rw [preFlush, run_touch rfl, if_neg (by rw [hfl]; decide)]
      rfl
    rw [redirectBio, run_bind_some (run_loopHandleBio old d), run_touch rfl,
      if_neg (fun h => hn h.1), run_bind_some hok] at h
    exact h
  obtain ⟨built, d₃, hbuild, hrest₃⟩ := run_bind_eq_some.mp hdata
  obtain ⟨done, d₂, hloop, hrest₂⟩ := run_bind_eq_some.mp hbuild
  obtain ⟨n, hn'⟩ := Nat.exists_eq_succ_of_ne_zero hn
  have hmore : ¬ (Cursor.start old).nrTotalSectors = 0 := hn
  rw [hn', blockLoop, if_neg hmore] at hloop
  obtain ⟨tr, d₁, htr, hrest₁⟩ := run_bind_eq_some.mp hloop
  exact ⟨tr, d₁, htr, fun h₁ => run_hung hrest₃ (run_hung hrest₂ (run_hung hrest₁ h₁))⟩

variable (mem) in
/-- A bio whose first block is not cached does not end. -/
theorem redirectBio_hung (old : Bio) (hn : old.nrSectors ≠ 0) (hfl : old.biRw.flush = false)
    (h : Hung cfg cache d) (hmiss : cache.blockCacheLookup (old.biSector / cfg.spb) = 0) :
    run (deviceHandler H cfg mem) (redirectBio 0 cfg.blkbits old) d = none := by
  by_contra hne
  obtain ⟨⟨⟨⟩, d'⟩, hrun⟩ := ne_none_iff_exists'.mp hne
  obtain ⟨tr, d₁, htr, -⟩ := redirectBio_translates cache hn hfl hrun
  rw [translateBlock_hung h old hmiss] at htr
  cases htr

end Hang

/-- A read of the first sector of the disk. -/
def firstSector : DiskOp := .sector false 0 fun _ _ => 0

theorem wake_initDevice (cfg : Config) (file : H.State) (disk : Nat → SectorData) :
    ((initDevice H file disk).wake cfg).core = (initDevice H file disk).core
      ∧ ((initDevice H file disk).wake cfg).pending = .ret () := by
  have hstep := stepMany_ret (threadHandler H cfg.blkbits)
    (cfg.sched 0) () (initDevice H file disk).core
  exact ⟨congrArg Prod.snd hstep, congrArg Prod.fst hstep⟩

/-- A translation for reading an empty file, asked of an idle thread, makes the
    device hang when the window does not fit. -/
theorem request_hung {cfg : Config} (hpos : 0 < cfg.prefetchBlocks)
    (hover : ¬ cfg.prefetchBlocks * 2 ^ cfg.blkbits < 2 ^ 31) {d d' : Device H}
    (hidle : d.pending = .ret ()) (hempty : ∀ b, d.core.map b = none)
    (hcache : d.core.cache = LoopCache.initCache) {rw : ReqFlags} (hread : rw.write = false)
    {b : Nat} {r : CioReply}
    (h : d.request cfg (translationCio cfg.prefetchBlocks b rw) = some (r, d')) :
    Hung cfg LoopCache.initCache d' := by
  have hserve : serveCio cfg.prefetchBlocks cfg.blkbits cfg.fuel
      (translationCio cfg.prefetchBlocks b rw)
      = serveTranslation cfg.prefetchBlocks cfg.blkbits cfg.fuel false b := by
    rw [serveCio_translation (by omega), hread]
  unfold Device.request at h
  rw [hidle, run_ret, hserve] at h
  have hhang := serveTranslation_hangs hpos hover cfg.fuel b
    (c := { d.core with cio := { d.core.cio with error := 0 } }) hempty hcache
  cases hu : runUntil (threadHandler H cfg.blkbits) isComplete
      (serveTranslation cfg.prefetchBlocks cfg.blkbits cfg.fuel false b)
      { d.core with cio := { d.core.cio with error := 0 } } with
  | none =>
    simp only [hu] at h
    cases h
  | some x =>
    obtain ⟨rest, c₁⟩ := x
    simp only [hu] at h
    cases h
    obtain ⟨hrest, hsame⟩ := hhang.runUntil hu
    exact ⟨hrest, hsame.trans hcache⟩

/-- The first read of an empty file makes a device hang when its window does not fit. -/
theorem hung_of_first_read {cfg : Config} (hpos : 0 < cfg.prefetchBlocks)
    (hover : ¬ cfg.prefetchBlocks * 2 ^ cfg.blkbits < 2 ^ 31) {file : H.State}
    (hempty : ∀ b, H.map file b = none) {disk : Nat → SectorData}
    {d' : Device H}
    (h : run (deviceHandler H cfg firstSector.mem)
      (redirectBio 0 cfg.blkbits firstSector.bio) (initDevice H file disk)
      = some ((), d')) : Hung cfg LoopCache.initCache d' := by
  obtain ⟨tr, d₁, htr, hkeep⟩ :=
    redirectBio_translates LoopCache.initCache (by decide) rfl h
  apply hkeep
  obtain ⟨hcore, hpend⟩ := wake_initDevice cfg file disk
  have hcache : ((initDevice H file disk).wake cfg).core.cache
      = LoopCache.initCache := by rw [hcore]; rfl
  rw [translateBlock, run_blockCacheLookup (lookup_miss (by rw [hcache]; rfl)),
    if_neg (by decide), run_touch rfl] at htr
  obtain ⟨r, d₂, hreq, hrest⟩ := run_bind_eq_some.mp htr
  rw [run_cioRequest] at hreq
  refine run_hung hrest (request_hung hpos hover hpend ?_ hcache rfl hreq)
  rw [hcore]
  exact hempty

/-- The virtual disk is a disk for the windows that fit, and for no others. -/
theorem virtualDiskCorrect_iff {prefetchBlocks : Int} (hpos : 0 < prefetchBlocks) (blkbits : Nat) :
    VirtualDiskCorrect prefetchBlocks blkbits ↔ prefetchBlocks * 2 ^ blkbits < 2 ^ 31 := by
  constructor
  · intro h
    by_contra hover
    obtain ⟨fuel, hfuel⟩ := h sparseHost (fun _ => false) (fun _ _ => 0)
      (fun _ => 0) [firstSector, firstSector]
    obtain ⟨d₁, hrun₁, -, -, d₂, hrun₂, -⟩ := hfuel fuel (Nat.le_refl fuel)
    have hhung := hung_of_first_read hpos hover (fun _ => rfl) hrun₁
    have hnone := redirectBio_hung firstSector.mem firstSector.bio (by decide) rfl hhung rfl
    rw [hnone] at hrun₂
    exact nomatch hrun₂
  · intro hfits H file disk sched ops
    refine ⟨prefetchBlocks.toNat, fun fuel hfuel => ?_⟩
    refine refines_of_holds ⟨hpos, hfits⟩ ?_ ops _ _ (initDevice_steady _ file disk) ?_
    · show prefetchBlocks ≤ (fuel : Int)
      omega
    · intro x v hx
      exact nomatch hx

/-- A window of sixteen blocks of 4096 bytes. -/
theorem virtualDiskCorrect_sixteen : VirtualDiskCorrect 16 12 :=
  (virtualDiskCorrect_iff (by decide) 12).mpr (by decide)

/-! ## A sector that is written and never read -/

/-- One sector, the first of block 1. -/
def oneSector (write : Bool) : DiskOp := .sector write 8 fun _ _ => 7

/-- The last sector of block 0 and the first of block 1. -/
def twoSectors : DiskOp where
  bio :=
    { biBdev := some 0
      biSector := 7
      biRw := ⟨false, false, false⟩
      biIdx := 0
      biMaxVecs := 1
      biIoVec := [⟨0, 1024, 0⟩] }
  whole := by simp [Bio.Whole]
  mem := fun _ _ => 0

/-- What follows the translation of block 1 to the host's block 2. -/
theorem run_oneSector {cfg : Config} (write : Bool) {d d₁ : Device H}
    (h : run (deviceHandler H cfg (oneSector write).mem)
      (translateBlock (oneSector write).bio 1) d = some (some 2, d₁)) :
    run (deviceHandler H cfg (oneSector write).mem) (redirectBio 0 12 (oneSector write).bio) d
      = some ((), d₁.transfer (oneSector write).mem write (16, ⟨0, 0⟩)) := by
  have hloop : run (deviceHandler H cfg (oneSector write).mem)
      (blockLoop 0 12 (oneSector write).bio 1 (.start (oneSector write).bio)) d
      = some (some ⟨9, 17, 0, 1, 1, 0, 512, 0, some ⟨some 0, 16,
          ⟨write, false, false⟩, 0, 1, [⟨0, 512, 0⟩]⟩, []⟩, d₁) := by
    cases write <;> exact (run_bind_some h).trans rfl
  have hslices : run (deviceHandler H cfg (oneSector write).mem)
      (buildSlices 0 12 (oneSector write).bio) d
      = some (some [⟨some 0, 16, ⟨write, false, false⟩, 0, 1, [⟨0, 512, 0⟩]⟩], d₁) := by
    cases write <;> exact (run_bind_some hloop).trans rfl
  show run _ (redirectData 0 12 (oneSector write).bio) d = _
  cases write <;> exact (run_bind_some hslices).trans rfl

/-- A window of `2^20` blocks of 4096 bytes; the thread makes one step before a
    requester looks at its state. -/
def wideConfig (fuel : Nat) : Config := ⟨2 ^ 20, 12, fuel + 1, fun _ => 1⟩

/-- The thread when it has answered for block 1, the only one of the file: the
    block is not cached yet. -/
def islandRest (fuel : Nat) : Prog ThreadSig Unit := do
  LoopThread.addCache 2 1
  prefetchLoop (2 ^ 20) 12 false fuel 1 2

def islandCore : Core sparseHost :=
  ⟨LoopCache.initCache, false, update (fun b => b == 1) 1 true, ⟨0, 2⟩⟩

def islandDevice (fuel : Nat) : Device sparseHost :=
  ⟨islandCore, islandRest fuel, fun _ _ => 0, [], 1⟩

theorem island_translated (fuel : Nat) :
    run (deviceHandler sparseHost (wideConfig fuel) (oneSector false).mem)
        (translateBlock (oneSector false).bio 1)
        (initDevice sparseHost (fun b => b == 1) (fun _ _ => 0))
      = some (some 2, islandDevice fuel) := by
  have hreq : (Device.wake (wideConfig fuel)
        (initDevice sparseHost (fun b => b == 1) (fun _ _ => 0))).request
        (wideConfig fuel) (translationCio (2 ^ 20) 1 ⟨false, false, false⟩)
      = some (⟨0, 2⟩, islandDevice fuel) := by
    refine request_eq (c := (initDevice sparseHost (fun b => b == 1)
      (fun _ _ => 0)).core) (e := islandCore) rfl ?_
    show runUntil _ _ (serveCio (2 ^ 20) 12 (fuel + 1) _) _ = _
    rw [serveCio_translation (by decide)]
    show runUntil (threadHandler sparseHost 12) isComplete
      (serveTranslation (2 ^ 20) 12 (fuel + 1) false 1)
      (initDevice sparseHost (fun b => b == 1) (fun _ _ => 0)).core = _
    rfl
  rw [translateBlock, run_blockCacheLookup (lookup_miss rfl),
    if_neg (by decide), run_touch rfl, run_bind, run_cioRequest]
  show (Device.request _ (translationCio (2 ^ 20) 1 ⟨false, false, false⟩) _).bind _ = _
  rw [hreq]
  rfl

/-- The thread of `islandDevice` never finishes: the rest of the window, `2^20 - 1`
    blocks, has a size that is negative as an `int`. -/
theorem island_hangs (fuel : Nat) : Hangs 12 (prefetchLoop (2 ^ 20) 12 false fuel 1 2)
      { islandCore with cache := LoopCache.initCache.addCache 2 1 } := by
  refine prefetchLoop_hangs (show (1 : Int) < 2 ^ 20 by decide) (by decide)
    fuel 1 2 _ (Int.le_refl 1) fun b hb => ?_
  show (if update (fun b => b == 1) 1 true b = true then _ else _) = _
  rw [update_of_ne (by omega), if_neg (by simp; omega)]

/-- Sector 8 is read, which starts the thread on a window that it does not leave; it is
    written, with the block cached; and a read of the sectors 7 and 8 does not end. -/
theorem written_never_read (fuel : Nat) : ∃ d₁ d₂ : Device sparseHost,
      run (deviceHandler sparseHost (wideConfig fuel) (oneSector false).mem)
          (redirectBio 0 12 (oneSector false).bio)
          (initDevice sparseHost (fun b => b == 1) (fun _ _ => 0))
        = some ((), d₁)
      ∧ run (deviceHandler sparseHost (wideConfig fuel) (oneSector true).mem)
          (redirectBio 0 12 (oneSector true).bio) d₁ = some ((), d₂)
      ∧ run (deviceHandler sparseHost (wideConfig fuel) twoSectors.mem)
          (redirectBio 0 12 twoSectors.bio) d₂ = none := by
  have hcached : run (deviceHandler sparseHost (wideConfig fuel)
        (oneSector true).mem) (translateBlock (oneSector true).bio 1)
        ((islandDevice fuel).transfer (oneSector false).mem false (16, ⟨0, 0⟩))
      = some (some 2, Device.wake (wideConfig fuel) ((islandDevice fuel).transfer
          (oneSector false).mem false (16, ⟨0, 0⟩))) := rfl
  refine ⟨_, _, run_oneSector false (island_translated fuel), run_oneSector true hcached, ?_⟩
  have hmiss : (LoopCache.initCache.addCache 2 1).blockCacheLookup (7 / 2 ^ (12 - 9)) = 0 := rfl
  have hhung : Hung (wideConfig fuel) (LoopCache.initCache.addCache 2 1)
      (((islandDevice fuel).transfer (oneSector false).mem false
        (16, ⟨0, 0⟩)).wake (wideConfig fuel)) := ⟨island_hangs fuel, rfl⟩
  exact redirectBio_hung _ twoSectors.bio (by decide) rfl
    (transfers_hung hhung true [(16, ⟨0, 0⟩)]) hmiss

/-- A window of 4 GiB is no disk. -/
theorem wideWindow_incorrect : ¬ VirtualDiskCorrect (2 ^ 20) 12 := by
  intro h
  obtain ⟨fuel, hfuel⟩ := h sparseHost (fun b => b == 1) (fun _ _ => 0)
    (fun _ => 1) [oneSector false, oneSector true, twoSectors]
  obtain ⟨d₁, d₂, hrun₁, hrun₂, hnone⟩ := written_never_read fuel
  obtain ⟨e₁, hr₁, -, -, e₂, hr₂, -, -, e₃, hr₃, -⟩ :=
    hfuel (fuel + 1) (Nat.le_succ fuel)
  obtain rfl : d₁ = e₁ :=
    congrArg Prod.snd (mem_unique hrun₁ hr₁)
  obtain rfl : d₂ = e₂ :=
    congrArg Prod.snd (mem_unique hrun₂ hr₂)
  exact nomatch hnone.symm.trans hr₃

end DiskRefinement
