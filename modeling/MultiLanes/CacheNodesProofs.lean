import MultiLanes.LoopDeviceProofs
import MultiLanes.CacheHistoryProofs
import MultiLanes.ChoiceProofs

/-! # How many nodes a block has

The thread looks up the first block of a request only, and then inserts every mapped
block of its window.  With a window of one block that is the block it has looked up, and
no block ever gets a second node (`stays_serveCio`).  With any longer window it is
easily done: a reader that starts in a hole caches what is behind the hole, and the
writer that fills the hole caches it again (`hole_then_write`).

Requests are served one after the other, against any host and over any number of
requests; that the thread may stay in a loop for ever is no exception, so the invariant
is stated of every moment of a run and not of its end. -/

namespace LoopDevice

open InteractProg LoopBio LoopThread LoopCache Function List

/-- The requests that `loop_thread` takes from its list, in turn. -/
def serveAll (prefetchBlocks : Int) (blkbits fuel : Nat) : List CioReq → Prog ThreadSig Unit
  | [] => return ()
  | cio :: rest => do
    serveCio prefetchBlocks blkbits fuel cio
    serveAll prefetchBlocks blkbits fuel rest

/-- The number of nodes that the cache has for a logical block. -/
def nodesFor (c : BlockCache) (b : Nat) : Nat :=
  (c.lru.map (fun id => (c.node id).blkLocal)).count b

theorem nodesFor_holds {c : BlockCache} {h : List CacheNode} (hc : c.Holds h)
    (b : Nat) : nodesFor c b = (h.map (fun n => n.blkLocal)).count b := by
  rw [← hc.nodes, map_map]
  rfl

/-- At no moment does a device that starts with an empty cache have two nodes
    for one block, whatever the host and the requests. -/
def OneNodeEach (prefetchBlocks : Int) (blkbits : Nat) : Prop :=
  ∀ (H : Host) (c t : Core H) (fuel : Nat) (cios : List CioReq), c.cache = initCache →
    Passes (threadHandler H blkbits) (serveAll prefetchBlocks blkbits fuel cios) c t →
    ∀ b, nodesFor t.cache b ≤ 1

/-! ## A window of one block -/

section Single

variable {H : Host} {blkbits : Nat}

/-- The cache is a history without repetitions. -/
def Single (c : Core H) : Prop :=
  ∃ h, c.cache.Holds h ∧ h.length ≤ lruLength ∧ (h.map (fun n => n.blkLocal)).Nodup

variable {c : Core H}

theorem Single.of_cache {c' : Core H} (h : Single c) (hcache : c'.cache = c.cache) : Single c' := by
  unfold Single
  rw [hcache]
  exact h

theorem single_of_initCache (h : c.cache = initCache) : Single c := by
  refine ⟨[], ?_, Nat.zero_le _, nodup_nil⟩
  rw [h]
  exact initCache_holds

theorem Single.nodesFor_le (h : Single c) (b : Nat) : nodesFor c.cache b ≤ 1 := by
  obtain ⟨l, hl, -, hnodup⟩ := h
  rw [nodesFor_holds hl]
  exact nodup_iff_count_le_one.mp hnodup b

/-- A block without a node gets its first. -/
theorem Single.addCache (h : Single c) {b : Nat} (hb : c.cache.findCacheNode b = none) (p : Nat) :
    Single { c with cache := c.cache.addCache p b } := by
  obtain ⟨l, hl, hle, hnodup⟩ := h
  have hfresh : b ∉ l.map (fun n => n.blkLocal) := by
    intro hmem
    obtain ⟨n, hn, hkey⟩ := mem_map.mp hmem
    rw [hl.find b, find?_eq_none] at hb
    exact hb n hn (decide_eq_true hkey)
  refine ⟨_, hl.addCache hle p b, length_take_le .., ?_⟩
  rw [map_take]
  exact (nodup_cons.mpr ⟨hfresh, hnodup⟩).sublist (take_sublist _ _)

/-- The steps that leave the cache alone. -/
def keepsCache (q : ThreadReq) : Prop := ∀ p b, q ≠ .addCache p b

/-- Code that never inserts. -/
def NeverInserts (p : Prog ThreadSig Unit) : Prop :=
  Asks (S := ThreadSig) keepsCache (fun _ _ => True) (fun _ => True) p

theorem step_keepsCache {q : ThreadReq} {c' : Core H} {x : q.Ans}
    (hk : keepsCache q) (hq : threadHandler H blkbits q c = some (x, c')) :
    c'.cache = c.cache := by
  cases q with
  | addCache p b => exact absurd rfl (hk p b)
  | spin => cases hq
  | _ =>
    cases hq
    rfl

variable (blkbits) in
theorem NeverInserts.stays {p : Prog ThreadSig Unit} (hp : NeverInserts p) :
    ∀ {c : Core H}, Single c → Stays (threadHandler H blkbits) Single p c
        (fun _ c' => c'.cache = c.cache ∧ Single c') := by
  induction p with
  | ret a => exact fun hc => .ret hc ⟨rfl, hc⟩
  | ask q k ih =>
    intro c hc
    refine .ask hc fun x c' hq => ?_
    have hcache := step_keepsCache hp.1 hq
    have hrest := ih x (hp.2 x trivial) (hc.of_cache hcache)
    refine ⟨hrest.1, fun a c'' hr => ?_⟩
    obtain ⟨h1, h2⟩ := hrest.2 a c'' hr
    exact ⟨h1.trans hcache, h2⟩

theorem neverInserts_answer (p : Nat) : NeverInserts (answer p) := by
  refine Asks.perform (S := ThreadSig) (q := ThreadReq.storeError 0) nofun fun _ _ => ?_
  refine Asks.perform (S := ThreadSig) (q := ThreadReq.storePhys p) nofun fun _ _ => ?_
  exact ⟨nofun, fun _ _ => trivial⟩

theorem neverInserts_onlyIf_answer (φ : Prop) [Decidable φ] (p : Nat) :
    NeverInserts (onlyIf φ (answer p)) :=
  Asks.onlyIf fun _ => neverInserts_answer p

theorem neverInserts_setDirty (create : Bool) : NeverInserts (onlyIf (create = true) setDirty) :=
  Asks.onlyIf fun _ => ⟨nofun, fun _ _ => trivial⟩

theorem neverInserts_serveFlush : NeverInserts serveFlush := by
  refine Asks.perform (S := ThreadSig) (q := ThreadReq.fsync) nofun fun (ret : Int) _ => ?_
  refine Asks.perform (S := ThreadSig) (q := ThreadReq.storeError ret) nofun fun _ _ => ?_
  refine Asks.bind (Asks.onlyIf fun _ => ?_) fun _ _ => ?_
  · exact ⟨nofun, fun _ _ => trivial⟩
  · exact ⟨nofun, fun _ _ => trivial⟩

theorem fits_one (hb : blkbits ≤ 29) : Fits 1 blkbits := by
  refine ⟨by decide, ?_⟩
  rw [Int.one_mul]
  exact pow_lt_pow_right₀ (by decide) (by omega)

variable {prefetchBlocks : Int}

/-- The loop is over at the end of the window. -/
theorem prefetchLoop_done {i : Int} (h : ¬ i < prefetchBlocks) (create : Bool) (fuel blk : Nat) :
    prefetchLoop prefetchBlocks blkbits create fuel i blk = .ret () := by
  cases fuel with
  | zero => exact if_neg h
  | succ fuel => exact if_neg h

/-- An extent of one block without a node. -/
theorem stays_cacheExtent_one (hc : Single c) {blk : Nat}
    (hfind : c.cache.findCacheNode blk = none) (first : Bool) (p : Nat) :
    Stays (threadHandler H blkbits) Single (cacheExtent first blk p 1 0) c
      (fun _ c' => Single c') := by
  rw [cacheExtent]
  refine ((neverInserts_onlyIf_answer _ p).stays blkbits hc).bind ?_
  rintro - c₁ ⟨hcache, hc₁⟩
  refine .ask hc₁ fun _ c' hq => ?_
  cases hq
  have hadd := hc₁.addCache (b := blk) (by rw [hcache]; exact hfind) p
  exact .ret hadd hadd

/-- A translation that is not cached, with a window of one block: the block is
    inserted if it is mapped, and the loop is over. -/
theorem stays_prefetchLoop_one (hb : blkbits ≤ 29) (create : Bool) (fuel blk : Nat) (hc : Single c)
    (hfind : c.cache.findCacheNode blk = none) :
    Stays (threadHandler H blkbits) Single
      (prefetchLoop 1 blkbits create fuel 0 blk) c (fun _ c' => Single c') := by
  have hf : Fits 1 blkbits := fits_one hb
  cases fuel with
  | zero => exact .ask hc nofun
  | succ fuel =>
    rw [prefetchLoop, if_pos (by decide)]
    rcases getBlock_cases hf (Int.le_refl 0) (by decide) create c blk with
      ⟨p, l, c₁, hq, hcache, -, hp, hl, hle, -⟩ | ⟨c₁, hq, hcache, -, -, -⟩
    · obtain rfl : l = 1 := by omega
      refine .ask hc fun bh c' hq' => ?_
      cases hq.symm.trans hq'
      show Stays _ _ (afterGetBlock _ _ _ _ _ _) _ _
      rw [afterGetBlock_extent hp (gotNum_mul (by decide))]
      refine ((neverInserts_setDirty create).stays blkbits (hc.of_cache hcache)).bind ?_
      rintro - c₂ ⟨hcache₂, hc₂⟩
      have hfind₂ : c₂.cache.findCacheNode blk = none := by
        rw [hcache₂, hcache]
        exact hfind
      refine (stays_cacheExtent_one hc₂ hfind₂ _ p).bind ?_
      intro _ c₃ hc₃
      rw [prefetchLoop_done (by decide)]
      exact .ret hc₃ hc₃
    · have hgot : 0 < gotNum (askedSize 1 0 blkbits) blkbits := by
        rw [gotNum_askedSize hf (Int.le_refl 0) (by decide)]
        decide
      refine .ask hc fun bh c' hq' => ?_
      cases hq.symm.trans hq'
      show Stays _ _ (afterGetBlock _ _ _ _ _ _) _ _
      rw [afterGetBlock_hole hgot]
      refine ((neverInserts_setDirty create).stays blkbits (hc.of_cache hcache)).bind ?_
      rintro - c₂ ⟨-, hc₂⟩
      refine ((neverInserts_onlyIf_answer _ 0).stays blkbits hc₂).bind ?_
      rintro - c₃ ⟨-, hc₃⟩
      rw [prefetchLoop_done (by decide)]
      exact .ret hc₃ hc₃

/-- Any request, with a window of at most one block. -/
theorem stays_serveCio (hP : prefetchBlocks ≤ 1) (hb : blkbits ≤ 29) (fuel : Nat) (cio : CioReq)
    (hc : Single c) :
    Stays (threadHandler H blkbits) Single
      (serveCio prefetchBlocks blkbits fuel cio) c (fun _ c' => Single c') := by
  unfold serveCio
  split
  · have h := neverInserts_serveFlush.stays blkbits hc
    exact ⟨h.1, fun a c' hr => (h.2 a c' hr).2⟩
  · refine .ask hc fun x c' hq => ?_
    cases hq
    show Stays _ _ (afterLookup _ _ _ _ _
      ((c.cache.findCacheNode cio.blkLocal).map (·.bBlocknr))) _ _
    cases hfind : c.cache.findCacheNode cio.blkLocal with
    | some n =>
      have h := (neverInserts_onlyIf_answer (0 < prefetchBlocks) n.bBlocknr).stays blkbits hc
      exact ⟨h.1, fun a c' hr => (h.2 a c' hr).2⟩
    | none =>
      rw [Option.map_none, afterLookup]
      rcases Int.lt_or_le 0 prefetchBlocks with hpos | hneg
      · obtain rfl : prefetchBlocks = 1 := by omega
        exact stays_prefetchLoop_one hb _ fuel _ hc hfind
      · -- the loop is not entered
        rw [prefetchLoop_done (by omega)]
        exact .ret hc hc

theorem stays_serveAll (hP : prefetchBlocks ≤ 1)
    (hb : blkbits ≤ 29) (fuel : Nat) (cios : List CioReq) :
    ∀ {c : Core H}, Single c → Stays (threadHandler H blkbits) Single
        (serveAll prefetchBlocks blkbits fuel cios) c
        (fun _ c' => Single c') := by
  induction cios with
  | nil => exact fun hc => .ret hc hc
  | cons cio rest ih =>
    intro c hc
    exact (stays_serveCio hP hb fuel cio hc).bind fun _ _ hc' => ih hc'

end Single

/-! ## A longer window -/

section Sparse

variable {prefetchBlocks : Int} {blkbits : Nat}

variable {create : Bool} {blk : Nat}

theorem sparseHost_mapped {f : Nat → Bool} {b : Nat} (hm : (f b || create) = true) (n : Nat) :
    sparseHost.getBlock f b n create = (some (b + 1, 1), update f b true) := if_pos hm

theorem sparseHost_hole {f : Nat → Bool} {b : Nat} (hm : f b = false)
    (n : Nat) : sparseHost.getBlock f b n false = (none, f) := by
  refine if_neg ?_
  rw [hm]
  decide

theorem goesOn_getBlock {σ : Type} {h : Handler ThreadSig σ} {s s' : σ} {bSize : Nat}
    {bh : BhResult} {f : BhResult → Prog ThreadSig Unit}
    (hq : h (ThreadReq.getBlock blk bSize create) s = some (bh, s')) :
    GoesOn h (getBlock blk bSize create >>= f) s (f bh) s' := .ask hq

variable (blkbits) in
/-- Setting the dirty bit on the way. -/
theorem run_setDirty_core {H : Host} (create : Bool) (c : Core H) :
    ∃ c' : Core H, c'.cache = c.cache ∧ c'.file = c.file
      ∧ run (threadHandler H blkbits) (onlyIf (create = true) setDirty) c = some ((), c') := by
  cases create
  · exact ⟨c, rfl, rfl, rfl⟩
  · exact ⟨{ c with dirty := true }, rfl, rfl, rfl⟩

variable (blkbits) in
theorem run_onlyIf_answer_core {H : Host} (φ : Prop) [Decidable φ] (p : Nat) (c : Core H) :
    ∃ c' : Core H, c'.cache = c.cache ∧ c'.file = c.file
      ∧ run (threadHandler H blkbits) (onlyIf φ (answer p)) c = some ((), c') := by
  by_cases h : φ
  · rw [onlyIf_pos h]
    exact ⟨{ c with cio := ⟨0, p⟩ }, rfl, rfl, rfl⟩
  · rw [onlyIf_neg h]
    exact ⟨c, rfl, rfl, rfl⟩

variable (prefetchBlocks blkbits) in
/-- A block that is not cached is prefetched. -/
theorem goesOn_miss {H : Host} {c : Core H}
    (hfind : c.cache.findCacheNode blk = none) (create : Bool) (fuel : Nat) :
    GoesOn (threadHandler H blkbits) (serveTranslation prefetchBlocks blkbits fuel create blk) c
      (prefetchLoop prefetchBlocks blkbits create fuel 0 blk) c := by
  have hlookup : threadHandler H blkbits (.findCacheNode blk) c
      = some ((none : Option Nat), c) := by
    show some ((c.cache.findCacheNode blk).map _, c) = _
    rw [hfind]
    rfl
  exact GoesOn.ask (S := ThreadSig) hlookup

variable (blkbits) in
/-- A round over a block that is mapped, or to be. -/
theorem goesOn_mapped {i : Int} (hi : i < prefetchBlocks) {c : Core sparseHost}
    (hm : (c.file blk || create) = true) (fuel : Nat) :
    ∃ c' : Core sparseHost, c'.cache = c.cache.addCache (blk + 1) blk
      ∧ c'.file = update c.file blk true
      ∧ GoesOn (threadHandler sparseHost blkbits)
          (prefetchLoop prefetchBlocks blkbits create (fuel + 1) i blk) c
          (prefetchLoop prefetchBlocks blkbits create fuel (i + 1) (blk + 1))
          c' := by
  have hq : threadHandler sparseHost blkbits
      (.getBlock blk (askedSize prefetchBlocks i blkbits) create) c
      = some (⟨0, blk + 1, 1 * 2 ^ blkbits⟩, { c with file := update c.file blk true }) := by
    show some (bhResult blkbits _ (sparseHost.getBlock c.file blk _ create).1,
      { c with file := (sparseHost.getBlock c.file blk _ create).2 }) = _
    rw [sparseHost_mapped hm]
    rfl
  obtain ⟨c₁, hc₁, hf₁, hr₁⟩ := run_setDirty_core (H := sparseHost) blkbits create
    { c with file := update c.file blk true }
  obtain ⟨c₂, hc₂, hf₂, hr₂⟩ := run_onlyIf_answer_core blkbits
    (decide (i = 0) = true ∧ 0 = 0) (blk + 1) c₁
  have hext : run (threadHandler sparseHost blkbits)
      (cacheExtent (decide (i = 0)) blk (blk + 1) 1 0) c₁
      = some ((), { c₂ with cache := c₂.cache.addCache (blk + 1) blk }) := by
    rw [cacheExtent, run_bind_some hr₂]
    rfl
  refine ⟨{ c₂ with cache := c₂.cache.addCache (blk + 1) blk }, ?_, ?_, ?_⟩
  · rw [hc₂, hc₁]
  · rw [hf₂, hf₁]
  · rw [prefetchLoop, if_pos hi]
    refine (goesOn_getBlock hq).trans ?_
    rw [afterGetBlock_extent (Nat.succ_ne_zero blk) (gotNum_mul (by decide))]
    exact (GoesOn.bind hr₁).trans (GoesOn.bind hext)

/-- A round over a hole, with something left of the window. -/
theorem goesOn_hole {i : Int} (hi : i < prefetchBlocks)
    (hgot : 0 < gotNum (askedSize prefetchBlocks i blkbits) blkbits)
    {c : Core sparseHost} (hm : c.file blk = false) (fuel : Nat) :
    ∃ c' : Core sparseHost, c'.cache = c.cache ∧ c'.file = c.file
      ∧ GoesOn (threadHandler sparseHost blkbits)
          (prefetchLoop prefetchBlocks blkbits false (fuel + 1) i blk) c
          (prefetchLoop prefetchBlocks blkbits false fuel (i + 1) (blk + 1))
          c' := by
  have hq : threadHandler sparseHost blkbits
      (.getBlock blk (askedSize prefetchBlocks i blkbits) false) c
      = some (⟨0, 0, askedSize prefetchBlocks i blkbits⟩, c) := by
    show some (bhResult blkbits _ (sparseHost.getBlock c.file blk _ false).1,
      { c with file := (sparseHost.getBlock c.file blk _ false).2 }) = _
    rw [sparseHost_hole hm]
    rfl
  obtain ⟨c₂, hc₂, hf₂, hr₂⟩ := run_onlyIf_answer_core blkbits (i = 0) 0 c
  refine ⟨c₂, hc₂, hf₂, ?_⟩
  rw [prefetchLoop, if_pos hi]
  refine (goesOn_getBlock hq).trans ?_
  rw [afterGetBlock_hole hgot, onlyIf_neg Bool.false_ne_true, ret_bind]
  exact GoesOn.bind hr₂

/-- Rounds over mapped blocks. -/
theorem goesOn_mapped_many {P : Int} (blkbits fuel : Nat) :
    ∀ (n : Nat) (i : Int) (blk : Nat) (c : Core sparseHost),
      i + n ≤ P → (∀ b, blk ≤ b → b < blk + n → c.file b = true) →
      ∃ c' : Core sparseHost, c'.file = c.file ∧ c'.cache = c.cache.addAll
            ((range' blk n).map (fun b => (b + 1, b)))
        ∧ GoesOn (threadHandler sparseHost blkbits)
            (prefetchLoop P blkbits false (fuel + n) i blk) c
            (prefetchLoop P blkbits false fuel (i + n) (blk + n))
            c' := by
  intro n
  induction n with
  | zero =>
    intro i blk c _ _
    rw [Int.natCast_zero, Int.add_zero]
    exact ⟨c, rfl, rfl, .refl _ _⟩
  | succ n ih =>
    intro i blk c hle hm
    have hblk := hm blk (le_refl blk) (by omega)
    have hmapped : (c.file blk || false) = true := by
      rw [hblk]
      rfl
    obtain ⟨c₁, hcache₁, hfile₁, hgo₁⟩ := goesOn_mapped blkbits
      (show i < P by omega) hmapped (fuel + n)
    have hsame : c₁.file = c.file := by
      rw [hfile₁, ← hblk]
      exact update_eq_self blk c.file
    obtain ⟨c₂, hfile₂, hcache₂, hgo₂⟩ := ih (i + 1) (blk + 1) c₁ (by omega)
      (fun b h1 h2 => by rw [hsame]; exact hm b (by omega) (by omega))
    refine ⟨c₂, hfile₂.trans hsame, ?_, ?_⟩
    · rw [hcache₂, hcache₁, range'_succ]
      rfl
    · rw [show i + ((n + 1 : Nat) : Int) = i + 1 + n by omega,
        show blk + (n + 1) = blk + 1 + n by omega]
      exact hgo₁.trans hgo₂

/-- The file that is mapped but for the block `n`. -/
def allBut (n : Nat) : Core sparseHost where
  cache := initCache
  dirty := false
  file := fun b => b ≠ n
  cio := ⟨0, 0⟩

/-- What a reader of its block 0 inserts with a window of `n + 2` blocks. -/
def insertedByReader (n : Nat) : List (Nat × Nat) :=
  (range n).map (fun b => (b + 1, b)) ++ [(n + 2, n + 1)]

theorem insertedByReader_ne {n : Nat} {a : Nat × Nat} (ha : a ∈ insertedByReader n) : a.2 ≠ n := by
  rcases mem_append.mp ha with hl | hr
  · obtain ⟨b, hb, rfl⟩ := mem_map.mp hl
    exact ne_of_lt (mem_range.mp hb)
  · cases mem_singleton.mp hr
    exact Nat.succ_ne_self n

/-- The hole is the last block of the window but one: the loop gets past it. -/
theorem gotNum_last_but_one (hb : blkbits ≤ 29) (n : Nat) :
    0 < gotNum (askedSize (n + 2) n blkbits) blkbits := by
  have hf : Fits 2 blkbits := by
    refine ⟨by decide, ?_⟩
    rw [← pow_succ']
    exact pow_lt_pow_right₀ (by decide) (by omega)
  rw [askedSize_sub, show ((n : Int) + 2 - n) = 2 by omega,
    gotNum_askedSize hf (Int.le_refl 0) (by decide)]
  decide

/-- The reader passes `n` mapped blocks, the hole, and one more block. -/
theorem run_reader (hb : blkbits ≤ 29) (n : Nat) :
    ∃ c : Core sparseHost, c.cache = initCache.addAll (insertedByReader n)
      ∧ run (threadHandler sparseHost blkbits) (serveCio (n + 2) blkbits (n + 2)
            (translationCio (n + 2) 0 ⟨false, false, false⟩)) (allBut n)
        = some ((), c) := by
  obtain ⟨c₁, hfile₁, hcache₁, hgo₁⟩ := goesOn_mapped_many
    (P := n + 2) blkbits 2 n 0 0 (allBut n) (by omega)
    (fun b _ h => decide_eq_true (by omega))
  rw [Nat.zero_add, Int.zero_add, Nat.add_comm 2 n] at hgo₁
  have hhole : c₁.file n = false := by
    rw [hfile₁]
    exact decide_eq_false fun h => h rfl
  obtain ⟨c₂, hcache₂, hfile₂, hgo₂⟩ := goesOn_hole
    (show (n : Int) < n + 2 by omega) (gotNum_last_but_one hb n) hhole 1
  have hlast : (c₂.file (n + 1) || false) = true := by
    rw [hfile₂, hfile₁]
    show (decide (n + 1 ≠ n) || false) = true
    rw [decide_eq_true (Nat.succ_ne_self n)]
    rfl
  obtain ⟨c₃, hcache₃, -, hgo₃⟩ := goesOn_mapped blkbits
    (show (n : Int) + 1 < n + 2 by omega) hlast 0
  refine ⟨c₃, ?_, ?_⟩
  · rw [hcache₃, hcache₂, hcache₁, ← range_eq_range']
    show _ = BlockCache.addAll _ (_ ++ [_])
    unfold BlockCache.addAll
    rw [foldl_append]
    rfl
  · have hall := ((hgo₁.trans hgo₂).trans hgo₃).run_eq
    rw [prefetchLoop_done (show ¬ (n : Int) + 1 + 1 < n + 2 by omega)] at hall
    rw [serveCio_translation (by omega)]
    exact hall

/-- A reader of block 0 passes the hole `n`, next to the last block of its
    window, and caches the last one; a writer of the hole caches it again. -/
theorem hole_then_write (hb : blkbits ≤ 29) (n : Nat) :
    ∃ t : Core sparseHost, t.cache = initCache.addAll
        (insertedByReader n ++ [(n + 1, n), (n + 2, n + 1)])
      ∧ Passes (threadHandler sparseHost blkbits) (serveAll (n + 2) blkbits (n + 2)
            [translationCio (n + 2) 0 ⟨false, false, false⟩,
              translationCio (n + 2) n ⟨true, false, false⟩]) (allBut n) t := by
  obtain ⟨c, hcache, hreader⟩ := run_reader hb n
  have hfind : c.cache.findCacheNode n = none := by
    rw [hcache, (addAll_holds _).find, find?_eq_none]
    intro x hx
    obtain ⟨a, ha, rfl⟩ := mem_map.mp hx
    have hne := insertedByReader_ne (mem_reverse.mp (mem_of_mem_take ha))
    exact fun hkey => hne (of_decide_eq_true hkey)
  obtain ⟨c₄, hcache₄, -, hgo₄⟩ := goesOn_mapped blkbits
    (show (0 : Int) < n + 2 by omega) (c := c) (Bool.or_true (c.file n)) (n + 1)
  obtain ⟨c₅, hcache₅, -, hgo₅⟩ := goesOn_mapped blkbits
    (show (0 : Int) + 1 < n + 2 by omega) (c := c₄)
    (Bool.or_true (c₄.file (n + 1))) n
  refine ⟨c₅, ?_, ?_⟩
  · rw [hcache₅, hcache₄, hcache]
    unfold BlockCache.addAll
    rw [foldl_append]
    rfl
  · refine (GoesOn.bind hreader).passes c₅ ?_
    rw [serveAll, serveCio_translation (by omega)]
    have hmiss := goesOn_miss (n + 2) blkbits hfind true (n + 2)
    exact (hmiss.trans (hgo₄.trans hgo₅)).passes_bind _

end Sparse

/-- The block behind the hole is twice among the three youngest entries. -/
theorem twice_cached (n : Nat) : 2 ≤ nodesFor (initCache.addAll
      (insertedByReader n ++ [(n + 1, n), (n + 2, n + 1)])) (n + 1) := by
  obtain ⟨m, hm⟩ : ∃ m, lruLength = m + 3 := ⟨lruLength - 3, rfl⟩
  have hrecent : recent (insertedByReader n ++ [(n + 1, n), (n + 2, n + 1)])
      = (n + 2, n + 1) :: (n + 1, n) :: (n + 2, n + 1)
        :: ((range n).map (fun b => (b + 1, b))).reverse.take m := by
    rw [recent, hm, insertedByReader, append_assoc, reverse_append]
    rfl
  rw [nodesFor_holds (addAll_holds _), hrecent, map_map, map_cons, map_cons, map_cons]
  show 2 ≤ ((n + 1) :: n :: (n + 1) :: _).count (n + 1)
  rw [count_cons_self, count_cons_of_ne (Nat.succ_ne_self n).symm, count_cons_self]
  omega

theorem not_oneNodeEach {prefetchBlocks : Int} {blkbits : Nat}
    (hb : blkbits ≤ 29) (h : 1 < prefetchBlocks) :
    ¬ OneNodeEach prefetchBlocks blkbits := by
  intro hone
  obtain ⟨n, rfl⟩ : ∃ n : Nat, prefetchBlocks = n + 2 :=
    ⟨(prefetchBlocks - 2).toNat, by omega⟩
  obtain ⟨t, hcache, hpass⟩ := hole_then_write hb n
  have hle := hone sparseHost (allBut n) t (n + 2) _ rfl hpass (n + 1)
  have htwo := twice_cached n
  rw [hcache] at hle
  omega

/-- With host blocks of less than 1 GiB, the cache has at most one node for each
    block at every moment when and only when the window is at most one block. -/
theorem oneNodeEach_iff (prefetchBlocks : Int) (blkbits : Nat) (hb : blkbits ≤ 29) :
    OneNodeEach prefetchBlocks blkbits ↔ prefetchBlocks ≤ 1 := by
  constructor
  · intro hone
    by_contra h
    exact not_oneNodeEach hb (by omega) hone
  · intro hP H c t fuel cios hcache hpass b
    have hstays := stays_serveAll hP hb fuel cios (single_of_initCache hcache)
    exact (hstays.1 t hpass).nodesFor_le b

/-- Without prefetching, over blocks of a page. -/
theorem oneNodeEach_single : 12 ≤ 29 ∧ OneNodeEach 1 12 :=
  ⟨by decide, (oneNodeEach_iff 1 12 (by decide)).mpr (Int.le_refl 1)⟩

/-- A window of two blocks: a read of the hole 0 and a write to it. -/
theorem oneNodeEach_fails : ∃ t : Core sparseHost, Passes (threadHandler sparseHost 12)
        (serveAll 2 12 2 [translationCio 2 0 ⟨false, false, false⟩,
          translationCio 2 0 ⟨true, false, false⟩]) (allBut 0) t
      ∧ 2 ≤ nodesFor t.cache 1 := by
  obtain ⟨t, hcache, hpass⟩ := hole_then_write (show 12 ≤ 29 by decide) 0
  refine ⟨t, hpass, ?_⟩
  rw [hcache]
  exact twice_cached 0

end LoopDevice
