import MultiLanes.ResumeProofs
import MultiLanes.BlockCacheProofs
import MultiLanes.LoopThreadProofs
import Mathlib.Tactic.IntervalCases

/-! # The translation thread of a loop device over a host file system

`Host` is what the driver assumes of `get_block`: a file map that only grows.  `Core` is
the part of a loop device that the translation thread works on; here its services are
run against a host, and two things are shown of them.  The cache holds nothing but pairs
of the file map, at every moment a requester may look (`CacheOk`).  And a request is
answered with the physical block of its logical one, or with 0 for a hole that a reader
may not fill (`runUntil_serveTranslation`).

Both need the prefetch window to fit an `int` (`Fits`): beyond that a hole stops the
thread for ever (`prefetchLoop_hangs`). -/

namespace LoopDevice

open InteractProg LoopBio LoopRedirect LoopThread LoopCache

/-- The file system under the backing file.  `getBlock s blk n create` asks for
    up to `n` blocks from `blk` on; it answers an extent `(p, l)` or a hole. -/
structure Host where
  State : Type
  map : State → Nat → Option Nat
  getBlock : State → Nat → Nat → Bool → Option (Nat × Nat) × State
  /-- physical blocks are not zero -/
  ne_zero : ∀ {s b p}, map s b = some p → p ≠ 0
  /-- distinct blocks are mapped to distinct blocks -/
  inj : ∀ {s b b' p}, map s b = some p → map s b' = some p → b = b'
  /-- a block is never remapped -/
  keep : ∀ {s b p} (b' n : Nat) (c : Bool), map s b = some p →
    map (getBlock s b' n c).2 b = some p
  /-- an extent is what the file then maps, consecutively -/
  extent : ∀ {s b n c p l}, (getBlock s b n c).1 = some (p, l) → 1 ≤ l ∧ l ≤ max 1 n
      ∧ ∀ j < l, map (getBlock s b n c).2 (b + j) = some (p + j)
  /-- a hole is answered for an unmapped block that is not to be created -/
  hole : ∀ {s b n c}, (getBlock s b n c).1 = none → c = false ∧ map s b = none
  /-- without `create` nothing is mapped -/
  readOnly : ∀ (s : State) (b n : Nat), map (getBlock s b n false).2 = map s

/-- A host that allocates single blocks, and puts block `b` of the file into its
    block `b + 1`; the state says which blocks of the file are allocated. -/
def sparseHost : Host where
  State := Nat → Bool
  map s b := if s b then some (b + 1) else none
  getBlock s b _ create :=
    if s b || create then (some (b + 1, 1), Function.update s b true)
    else (none, s)
  ne_zero := by
    intro s b p h
    split at h
    · cases h
      exact Nat.succ_ne_zero b
    · cases h
  inj := by
    intro s b b' p h h'
    split at h
    · split at h'
      · exact Nat.succ.inj (Option.some.inj (h.trans h'.symm))
      · cases h'
    · cases h
  keep := by
    intro s b p b' n c h
    split at h
    · next hb =>
      have hset : Function.update s b' true b = true := by
        by_cases hbb : b = b'
        · rw [hbb, Function.update_self]
        · rw [Function.update_of_ne hbb, hb]
      split <;> exact h
    · cases h
  extent := by
    intro s b n c p l h
    split at h
    · rename_i hb
      cases h
      refine ⟨Nat.le_refl 1, by omega, fun j hj => ?_⟩
      obtain rfl : j = 0 := by omega
      rw [if_pos hb]
      simp
    · cases h
  hole := by
    intro s b n c h
    split at h
    · cases h
    · next hc =>
      obtain ⟨hb, hcreate⟩ := not_or.mp (mt Bool.or_eq_true_iff.mpr hc)
      exact ⟨Bool.eq_false_iff.mpr hcreate, if_neg hb⟩
  readOnly := by
    intro s b n
    split
    · next hb =>
      rw [Bool.or_false] at hb
      have hsame : Function.update s b true = s := by
        rw [← hb, Function.update_eq_self]
      rw [hsame]
    · rfl

/-- The part of a loop device that the thread works on; `cio` is the request it is serving. -/
structure Core (H : Host) where
  cache : BlockCache
  dirty : Bool
  file : H.State
  cio : CioReply

variable {H : Host}

/-- The file map of a device. -/
def Core.map (c : Core H) : Nat → Option Nat := H.map c.file

/-- What a host answers is one of the answers that the thread expects, and not an error. -/
def hostAnswer : Option (Nat × Nat) → GetBlock
  | some (p, l) => .extent p l
  | none => .hole

/-- The buffer head after `get_block`. -/
def bhResult (blkbits bSize : Nat) (r : Option (Nat × Nat)) : BhResult :=
  (hostAnswer r).result blkbits bSize

/-- The thread on a device, without I/O errors.  `get_block` computes the number
    of blocks it is asked for as an `unsigned`. -/
def threadHandler (H : Host) (blkbits : Nat) : Handler ThreadSig (Core H)
  | .fsync, c => some ((0 : Int), c)
  | .findCacheNode b, c => some ((c.cache.findCacheNode b).map (·.bBlocknr), c)
  | .getBlock b bSize create, c =>
    let r := H.getBlock c.file b (bSize / 2 ^ blkbits % 2 ^ 32) create
    some (bhResult blkbits bSize r.1, { c with file := r.2 })
  | .setDirty, c => some ((), { c with dirty := true })
  | .clearDirty, c => some ((), { c with dirty := false })
  | .storeError e, c => some ((), { c with cio := { c.cio with error := e } })
  | .storePhys p, c => some ((), { c with cio := { c.cio with blkPhy := p } })
  | .complete, c => some ((), c)
  | .addCache phys blk, c =>
    some ((), { c with cache := c.cache.addCache phys blk })
  | .spin, _ => none

/-- The window of `prefetch_blocks` blocks has a size in bytes that fits an `int`. -/
def Fits (prefetchBlocks : Int) (blkbits : Nat) : Prop :=
  0 < prefetchBlocks ∧ prefetchBlocks * 2 ^ blkbits < 2 ^ 31

/-- Every cached pair is a pair of the file map. -/
def CacheOk (c : Core H) : Prop :=
  c.cache.Agrees (fun b p => c.map b = some p)

/-- The file map has only grown. -/
def Extends (c c' : Core H) : Prop :=
  ∀ b p, c.map b = some p → c'.map b = some p

theorem Extends.refl (c : Core H) : Extends c c := fun _ _ h => h

variable {c c' : Core H} {blk bSize : Nat} {create : Bool} {bh : BhResult}
  {f : BhResult → Prog ThreadSig Unit} {stop : ThreadReq → Bool}

theorem Extends.trans {c'' : Core H} (h : Extends c c')
    (h' : Extends c' c'') : Extends c c'' := fun b p hb => h' b p (h b p hb)

/-! ## Sizes -/

section Sizes

variable {prefetchBlocks i : Int} {blkbits : Nat}

section

variable (hf : Fits prefetchBlocks blkbits)
include hf

/-- What is left of a window that fits, in bytes. -/
theorem askedSize_eq (h0 : 0 ≤ i) (hi : i < prefetchBlocks) :
    askedSize prefetchBlocks i blkbits = (prefetchBlocks - i).toNat * 2 ^ blkbits := by
  have hpow : (0 : Int) < 2 ^ blkbits := Int.pow_pos (by decide)
  have hnn : 0 ≤ (prefetchBlocks - i) * 2 ^ blkbits :=
    Int.mul_nonneg (by omega) (Int.le_of_lt hpow)
  have hle : (prefetchBlocks - i) * 2 ^ blkbits ≤ prefetchBlocks * 2 ^ blkbits :=
    Int.mul_le_mul_of_nonneg_right (by omega) (Int.le_of_lt hpow)
  have hlt : (prefetchBlocks - i) * 2 ^ blkbits < 2 ^ 31 :=
    Int.lt_of_le_of_lt hle hf.2
  unfold askedSize
  rw [bmod_int32 (Int.le_trans (by decide) hnn) hlt,
    Int.emod_eq_of_lt hnn (Int.lt_trans hlt (by decide)),
    Int.toNat_mul (by omega) (Int.le_of_lt hpow)]
  congr 1

theorem window_lt : prefetchBlocks < 2 ^ 31 := by
  have hpow : (1 : Int) ≤ 2 ^ blkbits := Int.pow_pos (by decide)
  have hle : prefetchBlocks * 1 ≤ prefetchBlocks * 2 ^ blkbits :=
    Int.mul_le_mul_of_nonneg_left hpow (Int.le_of_lt hf.1)
  have := hf.2
  omega

/-- A hole in a window that fits lets the loop go on. -/
theorem gotNum_askedSize (h0 : 0 ≤ i) (hi : i < prefetchBlocks) :
    gotNum (askedSize prefetchBlocks i blkbits) blkbits = prefetchBlocks - i := by
  have := window_lt hf
  rw [askedSize_eq hf h0 hi, gotNum_mul (by omega)]
  omega

/-- The number of blocks that `get_block` is asked for. -/
theorem asked_blocks (h0 : 0 ≤ i) (hi : i < prefetchBlocks) :
    askedSize prefetchBlocks i blkbits / 2 ^ blkbits % 2 ^ 32 = (prefetchBlocks - i).toNat := by
  have := window_lt hf
  rw [askedSize_eq hf h0 hi, Nat.mul_div_cancel _ (Nat.two_pow_pos blkbits),
    Nat.mod_eq_of_lt (by omega)]

end

end Sizes

/-! ## Steps of the thread -/

theorem CacheOk.extends (h : CacheOk c) (hcache : c'.cache = c.cache)
    (he : Extends c c') : CacheOk c' := by
  unfold CacheOk
  rw [hcache]
  exact h.mono he

variable {blkbits : Nat}

theorem ends_getBlock {σ : Type} {h : Handler ThreadSig σ} {I : σ → Prop} {s s' : σ}
    {Q : Unit → σ → Prop} (hI : I s)
    (hq : h (ThreadReq.getBlock blk bSize create) s = some (bh, s')) (hf : Ends h I (f bh) s' Q) :
    Ends h I (getBlock blk bSize create >>= f) s Q := .ask hI hq hf

theorem runUntil_getBlock {σ : Type} {h : Handler ThreadSig σ} {s s' : σ}
    (hq : h (ThreadReq.getBlock blk bSize create) s = some (bh, s'))
    (hstop : stop (.getBlock blk bSize create) = false) :
    runUntil h stop (getBlock blk bSize create >>= f) s
      = runUntil h stop (f bh) s' := runUntil_ask hq hstop

/-- Answering the requester changes only the request. -/
theorem ends_answer (hc : CacheOk c) (p : Nat) : Ends (threadHandler H blkbits) CacheOk (answer p) c
      (fun _ c' => CacheOk c' ∧ c'.file = c.file) :=
  .ask hc rfl (.ask hc rfl (.ask hc rfl (.ret hc ⟨hc, rfl⟩)))

theorem ends_setDirty (hc : CacheOk c) (create : Bool) :
    Ends (threadHandler H blkbits) CacheOk (onlyIf (create = true) setDirty) c
      (fun _ c' => CacheOk c' ∧ c'.file = c.file) := by
  cases create
  · exact .ret hc ⟨hc, rfl⟩
  · exact .ask hc rfl (.ret hc ⟨hc, rfl⟩)

/-- Inserting an extent of the file map. -/
theorem ends_cacheExtent (first : Bool) (blk phys : Nat) : ∀ (n j : Nat) (c : Core H), CacheOk c →
      (∀ t, j ≤ t → t < j + n → c.map (blk + t) = some (phys + t)) →
      Ends (threadHandler H blkbits) CacheOk (cacheExtent first blk phys n j) c
        (fun _ c' => CacheOk c' ∧ c'.file = c.file) := by
  intro n
  induction n with
  | zero => exact fun j c hc _ => .ret hc ⟨hc, rfl⟩
  | succ n ih =>
    intro j c hc hmap
    rw [cacheExtent]
    have hans : Ends (threadHandler H blkbits) CacheOk
        (onlyIf (first = true ∧ j = 0) (answer phys)) c
        (fun _ c' => CacheOk c' ∧ c'.file = c.file) := by
      by_cases h0 : first = true ∧ j = 0
      · rw [onlyIf_pos h0]
        exact ends_answer hc phys
      · rw [onlyIf_neg h0]
        exact .ret hc ⟨hc, rfl⟩
    refine hans.bind ?_
    rintro - c₁ ⟨hc₁, hfile⟩
    have hmap₁ : ∀ t, j ≤ t → t < j + (n + 1) → c₁.map (blk + t) = some (phys + t) := by
      intro t h1 h2
      rw [Core.map, hfile]
      exact hmap t h1 h2
    have hc₂ : CacheOk { c₁ with cache := c₁.cache.addCache (phys + j) (blk + j) } :=
      hc₁.addCache (hmap₁ j (le_refl j) (by omega))
    refine .ask hc₁ rfl ((ih (j + 1) _ hc₂ ?_).mono ?_)
    · exact fun t h1 h2 => hmap₁ t (by omega) (by omega)
    · rintro - c' ⟨hc', hfile'⟩
      exact ⟨hc', hfile'.trans hfile⟩

/-- What a service may do to the file map. -/
def Grown (create : Bool) (c c' : Core H) : Prop :=
  Extends c c' ∧ (create = false → c'.map = c.map)

theorem Grown.refl (create : Bool) (c : Core H) : Grown create c c :=
  ⟨.refl c, fun _ => rfl⟩

theorem Grown.trans {c'' : Core H}
    (h : Grown create c c') (h' : Grown create c' c'') : Grown create c c'' :=
  ⟨h.1.trans h'.1, fun hc => (h'.2 hc).trans (h.2 hc)⟩

theorem Grown.of_file (h : c'.file = c.file) : Grown create c c' := by
  have hmap : c'.map = c.map := by rw [Core.map, Core.map, h]
  exact ⟨fun b p hb => by rw [hmap]; exact hb, fun _ => hmap⟩

theorem grown_getBlock (create : Bool) (c : Core H) (b n : Nat) :
    Grown create c { c with file := (H.getBlock c.file b n create).2 } :=
  ⟨fun _ _ h => H.keep b n create h, fun hc => by subst hc; exact H.readOnly c.file b n⟩

variable {prefetchBlocks : Int}

/-- The answer of `get_block` to a round of the loop. -/
theorem getBlock_cases {i : Int} (hf : Fits prefetchBlocks blkbits) (h0 : 0 ≤ i)
    (hi : i < prefetchBlocks) (create : Bool) (c : Core H) (b : Nat) :
    (∃ p l c₁, threadHandler H blkbits (.getBlock b (askedSize prefetchBlocks i blkbits) create) c
          = some (⟨0, p, l * 2 ^ blkbits⟩, c₁)
        ∧ c₁.cache = c.cache ∧ Grown create c c₁ ∧ p ≠ 0 ∧ 1 ≤ l
        ∧ (l : Int) ≤ prefetchBlocks - i
        ∧ ∀ j < l, c₁.map (b + j) = some (p + j)) ∨
    (∃ c₁, threadHandler H blkbits (.getBlock b (askedSize prefetchBlocks i blkbits) create) c
          = some (⟨0, 0, askedSize prefetchBlocks i blkbits⟩, c₁)
        ∧ c₁.cache = c.cache ∧ Grown create c c₁ ∧ create = false
        ∧ c.map b = none) := by
  have hasked := asked_blocks hf h0 hi
  generalize hr : H.getBlock c.file b (askedSize prefetchBlocks i blkbits
    / 2 ^ blkbits % 2 ^ 32) create = r
  have hans : threadHandler H blkbits (.getBlock b (askedSize prefetchBlocks i blkbits) create) c
      = some (bhResult blkbits (askedSize prefetchBlocks i blkbits) r.1,
          { c with file := r.2 }) := by
    rw [← hr]
    rfl
  have hgrown : Grown create c { c with file := r.2 } := by
    rw [← hr]
    exact grown_getBlock create c b _
  rw [hans]
  cases hres : r.1 with
  | none =>
    obtain ⟨hcr, hm⟩ := H.hole (by rw [hr]; exact hres)
    exact .inr ⟨_, rfl, rfl, hgrown, hcr, hm⟩
  | some pl =>
    obtain ⟨p, l⟩ := pl
    obtain ⟨h1, hmax, hmap⟩ := H.extent (by rw [hr]; exact hres)
    rw [hasked] at hmax
    rw [hr] at hmap
    refine .inl ⟨p, l, _, rfl, rfl, hgrown, ?_, h1, by omega, hmap⟩
    exact H.ne_zero (hmap 0 (by omega))

/-- The prefetch loop ends, with the cache true at every moment. -/
theorem ends_prefetchLoop (hf : Fits prefetchBlocks blkbits) (create : Bool) :
    ∀ (fuel : Nat) (i : Int) (blk : Nat) (c : Core H), 0 ≤ i →
      prefetchBlocks - i ≤ fuel → CacheOk c →
      Ends (threadHandler H blkbits) CacheOk
        (prefetchLoop prefetchBlocks blkbits create fuel i blk) c
        (fun _ c' => CacheOk c' ∧ Grown create c c') := by
  intro fuel
  induction fuel with
  | zero =>
    intro i blk c _ hle hc
    rw [prefetchLoop, if_neg (by omega)]
    exact .ret hc ⟨hc, .refl create c⟩
  | succ fuel ih =>
    intro i blk c h0 hle hc
    rw [prefetchLoop]
    by_cases hi : i < prefetchBlocks
    · rw [if_pos hi]
      rcases getBlock_cases hf h0 hi create c blk with
        ⟨p, l, c₁, hq, hcache, hg, hp, hl, hle', hmap⟩
          | ⟨c₁, hq, hcache, hg, -, -⟩
      · have hc₁ : CacheOk c₁ := hc.extends hcache hg.1
        have hlt := window_lt hf
        have hgot : gotNum (l * 2 ^ blkbits) blkbits = l :=
          gotNum_mul (by omega)
        refine ends_getBlock hc hq ?_
        rw [afterGetBlock_extent hp hgot]
        refine (ends_setDirty hc₁ create).bind ?_
        rintro - c₂ ⟨hc₂, hfile₂⟩
        refine (ends_cacheExtent _ blk p l 0 c₂ hc₂ ?_).bind ?_
        · intro t _ ht
          rw [Core.map, hfile₂]
          exact hmap t (by omega)
        · rintro - c₃ ⟨hc₃, hfile₃⟩
          refine (ih (i + l) (blk + l) c₃ (by omega) (by omega) hc₃).mono ?_
          rintro - c' ⟨hc', hg'⟩
          exact ⟨hc', (hg.trans (.of_file (hfile₃.trans hfile₂))).trans hg'⟩
      · have hc₁ : CacheOk c₁ := hc.extends hcache hg.1
        have hgot : 0 < gotNum (askedSize prefetchBlocks i blkbits) blkbits := by
          rw [gotNum_askedSize hf h0 hi]
          omega
        refine ends_getBlock hc hq ?_
        rw [afterGetBlock_hole hgot]
        refine (ends_setDirty hc₁ create).bind ?_
        rintro - c₂ ⟨hc₂, hfile₂⟩
        have hans : Ends (threadHandler H blkbits) CacheOk (onlyIf (i = 0) (answer 0)) c₂
            (fun _ c' => CacheOk c' ∧ c'.file = c₂.file) := by
          by_cases hz : i = 0
          · rw [onlyIf_pos hz]
            exact ends_answer hc₂ 0
          · rw [onlyIf_neg hz]
            exact .ret hc₂ ⟨hc₂, rfl⟩
        refine hans.bind ?_
        rintro - c₃ ⟨hc₃, hfile₃⟩
        refine (ih (i + 1) (blk + 1) c₃ (by omega) (by omega) hc₃).mono ?_
        rintro - c' ⟨hc', hg'⟩
        exact ⟨hc', (hg.trans (.of_file (hfile₃.trans hfile₂))).trans hg'⟩
    · rw [if_neg hi]
      exact .ret hc ⟨hc, .refl create c⟩

/-! ## Services -/

/-- Whatever the thread does, the file map only grows. -/
theorem step_extends {q : ThreadReq} {x : q.Ans}
    (hq : threadHandler H blkbits q c = some (x, c')) : Extends c c' := by
  cases q with
  | getBlock b bSize create =>
    cases hq
    exact (grown_getBlock create c b _).1
  | spin => cases hq
  | _ =>
    cases hq
    exact Extends.refl _

theorem run_extends {α : Type} {p : Prog ThreadSig α} {a : α}
    (h : run (threadHandler H blkbits) p c = some (a, c')) : Extends c c' :=
  run_induct Extends.refl Extends.trans step_extends h

theorem runUntil_extends {α : Type} {p p' : Prog ThreadSig α}
    (h : runUntil (threadHandler H blkbits) stop p c = some (p', c')) :
    Extends c c' :=
  runUntil_induct (R := Extends) Extends.trans step_extends h

variable {prefetchBlocks : Int} {fuel : Nat}

theorem ends_serveFlush (hc : CacheOk c) :
    Ends (threadHandler H blkbits) CacheOk serveFlush c (fun _ c' => CacheOk c' ∧ c'.map = c.map) :=
  .ask hc rfl (.ask hc rfl (.ask hc rfl (.ask hc rfl (.ret hc ⟨hc, rfl⟩))))

theorem ends_serveTranslation (hf : Fits prefetchBlocks blkbits) (hfuel : prefetchBlocks ≤ fuel)
    (hc : CacheOk c) (create : Bool) (blk : Nat) :
    Ends (threadHandler H blkbits) CacheOk
      (serveTranslation prefetchBlocks blkbits fuel create blk) c
      (fun _ c' => CacheOk c' ∧ Grown create c c') := by
  refine Ends.ask hc rfl ?_
  show Ends _ _ (afterLookup prefetchBlocks blkbits fuel create blk
    ((c.cache.findCacheNode blk).map (·.bBlocknr))) _ _
  cases c.cache.findCacheNode blk with
  | none => exact ends_prefetchLoop hf create fuel 0 blk c (by omega) (by omega) hc
  | some n =>
    rw [Option.map_some, afterLookup, onlyIf_pos hf.1]
    refine (ends_answer hc _).mono ?_
    rintro - c' ⟨hc', hfile⟩
    exact ⟨hc', .of_file hfile⟩

variable (blkbits) in
/-- A flush is answered without error, and nothing else happens to the file. -/
theorem runUntil_serveFlush (c : Core H) :
    ∃ rest c₁, runUntil (threadHandler H blkbits) isComplete serveFlush c
        = some (rest, c₁) ∧ c₁.cio.error = 0 ∧ c₁.map = c.map :=
  ⟨_, _, rfl, rfl, rfl⟩

theorem runUntil_answer (c : Core H) (p : Nat) (f : Unit → Prog ThreadSig Unit) :
    runUntil (threadHandler H blkbits) isComplete (answer p >>= f) c
      = some (f (), { c with cio := ⟨0, p⟩ }) := rfl

variable (blkbits) in
theorem runUntil_setDirty (create : Bool) (c : Core H) :
    ∃ c', c'.file = c.file ∧ ∀ f : Unit → Prog ThreadSig Unit,
      runUntil (threadHandler H blkbits) isComplete (onlyIf (create = true) setDirty >>= f) c
        = runUntil (threadHandler H blkbits) isComplete (f ()) c' := by
  cases create
  · exact ⟨c, rfl, fun _ => rfl⟩
  · exact ⟨{ c with dirty := true }, rfl, fun _ => rfl⟩

variable (blkbits) in
/-- The first block of the first extent is the answer. -/
theorem runUntil_cacheExtent (c : Core H) (blk p l : Nat) (f : Unit → Prog ThreadSig Unit) :
    ∃ rest, runUntil (threadHandler H blkbits) isComplete
        (cacheExtent (decide ((0 : Int) = 0)) blk p (l + 1) 0 >>= f) c
      = some (rest, { c with cio := ⟨0, p⟩ }) := by
  rw [cacheExtent, onlyIf_pos ⟨rfl, rfl⟩]
  exact ⟨_, runUntil_bind (runUntil_answer c p _) f⟩

/-- A translation is answered: a writer gets the block that the file now maps,
    a reader the block that it maps, or 0 in a hole. -/
theorem runUntil_serveTranslation (hf : Fits prefetchBlocks blkbits) (hfuel : prefetchBlocks ≤ fuel)
    (hc : CacheOk c) (create : Bool) (blk : Nat) :
    ∃ rest c₁, runUntil (threadHandler H blkbits) isComplete
          (serveTranslation prefetchBlocks blkbits fuel create blk) c
          = some (rest, c₁)
      ∧ c₁.cio.error = 0
      ∧ (create = true → c₁.map blk = some c₁.cio.blkPhy)
      ∧ (create = false → c₁.cio.blkPhy = (c.map blk).getD 0) := by
  have hlookup : runUntil (threadHandler H blkbits) isComplete
      (serveTranslation prefetchBlocks blkbits fuel create blk) c
      = runUntil (threadHandler H blkbits) isComplete
        (afterLookup prefetchBlocks blkbits fuel create blk
          ((c.cache.findCacheNode blk).map (·.bBlocknr))) c :=
    runUntil_ask rfl rfl
  rw [hlookup]
  cases hfind : c.cache.findCacheNode blk with
  | some n =>
    have hmap : c.map blk = some n.bBlocknr := hc.find hfind
    rw [Option.map_some, afterLookup, onlyIf_pos hf.1]
    refine ⟨_, _, rfl, rfl, fun _ => hmap, fun _ => ?_⟩
    rw [hmap]
    rfl
  | none =>
    obtain ⟨fuel, rfl⟩ : ∃ n, fuel = n + 1 := by
      have := hf.1
      exact ⟨fuel - 1, by omega⟩
    rw [Option.map_none, afterLookup, prefetchLoop, if_pos hf.1]
    rcases getBlock_cases hf (Int.le_refl 0) hf.1 create c blk with
      ⟨p, l, c₁, hq, hcache, hg, hp, hl, hle, hmap⟩
        | ⟨c₁, hq, hcache, hg, hcr, hnone⟩
    · have hlt := window_lt hf
      have hgot : gotNum (l * 2 ^ blkbits) blkbits = l := gotNum_mul (by omega)
      obtain ⟨l, rfl⟩ : ∃ n, l = n + 1 := ⟨l - 1, by omega⟩
      have hfirst : c₁.map blk = some p := hmap 0 (by omega)
      obtain ⟨c₂, hfile, hrun⟩ := runUntil_setDirty blkbits create c₁
      rw [runUntil_getBlock hq rfl, afterGetBlock_extent hp hgot, hrun]
      obtain ⟨rest, hrest⟩ := runUntil_cacheExtent blkbits c₂ blk p l
        (fun _ => prefetchLoop prefetchBlocks blkbits create fuel (0 + ↑(l + 1)) (blk + (l + 1)))
      refine ⟨rest, _, hrest, rfl, fun _ => ?_, fun hcr => ?_⟩
      · show H.map c₂.file blk = some p
        rw [hfile]
        exact hfirst
      · show p = (c.map blk).getD 0
        rw [← hg.2 hcr, hfirst]
        rfl
    · have hgot : 0 < gotNum (askedSize prefetchBlocks 0 blkbits) blkbits := by
        rw [gotNum_askedSize hf (Int.le_refl 0) hf.1]
        have := hf.1
        omega
      obtain ⟨c₂, hfile, hrun⟩ := runUntil_setDirty blkbits create c₁
      rw [runUntil_getBlock hq rfl, afterGetBlock_hole hgot, hrun, onlyIf_pos rfl, runUntil_answer]
      refine ⟨_, _, rfl, rfl, fun htr => ?_, fun _ => ?_⟩
      · rw [hcr] at htr
        exact Bool.noConfusion htr
      · rw [hnone]
        rfl

/-! ## A window that does not fit -/

/-- What is asked for depends on what is left of the window. -/
theorem askedSize_sub (prefetchBlocks i : Int) (blkbits : Nat) :
    askedSize prefetchBlocks i blkbits = askedSize (prefetchBlocks - i) 0 blkbits := by
  unfold askedSize
  rw [Int.sub_zero]

/-- `2^31` bytes are a negative `int`. -/
theorem gotNum_overflow {blkbits : Nat} (h : blkbits ≤ 31) :
    ¬ 0 < gotNum (askedSize (2 ^ (31 - blkbits)) 0 blkbits) blkbits := by
  interval_cases blkbits <;> decide

/-- A block of `2^32` bytes or more is none. -/
theorem gotNum_overflow_large (prefetchBlocks : Int) {blkbits : Nat} (h : 32 ≤ blkbits) :
    ¬ 0 < gotNum (askedSize prefetchBlocks 0 blkbits) blkbits := by
  have hdvd : (((2 : Nat) ^ 32 : Nat) : Int) ∣ (prefetchBlocks - 0) * 2 ^ blkbits := by
    refine Dvd.dvd.mul_left ?_ _
    exact_mod_cast pow_dvd_pow (2 : Int) h
  have hzero : askedSize prefetchBlocks 0 blkbits = 0 := by
    unfold askedSize
    rw [Int.bmod_eq_zero_of_dvd hdvd]
    rfl
  rw [hzero]
  unfold gotNum
  simp

/-- In a window that does not fit, some remainder stops the loop. -/
theorem exists_stuck {blkbits : Nat}
    (hpos : 0 < prefetchBlocks) (h : ¬ prefetchBlocks * 2 ^ blkbits < 2 ^ 31) :
    ∃ i, 0 ≤ i ∧ i < prefetchBlocks
      ∧ ¬ 0 < gotNum (askedSize prefetchBlocks i blkbits) blkbits := by
  rcases lt_or_ge blkbits 32 with hlt | hge
  · have hsplit : (2 : Int) ^ (31 - blkbits) * 2 ^ blkbits = 2 ^ 31 := by
      rw [← pow_add]
      congr 1
      omega
    have hle : (2 : Int) ^ (31 - blkbits) ≤ prefetchBlocks := by
      by_contra hc
      apply h
      rw [← hsplit]
      exact Int.mul_lt_mul_of_pos_right (by omega) (Int.pow_pos (by decide))
    have hp : (0 : Int) < 2 ^ (31 - blkbits) := Int.pow_pos (by decide)
    refine ⟨prefetchBlocks - 2 ^ (31 - blkbits), by omega, by omega, ?_⟩
    rw [askedSize_sub, Int.sub_sub_self]
    exact gotNum_overflow (by omega)
  · exact ⟨0, Int.le_refl 0, hpos, gotNum_overflow_large prefetchBlocks hge⟩

variable (blkbits) in
/-- Reading an unmapped block finds a hole. -/
theorem getBlock_unmapped {b : Nat} (hb : c.map b = none) (bSize : Nat) :
    ∃ c₁, threadHandler H blkbits (.getBlock b bSize false) c = some (⟨0, 0, bSize⟩, c₁)
      ∧ c₁.cache = c.cache ∧ c₁.map = c.map := by
  generalize hr : H.getBlock c.file b (bSize / 2 ^ blkbits % 2 ^ 32) false = r
  have hmap : H.map r.2 = c.map := by
    rw [← hr]
    exact H.readOnly c.file b _
  have hnone : r.1 = none := by
    cases hres : r.1 with
    | none => rfl
    | some pl =>
      obtain ⟨h1, -, hext⟩ := H.extent (p := pl.1) (l := pl.2) (by rw [hr]; exact hres)
      have h0 := hext 0 (by omega)
      rw [hr, hmap, add_zero, hb] at h0
      cases h0
  refine ⟨{ c with file := r.2 }, ?_, rfl, hmap⟩
  show some (bhResult blkbits bSize (H.getBlock c.file b
    (bSize / 2 ^ blkbits % 2 ^ 32) false).1, _) = _
  rw [hr, hnone]
  rfl

/-- A run that does not end, and never changes the cache. -/
def Hangs (blkbits : Nat) (p : Prog ThreadSig Unit) (c : Core H) : Prop :=
  run (threadHandler H blkbits) p c = none
    ∧ ∀ t, Passes (threadHandler H blkbits) p c t → t.cache = c.cache

theorem hangs_ask {q : ThreadReq} {x : q.Ans} {c₁ : Core H} {k : q.Ans → Prog ThreadSig Unit}
    (hq : threadHandler H blkbits q c = some (x, c₁))
    (hcache : c₁.cache = c.cache) (hk : Hangs blkbits (k x) c₁) :
    Hangs blkbits (.ask q k) c := by
  refine ⟨(run_ask_some hq).trans hk.1, ?_⟩
  intro t ht
  rcases (passes_ask_some hq t).mp ht with rfl | ht'
  · rfl
  · exact (hk.2 t ht').trans hcache

theorem hangs_getBlock {c₁ : Core H}
    (hq : threadHandler H blkbits (.getBlock blk bSize false) c = some (bh, c₁))
    (hcache : c₁.cache = c.cache) (hf : Hangs blkbits (f bh) c₁) :
    Hangs blkbits (getBlock blk bSize false >>= f) c := hangs_ask hq hcache hf

theorem hangs_answer {p : Nat} {f : Unit → Prog ThreadSig Unit}
    (hf : ∀ c', c'.cache = c.cache → c'.file = c.file → Hangs blkbits (f ()) c') :
    Hangs blkbits (answer p >>= f) c := by
  have hrest := hf { c with cio := ⟨0, p⟩ } rfl rfl
  refine ⟨hrest.1, ?_⟩
  rintro t (rfl | ⟨-, -, ⟨rfl, rfl⟩, (rfl | ⟨-, -, ⟨rfl, rfl⟩, (rfl | ⟨-, -, ⟨rfl, rfl⟩, ht⟩)⟩)⟩)
  · rfl
  · rfl
  · rfl
  · exact hrest.2 t ht

/-- A prefetch over the end of the file never gets past the remainder `i₀`. -/
theorem prefetchLoop_hangs {i₀ : Int} {blkbits : Nat} (hlt : i₀ < prefetchBlocks)
    (hstuck : ¬ 0 < gotNum (askedSize prefetchBlocks i₀ blkbits) blkbits) :
    ∀ (fuel : Nat) (i : Int) (blk : Nat) (c : Core H), i ≤ i₀ → (∀ b, blk ≤ b → c.map b = none) →
      Hangs blkbits (prefetchLoop prefetchBlocks blkbits false fuel i blk) c := by
  intro fuel
  induction fuel with
  | zero =>
    intro i blk c hi _
    rw [prefetchLoop, if_pos (by omega)]
    refine ⟨rfl, fun t ht => ?_⟩
    rcases ht with rfl | ⟨x, -⟩
    · rfl
    · exact x.elim
  | succ fuel ih =>
    intro i blk c hi hend
    rw [prefetchLoop, if_pos (by omega)]
    obtain ⟨c₁, hq, hcache, hmap⟩ := getBlock_unmapped blkbits
      (hend blk (le_refl blk)) (askedSize prefetchBlocks i blkbits)
    rw [← hmap] at hend
    refine hangs_getBlock hq hcache ?_
    by_cases hgot : 0 < gotNum (askedSize prefetchBlocks i blkbits) blkbits
    · have hne : i ≠ i₀ := by
        rintro rfl
        exact hstuck hgot
      rw [afterGetBlock_hole hgot, onlyIf_neg Bool.false_ne_true, ret_bind]
      by_cases h0 : i = 0
      · rw [onlyIf_pos h0]
        refine hangs_answer fun c' _ hfile => ?_
        refine ih (i + 1) (blk + 1) c' (by omega) fun b hb => ?_
        rw [Core.map, hfile]
        exact hend b (by omega)
      · rw [onlyIf_neg h0, ret_bind]
        exact ih (i + 1) (blk + 1) c₁ (by omega) fun b hb => hend b (by omega)
    · rw [afterGetBlock_stuck hgot]
      exact ih i blk c₁ hi hend

/-- A translation of an empty file that is not cached. -/
theorem serveTranslation_hangs {blkbits : Nat} (hpos : 0 < prefetchBlocks)
    (h : ¬ prefetchBlocks * 2 ^ blkbits < 2 ^ 31) (fuel blk : Nat) (hempty : ∀ b, c.map b = none)
    (hcache : c.cache = initCache) :
    Hangs blkbits (serveTranslation prefetchBlocks blkbits fuel false blk) c := by
  obtain ⟨i₀, h0, hlt, hstuck⟩ := exists_stuck hpos h
  have hloop := prefetchLoop_hangs (H := H) hlt hstuck fuel 0 blk c h0 fun b _ => hempty b
  have hq : threadHandler H blkbits (.findCacheNode blk) c = some ((none : Option Nat), c) := by
    show some ((c.cache.findCacheNode blk).map _, c) = _
    rw [hcache]
    rfl
  exact hangs_ask hq rfl hloop

/-- Cutting a run that hangs leaves one that hangs. -/
theorem Hangs.runUntil {p p' : Prog ThreadSig Unit} (h : Hangs blkbits p c)
    (hu : runUntil (threadHandler H blkbits) stop p c = some (p', c')) :
    Hangs blkbits p' c' ∧ c'.cache = c.cache := by
  have hcache : c'.cache = c.cache :=
    h.2 c' ((passes_self _ p' c').of_runUntil hu)
  refine ⟨⟨(run_of_runUntil hu).symm.trans h.1, ?_⟩, hcache⟩
  intro t ht
  rw [hcache]
  exact h.2 t (ht.of_runUntil hu)

end LoopDevice
