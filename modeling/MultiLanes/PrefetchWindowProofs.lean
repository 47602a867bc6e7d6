import MultiLanes.LoopDeviceProofs

/-! # The prefetch window

A translation that is not cached makes the thread walk a window of `prefetch_blocks`
blocks.  Two nested loops move three counters, and a hole is left by a `break` in front
of the common update; what they amount to is read off the steps that the thread makes.
`Covered` says what a stretch of steps has done for a stretch of the window,
`Covered.append` that stretches add up, and the loop is one round after the other
(`loop_covers`).

The window has to fit an `int`.  Where it does not, a file without blocks is enough to
keep the thread in the loop (`loop_stays`), and that is all that can go wrong
(`window_exact_iff`). -/

namespace LoopThread

open InteractProg LoopBio LoopDevice List

/-- The pair that a step puts into the cache. -/
def ThreadReq.inserts : ThreadReq → Option (Nat × Nat)
  | .addCache phys blk => some (phys, blk)
  | _ => none

/-- The block that a step asks `get_block` for. -/
def ThreadReq.asksFor : ThreadReq → Option Nat
  | .getBlock blk _ _ => some blk
  | _ => none

/-- The mapped ones of `n` blocks from `b` on, with their physical blocks. -/
def mappedBlocks (m : Nat → Option Nat) (b n : Nat) : List (Nat × Nat) :=
  (range' b n).filterMap (fun x => (m x).map (fun p => (p, x)))

/-- `get_block` answers for the file map `m`, without errors, on behalf of a
    request for block `blk`: an extent is consecutive, and a hole is one. -/
def Truthful (m : Nat → Option Nat) (prefetchBlocks : Int) (blkbits blk : Nat)
    (a : Answers) : Prop :=
  ∀ k, Reached prefetchBlocks blkbits a k → match a.getBlock k with
    | .extent phys n => ∀ j < n,
        m (blk + (position prefetchBlocks blkbits a k).toNat + j) = some (phys + j)
    | .hole => m (blk + (position prefetchBlocks blkbits a k).toNat) = none
    | .error _ => False

/-- The service of a translation of `blk`: it ends, its calls of `get_block`
    cover the window from its first block to its last, one after the other, it
    inserts the mapped blocks of the window once each and nothing else, and it
    answers the request once, by the physical block or by 0. -/
def WindowServed (m : Nat → Option Nat) (prefetchBlocks : Int) (blkbits : Nat)
    (a : Answers) (fuel : Nat) (create : Bool) (blk : Nat) : Prop :=
  ∃ calls, run (answersHandler a blkbits)
        (serveTranslation prefetchBlocks blkbits fuel create blk) 0
        = some ((), calls)
    ∧ position prefetchBlocks blkbits a calls = prefetchBlocks
    ∧ (steps a blkbits (serveTranslation prefetchBlocks blkbits fuel create blk)
          0).filterMap ThreadReq.asksFor
        = (range calls).map (fun j => blk + (position prefetchBlocks blkbits a j).toNat)
    ∧ (steps a blkbits (serveTranslation prefetchBlocks blkbits fuel create blk)
          0).filterMap ThreadReq.inserts
        = mappedBlocks m blk prefetchBlocks.toNat
    ∧ (steps a blkbits (serveTranslation prefetchBlocks blkbits fuel create blk)
          0).filter ThreadReq.touchesCio
        = [.storeError 0, .storePhys ((m blk).getD 0), .complete]

/-- Every request for an uncached block is served as it should be, for every
    file map and whatever `get_block` answers. -/
def WindowExact (prefetchBlocks : Int) (blkbits : Nat) : Prop :=
  ∀ (m : Nat → Option Nat) (a : Answers) (fuel : Nat) (create : Bool)
    (blk : Nat), prefetchBlocks ≤ fuel → a.cur = none →
    Valid prefetchBlocks blkbits a → Truthful m prefetchBlocks blkbits blk a →
    WindowServed m prefetchBlocks blkbits a fuel create blk

/-! ## Stretches of the window -/

section Stretches

variable {m : Nat → Option Nat}

theorem mappedBlocks_add (b n r : Nat) :
    mappedBlocks m b (n + r) = mappedBlocks m b n ++ mappedBlocks m (b + n) r := by
  unfold mappedBlocks
  rw [← range'_append_1, filterMap_append]

theorem mappedBlocks_extent {b p : Nat} :
    ∀ n, (∀ j < n, m (b + j) = some (p + j)) → mappedBlocks m b n
        = (range n).map (fun j => (p + j, b + j)) := by
  intro n
  induction n with
  | zero => exact fun _ => rfl
  | succ n ih =>
    intro hm
    rw [mappedBlocks_add, ih (fun j hj => hm j (by omega)), range_succ, map_append]
    unfold mappedBlocks
    rw [range'_one, filterMap_cons, hm n (by omega)]
    rfl

theorem mappedBlocks_hole {b : Nat} (hb : m b = none) : mappedBlocks m b 1 = [] := by
  unfold mappedBlocks
  rw [range'_one, filterMap_cons, hb]
  rfl

variable (m) in
/-- The steps `l` have served the `n` blocks of the window of `b` from its
    `i`-th on, with calls of `get_block` at the blocks `starts`. -/
structure Covered (b i n : Nat) (starts : List Nat) (l : List ThreadReq) :
    Prop where
  asked : l.filterMap ThreadReq.asksFor = starts
  inserted : l.filterMap ThreadReq.inserts = mappedBlocks m (b + i) n
  replied : l.filter ThreadReq.touchesCio
    = if i = 0 ∧ n ≠ 0 then answerSteps ((m b).getD 0) else []

theorem Covered.nil (b i : Nat) : Covered m b i 0 [] [] :=
  ⟨rfl, rfl, (if_neg (fun h => h.2 rfl)).symm⟩

theorem Covered.append {b i n r : Nat} {s s' : List Nat} {l l' : List ThreadReq}
    (hn : n ≠ 0) (h : Covered m b i n s l) (h' : Covered m b (i + n) r s' l') :
    Covered m b i (n + r) (s ++ s') (l ++ l') := by
  constructor
  · rw [filterMap_append, h.asked, h'.asked]
  · rw [filterMap_append, h.inserted, h'.inserted, mappedBlocks_add, add_assoc]
  · -- the requester is answered at the first block, which is in `l`
    rw [filter_append, h.replied, h'.replied,
      if_neg (show ¬ (i + n = 0 ∧ r ≠ 0) by omega), append_nil]
    have hiff : (i = 0 ∧ n ≠ 0) ↔ (i = 0 ∧ n + r ≠ 0) := by omega
    simp only [hiff]

/-- A call of `get_block` in front. -/
theorem Covered.ask {b i n : Nat} {s : List Nat} {l : List ThreadReq}
    (h : Covered m b i n s l) (blk bSize : Nat) (create : Bool) :
    Covered m b i n (blk :: s) (.getBlock blk bSize create :: l) :=
  ⟨congrArg (blk :: ·) h.asked, h.inserted, h.replied⟩

/-- The dirty bit is nobody's business. -/
theorem Covered.dirty {b i n : Nat} {s : List Nat} {l : List ThreadReq}
    (h : Covered m b i n s l) (create : Bool) :
    Covered m b i n s ((if create = true then [.setDirty] else []) ++ l) := by
  cases create
  · exact h
  · exact ⟨h.asked, h.inserted, h.replied⟩

/-- The steps of the inner loop. -/
theorem covered_extent {b i n phys : Nat} (hn : n ≠ 0)
    (hm : ∀ j < n, m (b + i + j) = some (phys + j)) :
    Covered m b i n [] ((if i = 0 then answerSteps phys else []) ++ (range n).map
          (fun t => ThreadReq.addCache (phys + t) (b + i + t))) := by
  constructor
  · rw [filterMap_append, filterMap_map]
    split <;> simp [ThreadReq.asksFor, answerSteps, Function.comp_def]
  · rw [filterMap_append, filterMap_map, mappedBlocks_extent n hm]
    split <;> simp [ThreadReq.inserts, answerSteps, Function.comp_def]
  · rw [filter_append, filter_map]
    by_cases h0 : i = 0
    · subst h0
      have hfirst : m b = some phys := hm 0 (by omega)
      rw [if_pos rfl, if_pos ⟨rfl, hn⟩, hfirst]
      simp [ThreadReq.touchesCio, answerSteps, Function.comp_def]
    · rw [if_neg h0, if_neg (fun h => h0 h.1)]
      simp [ThreadReq.touchesCio, Function.comp_def]

/-- The steps of a hole. -/
theorem covered_hole {b i : Nat} (hm : m (b + i) = none) :
    Covered m b i 1 [] (if i = 0 then answerSteps 0 else []) := by
  by_cases h0 : i = 0
  · subst h0
    rw [if_pos rfl]
    refine ⟨rfl, (mappedBlocks_hole hm).symm, ?_⟩
    rw [if_pos ⟨rfl, Nat.one_ne_zero⟩, show m b = none from hm]
    rfl
  · rw [if_neg h0]
    refine ⟨rfl, (mappedBlocks_hole hm).symm, ?_⟩
    rw [if_neg (fun h => h0 h.1)]
    rfl

end Stretches

/-! ## The steps of a round -/

section Rounds

variable (a : Answers) (blkbits : Nat)

theorem steps_setDirty (create : Bool) (k : Nat) :
    run (answersHandler a blkbits) (onlyIf (create = true) setDirty) k = some ((), k)
      ∧ steps a blkbits (onlyIf (create = true) setDirty) k
        = if create = true then [.setDirty] else [] := by
  cases create
  · exact ⟨rfl, rfl⟩
  · exact ⟨rfl, rfl⟩

/-- The answer at the head of the window. -/
theorem steps_onlyIf_answer (c : Prop) [Decidable c] (p k : Nat) :
    run (answersHandler a blkbits) (onlyIf c (answer p)) k = some ((), k)
      ∧ steps a blkbits (onlyIf c (answer p)) k = if c then answerSteps p else [] := by
  by_cases hc : c
  · rw [onlyIf_pos hc, if_pos hc]
    exact ⟨rfl, rfl⟩
  · rw [onlyIf_neg hc, if_neg hc]
    exact ⟨rfl, rfl⟩

/-- Past its first block the inner loop only inserts. -/
theorem steps_cacheExtent_rest (first : Bool) (blk phys k : Nat) :
    ∀ n j, run (answersHandler a blkbits) (cacheExtent first blk phys n (j + 1)) k = some ((), k)
      ∧ steps a blkbits (cacheExtent first blk phys n (j + 1)) k = (range' (j + 1) n).map
            (fun t => ThreadReq.addCache (phys + t) (blk + t)) := by
  intro n
  induction n with
  | zero => exact fun j => ⟨rfl, rfl⟩
  | succ n ih =>
    intro j
    obtain ⟨hrun, hsteps⟩ := ih (j + 1)
    rw [cacheExtent, onlyIf_neg (fun h => Nat.succ_ne_zero j h.2),
      range'_succ, map_cons, ← hsteps]
    exact ⟨hrun, rfl⟩

/-- The inner loop inserts an extent block by block. -/
theorem steps_cacheExtent (first : Bool) (blk phys k : Nat) {n : Nat} (hn : n ≠ 0) :
    run (answersHandler a blkbits) (cacheExtent first blk phys n 0) k = some ((), k)
      ∧ steps a blkbits (cacheExtent first blk phys n 0) k
        = (if first = true then answerSteps phys else []) ++ (range n).map
              (fun t => ThreadReq.addCache (phys + t) (blk + t)) := by
  obtain ⟨n, rfl⟩ := Nat.exists_eq_succ_of_ne_zero hn
  obtain ⟨hrun, hsteps⟩ := steps_cacheExtent_rest a blkbits first blk phys k n 0
  obtain ⟨harun, hasteps⟩ := steps_onlyIf_answer a blkbits (first = true ∧ 0 = 0) phys k
  rw [cacheExtent]
  constructor
  · rw [run_bind_some harun]
    exact hrun
  · rw [steps_bind harun, hasteps, range_eq_range', range'_succ, map_cons, ← hsteps]
    simp only [and_true]
    rfl

variable {a blkbits} {m : Nat → Option Nat}

/-- What one round does: the steps `l`, and then the rest of the loop from the
    `n`-th block after. -/
def RoundCovers (m : Nat → Option Nat) (a : Answers) (blkbits b i n k : Nat)
    (round : Prog ThreadSig Unit) (next : Int → Nat → Prog ThreadSig Unit) :
    Prop :=
  ∃ l, Covered m b i n [] l ∧ run (answersHandler a blkbits) round k
        = run (answersHandler a blkbits) (next (i + n : Nat) (b + (i + n))) k
    ∧ steps a blkbits round k = l ++ steps a blkbits (next (i + n : Nat) (b + (i + n))) k

/-- An extent from the `i`-th block on. -/
theorem round_extent {i b phys n : Nat} (hn : n ≠ 0) (hlt : (n : Int) < 2 ^ 31)
    (hphys : phys ≠ 0) (hm : ∀ j < n, m (b + i + j) = some (phys + j))
    (create : Bool) (next : Int → Nat → Prog ThreadSig Unit) (k : Nat) :
    RoundCovers m a blkbits b i n k (afterGetBlock blkbits create next i (b + i)
      ⟨0, phys, n * 2 ^ blkbits⟩) next := by
  obtain ⟨hdrun, hdsteps⟩ := steps_setDirty a blkbits create k
  obtain ⟨herun, hesteps⟩ := steps_cacheExtent a blkbits (decide ((i : Int) = 0)) (b + i) phys k hn
  have hcov := (covered_extent hn hm).dirty create
  rw [afterGetBlock_extent hphys (gotNum_mul hlt), RoundCovers, ← add_assoc, Int.natCast_add]
  refine ⟨_, hcov, ?_, ?_⟩
  · rw [run_bind_some hdrun, run_bind_some herun]
  · rw [steps_bind hdrun, steps_bind herun, hdsteps, hesteps]
    simp only [decide_eq_true_eq, Int.natCast_eq_zero, append_assoc]

/-- A hole at the `i`-th block: one block of it is passed. -/
theorem round_hole {i b size : Nat} (hgot : 0 < gotNum size blkbits) (hm : m (b + i) = none)
    (create : Bool) (next : Int → Nat → Prog ThreadSig Unit) (k : Nat) :
    RoundCovers m a blkbits b i 1 k (afterGetBlock blkbits create next i (b + i)
      ⟨0, 0, size⟩) next := by
  obtain ⟨hdrun, hdsteps⟩ := steps_setDirty a blkbits create k
  obtain ⟨harun, hasteps⟩ := steps_onlyIf_answer a blkbits ((i : Int) = 0) 0 k
  have hcov := (covered_hole hm).dirty create
  rw [afterGetBlock_hole hgot, RoundCovers, ← add_assoc, Int.natCast_add]
  refine ⟨_, hcov, ?_, ?_⟩
  · rw [run_bind_some hdrun, run_bind_some harun]
    rfl
  · rw [steps_bind hdrun, steps_bind harun, hdsteps, hasteps, append_assoc]
    simp only [Int.natCast_eq_zero]
    rfl

end Rounds

/-! ## The whole loop -/

section Loop

variable {prefetchBlocks : Int} {blkbits blk : Nat} {a : Answers} {m : Nat → Option Nat}

section

variable (hf : Fits prefetchBlocks blkbits) (hv : Valid prefetchBlocks blkbits a)
  (ht : Truthful m prefetchBlocks blkbits blk a)
include hf hv ht

/-- One round in a window that fits, whatever `get_block` answers. -/
theorem round_covers {k i : Nat}
    (hr : Reached prefetchBlocks blkbits a k) (hi : position prefetchBlocks blkbits a k = i)
    (create : Bool) (next : Int → Nat → Prog ThreadSig Unit) :
    ∃ n : Nat, n ≠ 0 ∧ (n : Int) ≤ prefetchBlocks - i ∧ (a.getBlock k).isError = false
      ∧ position prefetchBlocks blkbits a (k + 1) = (i + n : Nat)
      ∧ RoundCovers m a blkbits blk i n (k + 1) (afterGetBlock blkbits create next i (blk + i)
            ((a.getBlock k).result blkbits (askedSize prefetchBlocks i blkbits))) next := by
  have hlt : (i : Int) < prefetchBlocks := hi ▸ hr.2
  have hvk := hv k hr
  have htk := ht k hr
  have hnext : position prefetchBlocks blkbits a (k + 1)
      = i + (a.getBlock k).progress prefetchBlocks blkbits i := by
    rw [position, hi]
  rw [hi, Int.toNat_natCast] at htk
  rw [hi] at hvk
  have hwindow := window_lt hf
  cases hk : a.getBlock k with
  | extent phys n =>
    rw [hk] at hvk htk hnext
    obtain ⟨hphys, hn, hle⟩ := hvk
    exact ⟨n, by omega, hle, rfl, hnext,
      round_extent (by omega) (by omega) hphys htk create next (k + 1)⟩
  | hole =>
    rw [hk] at htk hnext
    have hgot : 0 < gotNum (askedSize prefetchBlocks i blkbits) blkbits := by
      rw [gotNum_askedSize hf (by omega) hlt]
      omega
    rw [GetBlock.progress, if_pos hgot] at hnext
    exact ⟨1, Nat.one_ne_zero, by omega, rfl, hnext,
      round_hole hgot htk create next (k + 1)⟩
  | error e =>
    rw [hk] at htk
    exact htk.elim

/-- The loop from its `i`-th block on: the induction is on the fuel, and each
    round leaves a smaller rest of the window. -/
theorem loop_covers (create : Bool) :
    ∀ (fuel k i : Nat), (∀ j < k, (a.getBlock j).isError = false) →
      position prefetchBlocks blkbits a k = i → (i : Int) ≤ prefetchBlocks →
      prefetchBlocks - i ≤ fuel →
      ∃ c, run (answersHandler a blkbits)
            (prefetchLoop prefetchBlocks blkbits create fuel i (blk + i)) k
            = some ((), k + c)
        ∧ position prefetchBlocks blkbits a (k + c) = prefetchBlocks
        ∧ Covered m blk i (prefetchBlocks - i).toNat ((range' k c).map
              (fun j => blk + (position prefetchBlocks blkbits a j).toNat))
            (steps a blkbits (prefetchLoop prefetchBlocks blkbits create fuel i (blk + i)) k) := by
  intro fuel
  induction fuel with
  | zero =>
    intro k i _ hi hle hfuel
    have hend : (i : Int) = prefetchBlocks := by omega
    rw [prefetchLoop, if_neg (by omega), hend, Int.sub_self]
    exact ⟨0, rfl, hi.trans hend, Covered.nil blk i⟩
  | succ fuel ih =>
    intro k i hne hi hle hfuel
    rw [prefetchLoop]
    by_cases hlt : (i : Int) < prefetchBlocks
    · obtain ⟨n, hn, hn', hk, hnext, l, hcov, hrun, hsteps⟩ :=
        round_covers hf hv ht ⟨hne, hi ▸ hlt⟩ hi create
          (prefetchLoop prefetchBlocks blkbits create fuel)
      obtain ⟨c, hrest, hend, hcov'⟩ := ih (k + 1) (i + n)
        (forall_lt_succ hne hk) hnext (by omega) (by omega)
      rw [if_pos hlt]
      refine ⟨c + 1, ?_, ?_, ?_⟩
      · rw [show k + (c + 1) = k + 1 + c by omega, ← hrest, ← hrun]
        rfl
      · rw [show k + (c + 1) = k + 1 + c by omega]
        exact hend
      · have hall := (hcov.append hn hcov').ask (blk + i)
          (askedSize prefetchBlocks i blkbits) create
        rw [steps_getBlock, hsteps, range'_succ, map_cons, hi, Int.toNat_natCast]
        have hlen : (prefetchBlocks - i).toNat
            = n + (prefetchBlocks - (i + n : Nat)).toNat := by omega
        rw [hlen]
        exact hall
    · have hend : (i : Int) = prefetchBlocks := by omega
      rw [if_neg hlt, hend, Int.sub_self]
      exact ⟨0, rfl, hi.trans hend, Covered.nil blk i⟩

/-- A window that fits is served as it should be. -/
theorem windowServed (hcur : a.cur = none)
    {fuel : Nat} (hfuel : prefetchBlocks ≤ fuel) (create : Bool) :
    WindowServed m prefetchBlocks blkbits a fuel create blk := by
  have hpos := hf.1
  obtain ⟨calls, hrun, hend, hcov⟩ := loop_covers hf hv ht create fuel 0 0
    (fun j hj => absurd hj (Nat.not_lt_zero j)) rfl (by omega) (by omega)
  rw [zero_add] at hrun hend
  -- the lookup finds nothing, and the loop is entered
  have hserve : run (answersHandler a blkbits)
      (serveTranslation prefetchBlocks blkbits fuel create blk) 0
      = run (answersHandler a blkbits)
        (afterLookup prefetchBlocks blkbits fuel create blk a.cur) 0 := rfl
  have hsteps : steps a blkbits (serveTranslation prefetchBlocks blkbits fuel create blk) 0
      = .findCacheNode blk :: steps a blkbits
        (afterLookup prefetchBlocks blkbits fuel create blk a.cur) 0 := rfl
  rw [hcur] at hserve hsteps
  refine ⟨calls, hserve.trans hrun, hend, ?_, ?_, ?_⟩
  · rw [hsteps, range_eq_range']
    exact hcov.asked
  · rw [hsteps]
    have hins := hcov.inserted
    rw [show (prefetchBlocks - ((0 : Nat) : Int)).toNat = prefetchBlocks.toNat by omega] at hins
    exact hins
  · rw [hsteps]
    have hrep := hcov.replied
    rw [if_pos ⟨rfl, by omega⟩] at hrep
    exact hrep

end

end Loop

/-! ## A window that does not fit -/

/-- The answers for a file without blocks. -/
def noBlocks : Answers where
  cur := none
  fsyncRet := 0
  getBlock := fun _ => .hole

theorem noBlocks_valid (prefetchBlocks : Int) (blkbits : Nat) :
    Valid prefetchBlocks blkbits noBlocks := fun _ _ => trivial

theorem noBlocks_truthful (prefetchBlocks : Int) (blkbits blk : Nat) :
    Truthful (fun _ => none) prefetchBlocks blkbits blk noBlocks :=
  fun _ _ => rfl

theorem run_getBlock_noBlocks (blkbits blk bSize : Nat) (create : Bool)
    (f : BhResult → Prog ThreadSig Unit) (k : Nat) :
    run (answersHandler noBlocks blkbits) (getBlock blk bSize create >>= f) k
      = run (answersHandler noBlocks blkbits) (f ⟨0, 0, bSize⟩) (k + 1) := rfl

/-- The loop does not get past a remainder whose size in bytes is not a positive `int`. -/
theorem loop_stays {prefetchBlocks i₀ : Int} {blkbits : Nat} (hlt : i₀ < prefetchBlocks)
    (hstuck : ¬ 0 < gotNum (askedSize prefetchBlocks i₀ blkbits) blkbits) :
    ∀ (fuel : Nat) (i : Int) (blk k : Nat), i ≤ i₀ → run (answersHandler noBlocks blkbits)
        (prefetchLoop prefetchBlocks blkbits false fuel i blk) k = none := by
  intro fuel
  induction fuel with
  | zero =>
    intro i blk k hi
    rw [prefetchLoop, if_pos (by omega)]
    rfl
  | succ fuel ih =>
    intro i blk k hi
    rw [prefetchLoop, if_pos (by omega)]
    rw [run_getBlock_noBlocks]
    by_cases hgot : 0 < gotNum (askedSize prefetchBlocks i blkbits) blkbits
    · have hne : i ≠ i₀ := by
        rintro rfl
        exact hstuck hgot
      obtain ⟨harun, -⟩ :=
        steps_onlyIf_answer noBlocks blkbits (i = 0) 0 (k + 1)
      rw [afterGetBlock_hole hgot, onlyIf_neg Bool.false_ne_true, ret_bind, run_bind_some harun]
      exact ih (i + 1) (blk + 1) (k + 1) (by omega)
    · rw [afterGetBlock_stuck hgot]
      exact ih i blk (k + 1) hi

theorem not_windowExact {prefetchBlocks : Int} {blkbits : Nat}
    (hpos : 0 < prefetchBlocks) (h : ¬ prefetchBlocks * 2 ^ blkbits < 2 ^ 31) :
    ¬ WindowExact prefetchBlocks blkbits := by
  intro hexact
  obtain ⟨i₀, h0, hlt, hstuck⟩ := exists_stuck hpos h
  obtain ⟨calls, hrun, -⟩ := hexact (fun _ => none) noBlocks
    prefetchBlocks.toNat false 0 (by omega) rfl (noBlocks_valid _ _)
    (noBlocks_truthful _ _ _)
  have hnone : run (answersHandler noBlocks blkbits) (serveTranslation
      prefetchBlocks blkbits prefetchBlocks.toNat false 0) 0 = none :=
    loop_stays hlt hstuck prefetchBlocks.toNat 0 0 0 h0
  cases hnone.symm.trans hrun

/-- The window of a request is served exactly, for every file and every answer
    of `get_block`, when and only when its size in bytes fits an `int`. -/
theorem window_exact_iff (prefetchBlocks : Int) (blkbits : Nat) (hpos : 0 < prefetchBlocks) :
    WindowExact prefetchBlocks blkbits ↔ prefetchBlocks * 2 ^ blkbits < 2 ^ 31 := by
  constructor
  · intro hexact
    by_contra h
    exact not_windowExact hpos h hexact
  · intro hlt m a fuel create blk hfuel hcur hv ht
    exact windowServed ⟨hpos, hlt⟩ hv ht hcur hfuel create

/-- The default window, over blocks of a page. -/
theorem window_exact_default : (0 : Int) < 128 ∧ WindowExact 128 12 :=
  ⟨by decide, (window_exact_iff 128 12 (by decide)).mpr (by decide)⟩

/-- A window of 2 GiB over a file without blocks never ends. -/
theorem window_exact_fails : ¬ WindowExact 524288 12 :=
  not_windowExact (by decide) (by decide)

end LoopThread
