import MultiLanes.BlockCacheProofs

/-! # The block mapping cache — lookups against recycling

`add_cache` is not one step: it takes the oldest node off the LRU list, unhashes it,
overwrites it, hashes it again and puts it at the head of the list, each under its own
lock or under none.  A lookup is two: it finds a node under the lock of the bucket, and
reads the block number when it has given the lock back.

The translation thread and any number of lookups take these steps in any order (`step`).
 With nobody in between, the steps of `add_cache` are the insertion of
`BlockCacheProofs` (`insert_eq_addCache`).  In between, a node that a lookup has found
may be given to another block, and the lookup is right exactly when that has not
happened (`lookup_right_iff`). -/

namespace LoopCache

open Function List Option

/-- The extents of the backing file: a block is mapped to at most one physical
    block, which no other block is mapped to, and which is not block 0. -/
structure BackingMap where
  phys : Nat → Option Nat
  inj : ∀ {b c p}, phys b = some p → phys c = some p → b = c
  pos : ∀ {b}, phys b ≠ some 0

/-- The cache fields of `struct loop_device` between the sections. -/
structure SharedCache where
  node : Nat → CacheNode
  bucket : Nat → List Nat
  lru : List Nat
  lruCount : Nat
  next : Nat

/-- Where the translation thread is in `add_cache(blknr, blklocal)`. -/
inductive Adding where
  | idle
  /-- the node is off the LRU list -/
  | taken (id blknr blklocal : Nat)
  /-- the node is on no list -/
  | loose (id blknr blklocal : Nat)
  /-- its fields are stored -/
  | written (id blklocal : Nat)
  /-- it is in its bucket -/
  | hashed (id : Nat)
deriving DecidableEq, Repr

/-- The cache, the translation thread, and the lookups that have found a node:
    the block that each looks up, and the node. -/
structure Race where
  cache : SharedCache
  adding : Adding
  lookups : Nat → Option (Nat × Nat)

/-- The sections. -/
inductive Section where
  /-- `add_cache` up to the release of `lru_lock`; a new node while there are
      fewer than `LRU_LENGTH` -/
  | take (blknr blklocal : Nat)
  /-- `hlist_del` -/
  | unhash
  /-- `node->b_blocknr = blknr; node->blk_local = blklocal;` -/
  | overwrite
  /-- `hlist_add_head` -/
  | rehash
  /-- `list_add` -/
  | relink
  /-- `find_cache_node` of a lookup -/
  | find (i blk : Nat)
  /-- `node->b_blocknr` of a lookup -/
  | read (i : Nat)

/-- `find_cache_node`, with the address of the node. -/
def SharedCache.findNode (c : SharedCache) (nr : Nat) : Option Nat :=
  (c.bucket (cacheHashFunc nr)).find? (fun id => (c.node id).blkLocal = nr)

/-- The node that `add_cache` fills in. -/
def SharedCache.takeNode (c : SharedCache) (blknr blklocal : Nat) : Option (SharedCache × Adding) :=
  if c.lruCount < lruLength then
    -- kmalloc
    some ({ c with
        node := update c.node c.next ⟨0, 0⟩
        lruCount := c.lruCount + 1
        next := c.next + 1 }, .loose c.next blknr blklocal)
  else
    c.lru.getLast?.map fun id =>
      ({ c with lru := c.lru.dropLast }, .taken id blknr blklocal)

/-- One section: the state after it, and the block and the answer of a lookup that returns. -/
def step (r : Race) : Section → Option (Race × Option (Nat × Nat))
  | .take blknr blklocal =>
    match r.adding with
    | .idle =>
      (r.cache.takeNode blknr blklocal).map fun t =>
        ({ r with cache := t.1, adding := t.2 }, none)
    | _ => none
  | .unhash =>
    match r.adding with
    | .taken id blknr blklocal =>
      some ({ r with
        cache := { r.cache with
          bucket := fun k => (r.cache.bucket k).filter (fun x => x ≠ id) }
        adding := .loose id blknr blklocal }, none)
    | _ => none
  | .overwrite =>
    match r.adding with
    | .loose id blknr blklocal =>
      some ({ r with
        cache := { r.cache with
          node := update r.cache.node id ⟨blknr, blklocal⟩ }
        adding := .written id blklocal }, none)
    | _ => none
  | .rehash =>
    match r.adding with
    | .written id blklocal =>
      some ({ r with
        cache := { r.cache with
          bucket := update r.cache.bucket (cacheHashFunc blklocal)
            (id :: r.cache.bucket (cacheHashFunc blklocal)) }
        adding := .hashed id }, none)
    | _ => none
  | .relink =>
    match r.adding with
    | .hashed id =>
      some ({ r with
        cache := { r.cache with lru := id :: r.cache.lru }
        adding := .idle }, none)
    | _ => none
  | .find i blk =>
    match r.lookups i with
    | some _ => none
    | none =>
      match r.cache.findNode blk with
      | none => some (r, some (blk, 0))
      | some id =>
        some ({ r with
          lookups := update r.lookups i (some (blk, id)) }, none)
  | .read i =>
    match r.lookups i with
    | none => none
    | some (blk, id) =>
      some ({ r with lookups := update r.lookups i none },
        some (blk, (r.cache.node id).bBlocknr))

/-- `init_cache`, and nobody at work. -/
def initRace : Race where
  cache := ⟨initCache.node, initCache.bucket, [], 0, 0⟩
  adding := .idle
  lookups _ := none

/-- What the thread inserts is what the backing file says. -/
def Section.Honest (m : BackingMap) : Section → Prop
  | .take blknr blklocal => m.phys blklocal = some blknr
  | _ => True

/-- The states that the thread and the lookups come to, in any order. -/
inductive Reach (m : BackingMap) : Race → Prop
  | init : Reach m initRace
  | step {r r' : Race} {a : Section} {out : Option (Nat × Nat)} :
      Reach m r → a.Honest m → step r a = some (r', out) → Reach m r'

/-- An answer that the caller may use. -/
def Right (m : BackingMap) (blk answer : Nat) : Prop :=
  answer = 0 ∨ m.phys blk = some answer

/-! ## The sections in a row -/

/-- The cache of the sequential model, with nobody at work. -/
def BlockCache.atRest (c : BlockCache) : Race where
  cache := ⟨c.node, c.bucket, c.lru, c.lruCount, c.next⟩
  adding := .idle
  lookups _ := none

/-- Sections, one after the other. -/
def steps (r : Race) : List Section → Option Race
  | [] => some r
  | a :: as => (step r a).bind fun t => steps t.1 as

/-- The sections of `add_cache`; a new node is on no list. -/
def insertSections (c : BlockCache) (blknr blklocal : Nat) : List Section :=
  if c.lruCount < lruLength then
    [.take blknr blklocal, .overwrite, .rehash, .relink]
  else [.take blknr blklocal, .unhash, .overwrite, .rehash, .relink]

/-- Without interference they insert as `addCache` does. -/
theorem insert_eq_addCache (c : BlockCache) (blknr blklocal : Nat) :
    steps c.atRest (insertSections c blknr blklocal) = some (c.addCache blknr blklocal).atRest := by
  unfold insertSections BlockCache.addCache
  by_cases h : c.lruCount < lruLength
  · -- the zeros of the new node are overwritten
    simp [h, steps, step, BlockCache.atRest, SharedCache.takeNode, BlockCache.link, update_idem]
  · have hne := BlockCache.lru_ne_nil h
    have hlast : c.lru.getLast? = some (c.lru.getLast hne) :=
      getLast?_eq_some_getLast hne
    have hcount : c.lruCount - 1 + 1 = c.lruCount := by
      rw [c.count_eq]
      exact Nat.sub_add_cancel (length_pos_iff.mpr hne)
    simp [h, steps, step, BlockCache.atRest, SharedCache.takeNode, hlast,
      BlockCache.link, BlockCache.unlinkLast, hcount]

/-! ## Every node that is known is true -/

section Invariant

variable {m : BackingMap} {r r' : Race} {a : Section} {out : Option (Nat × Nat)} {id : Nat}

/-- The pair that a node names is one of the file's. -/
def SharedCache.True (m : BackingMap) (c : SharedCache) (id : Nat) : Prop :=
  m.phys (c.node id).blkLocal = some (c.node id).bBlocknr

/-- A node that someone can come to. -/
inductive Known (r : Race) (id : Nat) : Prop
  | bucket (k : Nat) : id ∈ r.cache.bucket k → Known r id
  | lru : id ∈ r.cache.lru → Known r id
  | lookup (i blk : Nat) : r.lookups i = some (blk, id) → Known r id

/-- What is known after a section that puts nothing on a list was known. -/
theorem Known.before (h : Known r' id) (hb : ∀ k, r'.cache.bucket k ⊆ r.cache.bucket k)
    (hl : r'.cache.lru ⊆ r.cache.lru) (hq : ∀ i x, r'.lookups i = some x → r.lookups i = some x) :
    Known r id := by
  cases h with
  | bucket k h => exact .bucket k (hb k h)
  | lru h => exact .lru (hl h)
  | lookup i blk h => exact .lookup i blk (hq i _ h)

/-- What the thread has in hand: a pair of the file, in a node that exists, and
    from `written` on in the node. -/
def Adding.Ok (m : BackingMap) (c : SharedCache) : Adding → Prop
  | .idle => True
  | .taken id blknr blklocal =>
    m.phys blklocal = some blknr ∧ id < c.next ∧ c.True m id
  | .loose id blknr blklocal => m.phys blklocal = some blknr ∧ id < c.next
  | .written id _ => id < c.next ∧ c.True m id
  | .hashed id => id < c.next ∧ c.True m id

/-- The invariant. -/
structure Sound (m : BackingMap) (r : Race) : Prop where
  known : ∀ {id}, Known r id → id < r.cache.next ∧ r.cache.True m id
  adding : r.adding.Ok m r.cache

theorem initRace_sound : Sound m initRace := by
  refine ⟨fun h => ?_, trivial⟩
  rcases h with ⟨_, h⟩ | h | ⟨_, _, h⟩ <;> exact nomatch h

section

variable (h : Sound m r)
include h

/-- A section that changes no node, and after which only nodes are known that
    were or that are in hand, keeps the nodes true. -/
theorem Sound.same (hnode : r'.cache.node = r.cache.node) (hnext : r'.cache.next = r.cache.next)
    (hknown : ∀ {id}, Known r' id → Known r id ∨ id < r.cache.next ∧ r.cache.True m id)
    (hadd : r'.adding.Ok m r.cache) : Sound m r' := by
  have htrue : ∀ id, r'.cache.True m id ↔ r.cache.True m id := by
    intro id
    unfold SharedCache.True
    rw [hnode]
  constructor
  · intro id hid
    rw [hnext, htrue]
    rcases hknown hid with hold | hnew
    · exact h.known hold
    · exact hnew
  · cases hr : r'.adding with
    | idle => trivial
    | _ =>
      rw [hr] at hadd
      simp only [Adding.Ok, hnext, htrue] at hadd ⊢
      exact hadd

theorem sound_take {blknr blklocal : Nat} (hm : m.phys blklocal = some blknr)
    (hs : step r (.take blknr blklocal) = some (r', out)) : Sound m r' := by
  simp only [step] at hs
  split at hs
  · next hidle =>
    obtain ⟨⟨c, ad⟩, ht, heq⟩ := map_eq_some_iff.mp hs
    cases heq
    unfold SharedCache.takeNode at ht
    split at ht
    · -- the new node is known to nobody
      cases Option.some.inj ht
      refine ⟨fun {id} hid => ?_, hm, Nat.lt_succ_self _⟩
      obtain ⟨hlt, htrue⟩ := h.known
        (hid.before (fun _ => List.Subset.refl _) (List.Subset.refl _) (fun _ _ hx => hx))
      refine ⟨Nat.lt_succ_of_lt hlt, ?_⟩
      show m.phys (update r.cache.node r.cache.next _ id).blkLocal
        = some (update r.cache.node r.cache.next _ id).bBlocknr
      rw [update_of_ne (Nat.ne_of_lt hlt)]
      exact htrue
    · obtain ⟨id, hlast, heq⟩ := map_eq_some_iff.mp ht
      cases heq
      have hmem : id ∈ r.cache.lru := mem_of_getLast? hlast
      refine h.same rfl rfl (fun hid => .inl ?_) ⟨hm, h.known (.lru hmem)⟩
      exact hid.before (fun _ => List.Subset.refl _) (dropLast_subset _) (fun _ _ hx => hx)
  · cases hs

theorem sound_unhash (hs : step r .unhash = some (r', out)) : Sound m r' := by
  simp only [step] at hs
  split at hs
  · next id blknr blklocal hadd =>
    cases Option.some.inj hs
    have hok := h.adding
    rw [hadd] at hok
    refine h.same rfl rfl (fun hid => .inl ?_) ⟨hok.1, hok.2.1⟩
    exact hid.before (fun _ => filter_subset_self _) (List.Subset.refl _) (fun _ _ hx => hx)
  · cases hs

/-- The node gets a pair of the file, whoever has found it. -/
theorem sound_overwrite (hs : step r .overwrite = some (r', out)) : Sound m r' := by
  simp only [step] at hs
  split at hs
  · next id blknr blklocal hadd =>
    cases Option.some.inj hs
    obtain ⟨hm, hlt⟩ : m.phys blklocal = some blknr ∧ id < r.cache.next := by
      have hok := h.adding
      rw [hadd] at hok
      exact hok
    have hself : SharedCache.True m { r.cache with
        node := update r.cache.node id ⟨blknr, blklocal⟩ } id := by
      simp only [SharedCache.True, update_self]
      exact hm
    refine ⟨fun {x} hx => ?_, hlt, hself⟩
    by_cases hxid : x = id
    · subst hxid
      exact ⟨hlt, hself⟩
    · obtain ⟨hltx, htrue⟩ := h.known (hx.before
        (fun _ => List.Subset.refl _) (List.Subset.refl _)
        (fun _ _ hx => hx))
      refine ⟨hltx, ?_⟩
      simp only [SharedCache.True, update_of_ne hxid]
      exact htrue
  · cases hs

theorem sound_rehash (hs : step r .rehash = some (r', out)) : Sound m r' := by
  simp only [step] at hs
  split at hs
  · next id blklocal hadd =>
    cases Option.some.inj hs
    have hok := h.adding
    rw [hadd] at hok
    refine h.same rfl rfl (fun {x} hx => ?_) hok
    rcases hx with ⟨k, hx⟩ | hx | ⟨i, blk, hx⟩
    · by_cases hk : k = cacheHashFunc blklocal
      · subst hk
        simp only [update_self, mem_cons] at hx
        rcases hx with rfl | hx
        · exact .inr hok
        · exact .inl (.bucket _ hx)
      · simp only [update_of_ne hk] at hx
        exact .inl (.bucket k hx)
    · exact .inl (.lru hx)
    · exact .inl (.lookup i blk hx)
  · cases hs

theorem sound_relink (hs : step r .relink = some (r', out)) : Sound m r' := by
  simp only [step] at hs
  split at hs
  · next id hadd =>
    cases Option.some.inj hs
    have hok := h.adding
    rw [hadd] at hok
    refine h.same rfl rfl (fun {x} hx => ?_) trivial
    rcases hx with ⟨k, hx⟩ | hx | ⟨i, blk, hx⟩
    · exact .inl (.bucket k hx)
    · rcases mem_cons.mp hx with rfl | hx
      · exact .inr hok
      · exact .inl (.lru hx)
    · exact .inl (.lookup i blk hx)
  · cases hs

theorem sound_find {i blk : Nat} (hs : step r (.find i blk) = some (r', out)) : Sound m r' := by
  simp only [step] at hs
  split at hs
  · cases hs
  · split at hs
    · cases Option.some.inj hs
      exact h
    · next id hfind =>
      cases Option.some.inj hs
      refine h.same rfl rfl (fun {x} hx => .inl ?_) h.adding
      rcases hx with ⟨k, hx⟩ | hx | ⟨j, b, hx⟩
      · exact .bucket k hx
      · exact .lru hx
      · by_cases hj : j = i
        · subst hj
          simp only [update_self, Option.some.injEq, Prod.mk.injEq] at hx
          obtain ⟨-, rfl⟩ := hx
          exact .bucket _ (mem_of_find?_eq_some hfind)
        · simp only [update_of_ne hj] at hx
          exact .lookup j b hx

theorem sound_read {i : Nat} (hs : step r (.read i) = some (r', out)) : Sound m r' := by
  simp only [step] at hs
  split at hs
  · cases hs
  · cases Option.some.inj hs
    refine h.same rfl rfl (fun {x} hx => .inl ?_) h.adding
    refine hx.before (fun _ => List.Subset.refl _) (List.Subset.refl _) ?_
    intro j y hy
    by_cases hj : j = i
    · subst hj
      simp only [update_self] at hy
      cases hy
    · simpa only [update_of_ne hj] using hy

theorem Sound.step (ha : a.Honest m) (hs : step r a = some (r', out)) : Sound m r' := by
  cases a with
  | take blknr blklocal => exact sound_take h ha hs
  | unhash => exact sound_unhash h hs
  | overwrite => exact sound_overwrite h hs
  | rehash => exact sound_rehash h hs
  | relink => exact sound_relink h hs
  | find i blk => exact sound_find h hs
  | read i => exact sound_read h hs

end

theorem Reach.sound (h : Reach m r) : Sound m r := by
  induction h with
  | init => exact initRace_sound
  | step _ ha hs ih => exact ih.step ha hs

/-- What a true node names is right for its own block and for no other. -/
theorem right_iff_own (h : r.cache.True m id) {blk : Nat} :
    Right m blk (r.cache.node id).bBlocknr ↔ (r.cache.node id).blkLocal = blk := by
  constructor
  · rintro (hzero | hblk)
    · rw [SharedCache.True, hzero] at h
      exact absurd h m.pos
    · exact m.inj h hblk
  · rintro rfl
    exact .inr h

/-- A lookup that does not find a node answers 0. -/
theorem find_answers_zero {i blk answer b : Nat}
    (hs : LoopCache.step r (.find i blk) = some (r', some (b, answer))) :
    answer = 0 := by
  simp only [LoopCache.step] at hs
  split at hs
  · cases hs
  · split at hs
    · simp only [Option.some.injEq, Prod.mk.injEq] at hs
      exact hs.2.2.symm
    · simp at hs

end Invariant

/-- In every interleaving, with the cache full or not, the answer of a lookup is
    right exactly when the node it has found still belongs to its block. -/
theorem lookup_right_iff {m : BackingMap} {r r' : Race} {a : Section} {blk answer : Nat}
    (h : Reach m r) (hs : step r a = some (r', some (blk, answer))) :
    Right m blk answer ↔ ∀ i id, a = .read i → r.lookups i = some (blk, id) →
        (r.cache.node id).blkLocal = blk := by
  cases a with
  | read i =>
    simp only [step] at hs
    split at hs
    · exact nomatch hs
    · next b id hi =>
      simp only [Option.some.injEq, Prod.mk.injEq] at hs
      obtain ⟨-, rfl, rfl⟩ := hs
      rw [right_iff_own (h.sound.known (.lookup i b hi)).2]
      constructor
      · rintro hown j id' ⟨⟩ hj
        obtain ⟨-, rfl⟩ := Prod.mk.inj (mem_unique hi hj)
        exact hown
      · intro hall
        exact hall i id rfl hi
  | find i b =>
    refine iff_of_true (Or.inl (find_answers_zero hs)) ?_
    intro _ _ hread
    exact nomatch hread
  | take blknr blklocal =>
    simp only [step] at hs
    split at hs
    · obtain ⟨t, -, heq⟩ := map_eq_some_iff.mp hs
      exact nomatch (Prod.mk.inj heq).2
    · exact nomatch hs
  | unhash | overwrite | rehash | relink =>
    simp only [step] at hs
    split at hs
    · exact nomatch (Prod.mk.inj (Option.some.inj hs)).2
    · exact nomatch hs

/-! ## A full cache -/

/-- Block `b` is in the physical block after it. -/
def shifted : BackingMap where
  phys b := some (b + 1)
  inj hb hc := Nat.succ.inj ((Option.some.inj hb).trans (Option.some.inj hc).symm)
  pos h := nomatch h

/-- The blocks below `n`, inserted in order: the node of a block has the block's
    number for its address. -/
def filled (n : Nat) : Race where
  cache :=
    { node := fun id => if id < n then ⟨id + 1, id⟩ else ⟨0, 0⟩
      bucket := fun k =>
        ((range n).reverse).filter (fun id => cacheHashFunc id = k)
      lru := (range n).reverse
      lruCount := n
      next := n }
  adding := .idle
  lookups _ := none

theorem filled_zero : filled 0 = initRace := by
  simp [filled, initRace, initCache]

theorem filled_node_succ (n : Nat) :
    update (filled n).cache.node n ⟨n + 1, n⟩ = (filled (n + 1)).cache.node := by
  funext id
  simp only [filled]
  by_cases hid : id = n
  · subst hid
    simp
  · rw [update_of_ne hid]
    by_cases hlt : id < n
    · rw [if_pos hlt, if_pos (Nat.lt_succ_of_lt hlt)]
    · rw [if_neg hlt, if_neg (by omega)]

theorem filled_bucket_succ (n : Nat) : update (filled n).cache.bucket (cacheHashFunc n)
        (n :: (filled n).cache.bucket (cacheHashFunc n))
      = (filled (n + 1)).cache.bucket := by
  funext k
  simp only [filled, range_succ, reverse_append, reverse_cons, reverse_nil, nil_append, cons_append]
  by_cases hk : k = cacheHashFunc n
  · subst hk
    rw [update_self, filter_cons_of_pos (by simp)]
  · rw [update_of_ne hk, filter_cons_of_neg (by simpa using fun h => hk h.symm)]

/-- One more block is inserted while there is room. -/
theorem filled_succ {n : Nat} (hn : n < lruLength) :
    steps (filled n) [.take (n + 1) n, .overwrite, .rehash, .relink] = some (filled (n + 1)) := by
  have hlru : n :: (filled n).cache.lru = (filled (n + 1)).cache.lru := by
    simp [filled, range_succ]
  have hend : filled (n + 1)
      = { cache :=
            { node := update (filled n).cache.node n ⟨n + 1, n⟩
              bucket := update (filled n).cache.bucket
                (cacheHashFunc n) (n :: (filled n).cache.bucket (cacheHashFunc n))
              lru := n :: (filled n).cache.lru
              lruCount := n + 1
              next := n + 1 }
          adding := .idle
          lookups := fun _ => none } := by
    rw [filled_node_succ, filled_bucket_succ, hlru]
    rfl
  rw [hend]
  simp only [steps, step, SharedCache.takeNode, show (filled n).adding = .idle from rfl,
    show (filled n).cache.lruCount = n from rfl,
    show (filled n).cache.next = n from rfl,
    show (filled n).lookups = fun _ => none from rfl, if_pos hn,
    map_some, bind_some, update_idem]

/-- Honest sections lead from a state that is reached to one that is. -/
theorem Reach.steps {m : BackingMap} {r r' : Race} {as : List Section} (h : Reach m r)
    (has : ∀ a ∈ as, a.Honest m) (hs : steps r as = some r') : Reach m r' := by
  induction as generalizing r with
  | nil =>
    cases hs
    exact h
  | cons a as ih =>
    obtain ⟨⟨t, out⟩, ht, hrest⟩ := bind_eq_some_iff.mp hs
    exact ih (h.step (has a (.head _)) ht) (fun b hb => has b (.tail _ hb)) hrest

theorem filled_reach {n : Nat} (hn : n ≤ lruLength) : Reach shifted (filled n) := by
  induction n with
  | zero =>
    rw [filled_zero]
    exact .init
  | succ n ih =>
    refine (ih (Nat.le_of_succ_le hn)).steps ?_ (filled_succ hn)
    simp [Section.Honest, shifted]

/-- Block 0 is found at address 0. -/
theorem filled_find {n : Nat} (hn : 0 < n) : (filled n).cache.findNode 0 = some 0 := by
  unfold SharedCache.findNode
  have hmem : 0 ∈ (filled n).cache.bucket (cacheHashFunc 0) := by
    simp [filled, hn]
  cases hfind : ((filled n).cache.bucket (cacheHashFunc 0)).find?
      (fun id => decide (((filled n).cache.node id).blkLocal = 0)) with
  | none =>
    have := find?_eq_none.mp hfind 0 hmem
    simp [filled, hn] at this
  | some id =>
    -- a node of the bucket that names block 0 has address 0
    have hid : id < n := by
      have := mem_of_find?_eq_some hfind
      simp only [filled, mem_filter, mem_reverse, mem_range] at this
      exact this.1
    have hzero : ((filled n).cache.node id).blkLocal = 0 := by
      simpa using find?_some hfind
    simp only [filled, if_pos hid] at hzero
    rw [hzero]

theorem filled_last {n : Nat} (hn : 0 < n) : (filled n).cache.lru.getLast? = some 0 := by
  obtain ⟨k, rfl⟩ : ∃ k, n = k + 1 := ⟨n - 1, by omega⟩
  simp [filled, range_succ_eq_map]

/-- A lookup of block 0 finds the oldest node, which the thread then takes. -/
theorem filled_recycle {n : Nat} (hpos : 0 < n) (hfull : ¬ n < lruLength) :
    ∃ r, steps (filled n) [.find 0 0, .take (n + 1) n, .unhash, .overwrite] = some r
      ∧ r.cache.lruCount = n ∧ r.lookups 0 = some (0, 0)
      ∧ (r.cache.node 0).bBlocknr = n + 1 := by
  have hfull' : ¬ (filled n).cache.lruCount < lruLength := hfull
  simp only [steps, step, SharedCache.takeNode, show (filled n).lookups = fun _ => none from rfl,
    show (filled n).adding = .idle from rfl, filled_find hpos,
    filled_last hpos, if_neg hfull', bind_some, map_some]
  refine ⟨_, rfl, rfl, ?_, ?_⟩
  · simp only [update_self]
  · simp only [update_self]

/-- The node of block 0 has been given to block `n`. -/
theorem recycled_wrong {n : Nat} (hn : n = lruLength) :
    ∃ r r', Reach shifted r ∧ r.cache.lruCount = n ∧ r.lookups 0 = some (0, 0)
      ∧ step r (.read 0) = some (r', some (0, n + 1))
      ∧ ¬ Right shifted 0 (n + 1) := by
  have hpos : 0 < n := by
    rw [hn]
    decide
  obtain ⟨r, hr, hcount, hlookup, hnode⟩ :=
    filled_recycle hpos (by rw [hn]; exact Nat.lt_irrefl _)
  refine ⟨r, { r with lookups := update r.lookups 0 none },
    (filled_reach (Nat.le_of_eq hn)).steps ?_ hr, hcount, hlookup,
    by simp only [step, hlookup, hnode], ?_⟩
  · simp [Section.Honest, shifted]
  · rintro (h | h)
    · cases h
    · simp only [shifted, Option.some.injEq] at h
      omega

/-- On a full cache: a lookup of block 0 finds the oldest node, the thread gives
    that node to another block, and the lookup answers that block's place. -/
theorem recycled_lookup_wrong :
    ∃ r r', Reach shifted r ∧ r.cache.lruCount = lruLength ∧ r.lookups 0 = some (0, 0)
      ∧ step r (.read 0) = some (r', some (0, lruLength + 1))
      ∧ ¬ Right shifted 0 (lruLength + 1) := recycled_wrong rfl

/-- A lookup that reads before anything else happens. -/
theorem prompt_lookup_right : ∃ r r', Reach shifted r ∧ step r (.read 0) = some (r', some (0, 1))
      ∧ Right shifted 0 1 := by
  have hrun : ∃ r, steps (filled 1) [.find 0 0] = some r
      ∧ r.lookups 0 = some (0, 0) ∧ r.cache.node 0 = ⟨1, 0⟩ :=
    ⟨_, rfl, rfl, rfl⟩
  obtain ⟨r, hr, hlookup, hnode⟩ := hrun
  have hreach : Reach shifted r :=
    (filled_reach (n := 1) (by decide)).steps (by simp [Section.Honest]) hr
  have hread : step r (.read 0)
      = some ({ r with lookups := update r.lookups 0 none }, some (0, 1)) := by
    simp only [step, hlookup, hnode]
  refine ⟨r, _, hreach, hread, (lookup_right_iff hreach hread).mpr ?_⟩
  rintro i id ⟨⟩ hi
  obtain ⟨-, rfl⟩ := Prod.mk.inj (mem_unique hlookup hi)
  rw [hnode]

end LoopCache
