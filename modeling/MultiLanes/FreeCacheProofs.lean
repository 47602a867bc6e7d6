import MultiLanes.CacheHistoryProofs
import MultiLanes.LinkedListProofs

/-! # Freeing the block mapping cache

`free_cache` walks the LRU list and frees its nodes.  The list is circular and closed
through `lo->lru`, but the walk ends at a null pointer: behind the last node it takes
the list head for a node.

Here the cache lies in memory: the nodes with their links, the buckets and the list
head.  `add_cache` is translated store by store and refines the abstract cache; what
`free_cache` does is then said for every cache that insertions can build. -/

namespace LoopFreeCache

open LoopCache LinkedList Function List

/-- A `struct list_head`: `lo->lru`, or the field `next` of a node. -/
inductive LruCell where
  | head
  | node (id : Nat)
deriving DecidableEq, Repr

/-- The cache of a loop device in memory; `live` are the nodes that are
    allocated, `freed` what `kfree` was called with. -/
structure CacheMem where
  node : Nat → CacheNode
  lru : Links LruCell
  table : HLinks Nat Nat
  lruCount : Nat
  next : Nat
  live : Nat → Bool
  freed : List Nat

/-- After `INIT_LIST_HEAD` in `loop_set_fd` and `init_cache`. -/
def initMem : CacheMem where
  node := fun _ => ⟨0, 0⟩
  lru := Links.init ⟨fun _ => .null, fun _ => .null⟩ .head
  table := ⟨fun _ => .null, fun _ => .null, fun _ => .null⟩
  lruCount := 0
  next := 0
  live := fun _ => false
  freed := []

/-- The node that `add_cache` fills in: a new one, or the last of the list. -/
def CacheMem.takeNode (m : CacheMem) : Option (Nat × CacheMem) :=
  if m.lruCount < lruLength then
    some (m.next,
      { m with
        table := m.table.initNode m.next
        node := update m.node m.next ⟨0, 0⟩
        lru := m.lru.init (.node m.next)
        lruCount := m.lruCount + 1
        next := m.next + 1
        live := update m.live m.next true })
  else
    match m.lru.prev .head with
    | .ref (.node id) => do
      let lru ← m.lru.del (.node id)
      let table ← m.table.del id
      some (id,
        { m with
          lru := lru.init (.node id)
          table := table.initNode id })
    | _ => none

/-- Fill in the node, hash it and put it at the head of the list. -/
def CacheMem.linkNode (m : CacheMem) (id blknr blklocal : Nat) : Option CacheMem := do
  let table ← m.table.addHead id (cacheHashFunc blklocal)
  let lru ← m.lru.add (.node id) .head
  some { m with
    node := update m.node id ⟨blknr, blklocal⟩
    table := table
    lru := lru }

/-- `add_cache`. -/
def CacheMem.addCache (m : CacheMem) (blknr blklocal : Nat) : Option CacheMem := do
  let (id, m) ← m.takeNode
  m.linkNode id blknr blklocal

/-- A sequence of `add_cache` calls. -/
def CacheMem.addAll (m : CacheMem) (adds : List (Nat × Nat)) : Option CacheMem :=
  adds.foldlM (fun m a => m.addCache a.1 a.2) m

/-! ## `free_cache` -/

/-- The body of the loop for the node `id`, with the next value of `cur`.  The
    node must not have been freed. -/
def CacheMem.freeNode (m : CacheMem) (id : Nat) : Option (CacheMem × Ptr LruCell) :=
  if m.live id then
    match m.lru.next (.node id) with
    | .ref cur => do
      let table ← m.table.del id
      -- `list_del ((*cur).prev)`
      match m.lru.prev cur with
      | .ref entry => do
        let lru ← m.lru.del entry
        some
          ({ m with
             table := table
             lru := lru
             live := update m.live id false
             freed := m.freed ++ [id] }, .ref cur)
      | _ => none
    | _ => none
  else none

/-- How a run of the loop ends. -/
inductive FreeEnd where
  /-- `cur` is null. -/
  | returns (m : CacheMem)
  /-- The list head is taken for a node. -/
  | headAsNode (m : CacheMem)
  /-- A pointer to nowhere or to a freed node is followed. -/
  | crash (m : CacheMem)
  /-- The rounds are used up. -/
  | running (m : CacheMem)

/-- The loop of `free_cache`, for a number of rounds. -/
def freeLoop : Nat → CacheMem → Ptr LruCell → FreeEnd
  | _, m, .null => .returns m
  | _, m, .poison => .crash m
  | 0, m, .ref _ => .running m
  | _ + 1, m, .ref .head => .headAsNode m
  | rounds + 1, m, .ref (.node id) =>
    match m.freeNode id with
    | some (m', cur) => freeLoop rounds m' cur
    | none => .crash m

/-- `free_cache`. -/
def freeCache (rounds : Nat) (m : CacheMem) : FreeEnd :=
  freeLoop rounds m (m.lru.next .head)

/-- Every node was freed once and nothing else was; no bucket and no link of
    the list head names a node. -/
structure Emptied (m m' : CacheMem) : Prop where
  once : ∀ id, m'.freed.count id = if m.live id then 1 else 0
  unhashed : ∀ k, m'.table.first k = .null
  unlinked : m'.lru.next .head = .ref .head ∧ m'.lru.prev .head = .ref .head

/-- `free_cache` comes to its end and has emptied the cache. -/
def Empties (m : CacheMem) : Prop :=
  ∃ rounds m', freeCache rounds m = .returns m' ∧ Emptied m m'

/-! ## The memory holds the abstract cache -/

variable {m : CacheMem} {c : BlockCache} {h : List CacheNode} {id : Nat}

structure Represents (m : CacheMem) (c : BlockCache) : Prop where
  node : m.node = c.node
  ring : Ring m.lru .head (c.lru.map .node)
  table : Table m.table c.bucket
  count : m.lruCount = c.lruCount
  next : m.next = c.next
  live : ∀ id, m.live id = true ↔ id ∈ c.lru
  freed : m.freed = []

/-- The memory holds the cache `c`, and the node `id` besides it. -/
structure Spare (m : CacheMem) (c : BlockCache) (id : Nat) : Prop where
  node : ∀ x, x ≠ id → m.node x = c.node x
  ring : Ring m.lru .head (c.lru.map .node)
  table : Table m.table c.bucket
  count : m.lruCount = c.lruCount + 1
  next : m.next = c.next
  live : ∀ x, m.live x = true ↔ x ∈ id :: c.lru
  freed : m.freed = []
  off : id ∉ c.lru
  unhashed : ∀ k, id ∉ c.bucket k

theorem cell_notMem {l : List Nat} (hid : id ∉ l) :
    LruCell.node id ∉ LruCell.head :: l.map .node := by
  simpa using hid

theorem initMem_represents : Represents initMem initCache where
  node := rfl
  ring := ring_init
  table := ⟨fun _ => rfl, fun _ => nodup_nil, nofun⟩
  count := rfl
  next := rfl
  live := by simp [initMem, initCache]
  freed := rfl

/-- The last part of `add_cache`. -/
theorem Spare.linkNode (hs : Spare m c id) (blknr blklocal : Nat) :
    ∃ m', m.linkNode id blknr blklocal = some m' ∧ Represents m' (c.link id blknr blklocal) := by
  obtain ⟨table, hadd, htable⟩ :=
    hs.table.addHead hs.unhashed (cacheHashFunc blklocal)
  obtain ⟨lru, hlru, hring⟩ := hs.ring.add (cell_notMem hs.off)
  rw [CacheMem.linkNode, hadd, hlru]
  refine ⟨_, rfl, ?_, hring, htable, hs.count, hs.next, hs.live, hs.freed⟩
  funext x
  show update m.node id _ x = update c.node id _ x
  by_cases hx : x = id
  · rw [hx, update_self, update_self]
  · rw [update_of_ne hx, update_of_ne hx, hs.node x hx]

/-- A node that is not on the list is in no bucket. -/
theorem notMem_bucket (hc : c.Holds h) (hid : id ∉ c.lru) (k : Nat) : id ∉ c.bucket k := by
  rw [hc.hashed k]
  exact fun hmem => hid (mem_of_mem_filter hmem)

/-- With room for a node, `kmalloc` gives one. -/
theorem Represents.takeNew (hr : Represents m c) (hc : c.Holds h) (hroom : c.lruCount < lruLength) :
    ∃ m', m.takeNode = some (c.next, m')
      ∧ Spare m' { c with next := c.next + 1 } c.next := by
  have hfresh := hc.fresh
  have hunhashed := notMem_bucket hc hfresh
  rw [CacheMem.takeNode, if_pos (hr.count ▸ hroom), hr.next]
  refine ⟨_, rfl, fun x hx => ?_, hr.ring.init (cell_notMem hfresh),
    hr.table.initNode hunhashed, ?_, rfl, fun x => ?_, hr.freed, hfresh,
    hunhashed⟩
  · show update m.node c.next _ x = c.node x
    rw [update_of_ne hx, hr.node]
  · show m.lruCount + 1 = c.lruCount + 1
    rw [hr.count]
  · show update m.live c.next true x = true ↔ x ∈ c.next :: c.lru
    rw [mem_cons, ← hr.live x]
    by_cases hx : x = c.next
    · simp [hx]
    · simp [hx]

/-- In a full cache the last node of the list is taken off it and out of its bucket. -/
theorem Represents.recycle (hr : Represents m c) (hc : c.Holds h)
    (hfull : ¬ c.lruCount < lruLength) :
    ∃ m', m.takeNode = some (c.lru.getLast (BlockCache.lru_ne_nil hfull), m')
      ∧ Spare m' (c.unlinkLast (BlockCache.lru_ne_nil hfull))
          (c.lru.getLast (BlockCache.lru_ne_nil hfull)) := by
  have hne := BlockCache.lru_ne_nil hfull
  have hlast := hc.getLast_notMem hne
  have hlru := dropLast_append_getLast hne
  have hbuckets : (c.unlinkLast hne).bucket
      = fun k => (c.bucket k).filter (· ≠ c.lru.getLast hne) := rfl
  generalize c.lru.getLast hne = id at hlast hlru hbuckets ⊢
  have hmem : id ∈ c.lru := by
    rw [← hlru]
    exact mem_append_right _ (mem_singleton.mpr rfl)
  -- the list head names it as the last node
  have hring := hr.ring
  rw [← hlru, map_append] at hring
  have hprev : m.lru.prev .head = .ref (.node id) := hring.prev_head
  obtain ⟨lru, hdel, hring⟩ := hring.del
  rw [map_nil, append_nil] at hring
  -- and it is in the bucket of its key
  have hbucket : id ∈ c.bucket (cacheHashFunc (c.node id).blkLocal) :=
    (hc.mem_bucket ..).mpr ⟨(hc.alive id).mp hmem, rfl⟩
  obtain ⟨table, hunhash, htable⟩ := hr.table.del hbucket
  rw [← hbuckets] at htable
  have hoff : ∀ k, id ∉ (c.unlinkLast hne).bucket k := by
    intro k hk
    rw [hbuckets] at hk
    simp at hk
  rw [CacheMem.takeNode, if_neg (hr.count ▸ hfull), hprev]
  simp only [hdel, hunhash, Option.bind_eq_bind, Option.bind_some]
  refine ⟨_, rfl, fun x _ => congrFun hr.node x, hring.init (cell_notMem hlast),
    htable.initNode hoff, ?_, hr.next, fun x => ?_, hr.freed, hlast, hoff⟩
  · show m.lruCount = c.lruCount - 1 + 1
    have hpos : 0 < lruLength := by decide
    rw [hr.count]
    omega
  · show m.live x = true ↔ x ∈ id :: c.lru.dropLast
    rw [hr.live x, mem_cons]
    conv_lhs => rw [← hlru]
    rw [mem_append, mem_singleton, or_comm]

/-- `add_cache` does to the memory what it does to the abstract cache. -/
theorem Represents.addCache (hr : Represents m c) (hc : c.Holds h) (blknr blklocal : Nat) :
    ∃ m', m.addCache blknr blklocal = some m' ∧ Represents m' (c.addCache blknr blklocal) := by
  unfold BlockCache.addCache CacheMem.addCache
  split
  · next hroom =>
    obtain ⟨m', htake, hs⟩ := hr.takeNew hc hroom
    rw [htake]
    exact hs.linkNode blknr blklocal
  · next hfull =>
    obtain ⟨m', htake, hs⟩ := hr.recycle hc hfull
    rw [htake]
    exact hs.linkNode blknr blklocal

/-- So does any sequence of insertions. -/
theorem Represents.addAll {l : List (Nat × Nat)} (hr : Represents m c)
    (hc : c.Holds ((l.take lruLength).map nodeOf)) (adds : List (Nat × Nat)) :
    ∃ m', m.addAll adds = some m' ∧ Represents m' (c.addAll adds) := by
  induction adds generalizing m c l with
  | nil => exact ⟨m, rfl, hr⟩
  | cons a adds ih =>
    obtain ⟨m', hadd, hr'⟩ := hr.addCache hc a.1 a.2
    have hc' := holds_addAll hc [a]
    obtain ⟨m'', hall, hr''⟩ := ih hr' hc'
    refine ⟨m'', ?_, hr''⟩
    show (m.addCache a.1 a.2 >>= fun m => m.addAll adds) = some m''
    rw [hadd]
    exact hall

/-! ## The walk -/

/-- What is left to free: the nodes of the list, which are hashed, and alive,
    and the only ones. -/
structure Left (m : CacheMem) (ids : List Nat) (L : Nat → List Nat) : Prop where
  ring : Ring m.lru .head (ids.map .node)
  table : Table m.table L
  hashed : ∀ id, id ∈ ids ↔ ∃ k, id ∈ L k
  live : ∀ id ∈ ids, m.live id = true

variable {ids : List Nat} {L : Nat → List Nat}

/-- Where the walk is: at the first node that is left, or at the head. -/
def cellOf : List Nat → LruCell
  | [] => .head
  | id :: _ => .node id

theorem head_map (ids : List Nat) : (ids.map LruCell.node).head?.getD .head = cellOf ids := by
  cases ids <;> rfl

theorem Left.next_head (hl : Left m ids L) : m.lru.next .head = .ref (cellOf ids) := by
  rw [hl.ring.next_head, head_map]

/-- One round frees the first node. -/
theorem Left.freeNode (hl : Left m (id :: ids) L) :
    ∃ m', m.freeNode id = some (m', .ref (cellOf ids))
      ∧ Left m' ids (fun k => (L k).filter (· ≠ id))
      ∧ m'.freed = m.freed ++ [id] := by
  have hring : Ring m.lru .head (.node id :: ids.map .node) := hl.ring
  have hid : id ∉ ids := by
    have hnodup := (nodup_cons.mp (nodup_cons.mp hring.nodup).2).1
    exact fun hmem => hnodup (mem_map_of_mem hmem)
  -- the node and the cell behind it name each other
  have hnext := hring.next_first
  rw [head_map] at hnext
  obtain ⟨k, hk⟩ := (hl.hashed id).mp (.head _)
  obtain ⟨table, hunhash, htable⟩ := hl.table.del hk
  have hfirst : Ring m.lru .head ([] ++ .node id :: ids.map .node) := hring
  obtain ⟨lru, hdel, hring'⟩ := hfirst.del
  rw [CacheMem.freeNode, if_pos (hl.live id (.head _)), hnext.1]
  simp only [hunhash, hnext.2, hdel, Option.bind_eq_bind, Option.bind_some]
  refine ⟨_, rfl, ⟨hring', htable, fun x => ?_, fun x hx => ?_⟩, rfl⟩
  · have hashed := hl.hashed x
    simp only [mem_filter, decide_eq_true_eq, exists_and_right, ← hashed, mem_cons]
    constructor
    · intro hx
      exact ⟨.inr hx, fun he => hid (he ▸ hx)⟩
    · rintro ⟨hx | hx, hne⟩
      · exact absurd hx hne
      · exact hx
  · have hne : x ≠ id := fun he => hid (he ▸ hx)
    show update m.live id false x = true
    rw [update_of_ne hne]
    exact hl.live x (.tail _ hx)

/-- With a round for each node that is left and one more, they are freed in
    order, and the list head is taken for a node. -/
theorem Left.run (hl : Left m ids L) (rounds : Nat) :
    (rounds ≤ ids.length ∧ ∃ m', freeLoop rounds m (.ref (cellOf ids)) = .running m')
    ∨ (ids.length < rounds ∧ ∃ m' L', freeLoop rounds m (.ref (cellOf ids)) = .headAsNode m'
        ∧ Left m' [] L' ∧ m'.freed = m.freed ++ ids) := by
  induction rounds generalizing m ids L with
  | zero =>
    left
    exact ⟨Nat.zero_le _, m, by cases ids <;> rfl⟩
  | succ rounds ih =>
    cases ids with
    | nil =>
      right
      exact ⟨Nat.zero_lt_succ _, m, L, rfl, hl, (append_nil _).symm⟩
    | cons id ids =>
      obtain ⟨m', hfree, hl', hfreed⟩ := hl.freeNode
      have hround : freeLoop (rounds + 1) m (.ref (.node id))
          = freeLoop rounds m' (.ref (cellOf ids)) := by
        rw [freeLoop, hfree]
      rw [show cellOf (id :: ids) = .node id from rfl, hround]
      rcases ih hl' with ⟨hle, hrun⟩ | ⟨hlt, m'', L', hrun, hl'', hf⟩
      · exact .inl ⟨Nat.succ_le_succ hle, hrun⟩
      · refine .inr ⟨Nat.succ_lt_succ hlt, m'', L', hrun, hl'', ?_⟩
        rw [hf, hfreed, append_assoc]
        rfl

/-- A cache in memory has all its nodes left. -/
theorem Represents.left (hr : Represents m c) (hc : c.Holds h) : Left m c.lru c.bucket where
  ring := hr.ring
  table := hr.table
  hashed id := by
    rw [hc.alive id]
    constructor
    · intro hid
      exact ⟨_, (hc.mem_bucket id _).mpr ⟨hid, rfl⟩⟩
    · rintro ⟨k, hk⟩
      exact ((hc.mem_bucket id k).mp hk).1
  live id hid := (hr.live id).mpr hid

/-- Nothing is left when the walk has freed the nodes. -/
theorem Left.emptied {m' : CacheMem} {L' : Nat → List Nat} (hr : Represents m c) (hc : c.Holds h)
    (hl : Left m' [] L') (hfreed : m'.freed = m.freed ++ c.lru) : Emptied m m' where
  once id := by
    rw [hfreed, hr.freed, nil_append]
    by_cases hid : id ∈ c.lru
    · rw [if_pos ((hr.live id).mpr hid), count_eq_one_of_mem hc.nodup hid]
    · rw [if_neg fun hlive => hid ((hr.live id).mp hlive), count_eq_zero_of_not_mem hid]
  unhashed k := by
    have hnone : L' k = [] := by
      rw [eq_nil_iff_forall_not_mem]
      intro id hid
      exact nomatch (hl.hashed id).mpr ⟨k, hid⟩
    have hchain := hl.table.chain k
    rw [hnone] at hchain
    exact hchain
  unlinked := hl.ring.linked_self

/-- The walk never comes to a null pointer. -/
theorem Left.not_empties (hl : Left m ids L) : ¬ Empties m := by
  rintro ⟨rounds, m', hrun, -⟩
  rw [freeCache, hl.next_head] at hrun
  rcases hl.run rounds with ⟨-, _, hrun'⟩ | ⟨-, _, _, hrun', -⟩
  · cases hrun'.symm.trans hrun
  · cases hrun'.symm.trans hrun

/-! ## The results -/

/-- The memory after any sequence of insertions. -/
theorem addAll_represents (adds : List (Nat × Nat)) :
    ∃ m, initMem.addAll adds = some m ∧ Represents m (initCache.addAll adds) := by
  refine initMem_represents.addAll (l := []) ?_ adds
  rw [take_nil]
  exact initCache_holds

/-- What `free_cache` does after any sequence of insertions: with a round for each node it
    is still running; the next round takes the list head for a node, when every node was
    freed once and the buckets and the list are empty. -/
theorem freeCache_course (adds : List (Nat × Nat)) : ∃ m, initMem.addAll adds = some m ∧ ∀ rounds,
      (rounds ≤ (initCache.addAll adds).lru.length ∧ ∃ m', freeCache rounds m = .running m')
      ∨ ((initCache.addAll adds).lru.length < rounds
        ∧ ∃ m', freeCache rounds m = .headAsNode m' ∧ Emptied m m') := by
  obtain ⟨m, hm, hr⟩ := addAll_represents adds
  have hc := addAll_holds adds
  have hl := hr.left hc
  refine ⟨m, hm, fun rounds => ?_⟩
  rw [freeCache, hl.next_head]
  refine (hl.run rounds).imp_right ?_
  rintro ⟨hlt, m', L', hrun, hl', hfreed⟩
  exact ⟨hlt, m', hrun, hl'.emptied hr hc hfreed⟩

/-- `free_cache` empties no cache that insertions can build: it does not come to
    an end before the list head is taken for a node. -/
theorem freeCache_never_empties (adds : List (Nat × Nat)) :
    ∃ m, initMem.addAll adds = some m ∧ ¬ Empties m := by
  obtain ⟨m, hm, hr⟩ := addAll_represents adds
  exact ⟨m, hm, (hr.left (addAll_holds adds)).not_empties⟩

/-- With no node at all, the first round takes the list head for one. -/
theorem freeCache_empty_fails : initMem.addAll [] = some initMem
      ∧ freeCache 1 initMem = .headAsNode initMem ∧ ¬ Empties initMem :=
  ⟨rfl, rfl, (initMem_represents.left initCache_holds).not_empties⟩

end LoopFreeCache
