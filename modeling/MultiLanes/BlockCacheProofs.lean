import Mathlib.Data.List.Basic
import Mathlib.Logic.Function.Basic

/-! # The block mapping cache

The cache of a loop device is a hash table of nodes, each naming a logical block and the
physical block it is mapped to, and an LRU list of the same nodes.  `add_cache` takes a
new node until `LRU_LENGTH` of them exist and recycles the last one of the list from
then on; the key is not looked up first, so a block may have several nodes.

Nodes are known by their address, as in the source: recycling one overwrites its two
fields wherever it is linked.  The list length is carried by the structure, so that a
full cache has a node to recycle. -/

namespace LoopCache

open Function

/-- `LRU_LENGTH`. -/
def lruLength : Nat := 1000 * 1024

/-- `CACHE_COUNT`. -/
def cacheCount : Nat := 40000

/-- `struct block_cache_node` without its links. -/
structure CacheNode where
  bBlocknr : Nat
  blkLocal : Nat
deriving DecidableEq, Repr

/-- The cache fields of `struct loop_device`: the nodes by address, the buckets
    and the LRU list (head first), and the next address of `kmalloc`. -/
structure BlockCache where
  node : Nat → CacheNode
  bucket : Nat → List Nat
  lru : List Nat
  lruCount : Nat
  next : Nat
  count_eq : lruCount = lru.length

/-- `cache_hash_func`. -/
def cacheHashFunc (nr : Nat) : Nat := nr % cacheCount

/-- `init_cache` and the initialisation of the LRU list in `loop_set_fd`. -/
def initCache : BlockCache where
  node := fun _ => ⟨0, 0⟩
  bucket := fun _ => []
  lru := []
  lruCount := 0
  next := 0
  count_eq := rfl

/-- The last part of `add_cache`: fill in a node that is on no list, hash it and
    put it at the head of the LRU list. -/
def BlockCache.link (c : BlockCache) (id blknr blklocal : Nat) : BlockCache where
  node := update c.node id ⟨blknr, blklocal⟩
  bucket := update c.bucket (cacheHashFunc blklocal)
    (id :: c.bucket (cacheHashFunc blklocal))
  lru := id :: c.lru
  lruCount := c.lruCount + 1
  next := c.next
  count_eq := by rw [c.count_eq, List.length_cons]

/-- `list_del` of the last node of the LRU list and `hlist_del` of it. -/
def BlockCache.unlinkLast (c : BlockCache) (h : c.lru ≠ []) : BlockCache where
  node := c.node
  bucket := fun k => (c.bucket k).filter (fun id => id ≠ c.lru.getLast h)
  lru := c.lru.dropLast
  lruCount := c.lruCount - 1
  next := c.next
  count_eq := by rw [c.count_eq, List.length_dropLast]

variable {c : BlockCache}

theorem BlockCache.lru_ne_nil (h : ¬ c.lruCount < lruLength) : c.lru ≠ [] := by
  intro hnil
  apply h
  rw [c.count_eq, hnil]
  decide

/-- `add_cache`.  The counter is only ever incremented for a new node: a
    recycled one leaves and enters the list. -/
def BlockCache.addCache (c : BlockCache) (blknr blklocal : Nat) : BlockCache :=
  if h : c.lruCount < lruLength then
    { c with next := c.next + 1 }.link c.next blknr blklocal
  else
    (c.unlinkLast (BlockCache.lru_ne_nil h)).link
      (c.lru.getLast (BlockCache.lru_ne_nil h)) blknr blklocal

/-- `find_cache_node`: the first node of the bucket with the key. -/
def BlockCache.findCacheNode (c : BlockCache) (nr : Nat) : Option CacheNode :=
  ((c.bucket (cacheHashFunc nr)).map c.node).find? (fun n => n.blkLocal = nr)

/-- `block_cache_lookup`. -/
def BlockCache.blockCacheLookup (c : BlockCache) (blk : Nat) : Nat :=
  match c.findCacheNode blk with
  | some n => n.bBlocknr
  | none => 0

/-! ## What the cache holds is true -/

/-- Every node in a bucket names a pair of the relation. -/
def BlockCache.Agrees (m : Nat → Nat → Prop) (c : BlockCache) : Prop :=
  ∀ k, ∀ id ∈ c.bucket k, m (c.node id).blkLocal (c.node id).bBlocknr

theorem initCache_agrees (m : Nat → Nat → Prop) : initCache.Agrees m :=
  nofun

variable {m : Nat → Nat → Prop}

theorem BlockCache.Agrees.mono {m' : Nat → Nat → Prop}
    (h : c.Agrees m) (hm : ∀ b p, m b p → m' b p) : c.Agrees m' :=
  fun k id hid => hm _ _ (h k id hid)

theorem BlockCache.Agrees.link
    (h : c.Agrees m) {blknr blklocal : Nat} (hb : m blklocal blknr) (id : Nat) :
    (c.link id blknr blklocal).Agrees m := by
  intro k x hx
  show m (update c.node id ⟨blknr, blklocal⟩ x).blkLocal
    (update c.node id ⟨blknr, blklocal⟩ x).bBlocknr
  by_cases hid : x = id
  · rw [hid, update_self]
    exact hb
  · -- any other node was in the bucket before
    rw [update_of_ne hid]
    have hold : x ∈ c.bucket k := by
      have hx' : x ∈ update c.bucket (cacheHashFunc blklocal)
        (id :: c.bucket (cacheHashFunc blklocal)) k := hx
      by_cases hk : k = cacheHashFunc blklocal
      · rw [hk, update_self] at hx'
        rw [hk]
        exact (List.mem_cons.mp hx').resolve_left hid
      · rwa [update_of_ne hk] at hx'
    exact h k x hold

theorem BlockCache.Agrees.unlinkLast
    (h : c.Agrees m) (hne : c.lru ≠ []) : (c.unlinkLast hne).Agrees m :=
  fun k id hid => h k id (List.mem_of_mem_filter hid)

/-- Inserting a true pair, with or without recycling a node, keeps the cache true. -/
theorem BlockCache.Agrees.addCache (h : c.Agrees m) {blknr blklocal : Nat} (hb : m blklocal blknr) :
    (c.addCache blknr blklocal).Agrees m := by
  unfold BlockCache.addCache
  split
  · exact BlockCache.Agrees.link (c := { c with next := c.next + 1 }) h hb _
  · exact (h.unlinkLast _).link hb _

/-- What is found in a true cache is true. -/
theorem BlockCache.Agrees.find (h : c.Agrees m) {nr : Nat} {n : CacheNode}
    (hf : c.findCacheNode nr = some n) : m nr n.bBlocknr := by
  have hkey : n.blkLocal = nr := by
    simpa using List.find?_some hf
  obtain ⟨id, hid, rfl⟩ := List.mem_map.mp (List.mem_of_find?_eq_some hf)
  rw [← hkey]
  exact h _ id hid

/-- A lookup answers 0 or a true block. -/
theorem BlockCache.Agrees.lookup (h : c.Agrees m) (blk : Nat) :
    c.blockCacheLookup blk = 0 ∨ m blk (c.blockCacheLookup blk) := by
  unfold BlockCache.blockCacheLookup
  split
  · rename_i n hn
    exact .inr (h.find hn)
  · exact .inl rfl

end LoopCache
