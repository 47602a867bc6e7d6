import MultiLanes.BlockCacheProofs
import Mathlib.Data.List.Nodup

/-! # The block mapping cache is a bounded history

The hash table and the LRU list are two views of one set of nodes, and `add_cache`
changes them in step: a node enters both at the head, and the node that is recycled is
the last of the list and the last of its bucket. So the cache is nothing but the list of
the last `LRU_LENGTH` insertions, the youngest first, and each bucket is that list cut
down to its keys.

`Holds` says so of one cache, `Holds.addCache` of one insertion, and `holds_addAll` of
any sequence of them.  A block may occur in the list more than once; `find_cache_node`
then answers its youngest node. -/

namespace LoopCache

open Function List

/-- A sequence of `add_cache` calls, as pairs of a physical and a logical block. -/
def BlockCache.addAll (c : BlockCache) (adds : List (Nat × Nat)) : BlockCache :=
  adds.foldl (fun c a => c.addCache a.1 a.2) c

/-- The node that an insertion makes. -/
def nodeOf (a : Nat × Nat) : CacheNode := ⟨a.1, a.2⟩

/-- The last `LRU_LENGTH` insertions, the youngest first. -/
def recent (adds : List (Nat × Nat)) : List (Nat × Nat) :=
  adds.reverse.take lruLength

/-- The cache is the list `h` of nodes: the LRU list is `h`, node by node, every
    node that was ever allocated is on it, and a bucket holds the nodes of the
    list with its keys, in the same order. -/
structure BlockCache.Holds (c : BlockCache) (h : List CacheNode) : Prop where
  nodes : c.lru.map c.node = h
  nodup : c.lru.Nodup
  alive : ∀ id, id ∈ c.lru ↔ id < c.next
  hashed : ∀ k, c.bucket k = c.lru.filter (fun id => cacheHashFunc (c.node id).blkLocal = k)

theorem initCache_holds : initCache.Holds [] where
  nodes := rfl
  nodup := nodup_nil
  alive := by
    intro id
    show id ∈ [] ↔ id < 0
    simp
  hashed := fun _ => rfl

/-! ## One insertion -/

section Insertion

variable {c : BlockCache} {h : List CacheNode}

theorem BlockCache.Holds.count (hc : c.Holds h) : c.lruCount = h.length := by
  rw [c.count_eq, ← hc.nodes, length_map]

/-- The nodes of the list keep their fields when another one is filled in. -/
theorem node_update_of_notMem {l : List Nat} {id : Nat} (hid : id ∉ l)
    (n : CacheNode) : ∀ x ∈ l, update c.node id n x = c.node x := by
  intro x hx
  apply update_of_ne
  rintro rfl
  exact hid hx

/-- A node on no list is filled in, hashed and put at the head of the list. -/
theorem BlockCache.Holds.link {id : Nat} (hnodes : c.lru.map c.node = h) (hnodup : c.lru.Nodup)
    (hid : id ∉ c.lru) (halive : ∀ x, x ∈ id :: c.lru ↔ x < c.next)
    (hhashed : ∀ k, c.bucket k = c.lru.filter (fun x => cacheHashFunc (c.node x).blkLocal = k))
    (blknr blklocal : Nat) :
    (c.link id blknr blklocal).Holds (⟨blknr, blklocal⟩ :: h) := by
  have hsame := node_update_of_notMem (c := c) hid ⟨blknr, blklocal⟩
  refine ⟨?_, nodup_cons.mpr ⟨hid, hnodup⟩, halive, ?_⟩
  · show update c.node id _ id :: c.lru.map (update c.node id _) = _
    rw [update_self, map_congr_left hsame, hnodes]
  · intro k
    show update c.bucket (cacheHashFunc blklocal) _ k = (id :: c.lru).filter (fun x => cacheHashFunc
          (update c.node id ⟨blknr, blklocal⟩ x).blkLocal = k)
    -- the nodes that were there are hashed as before
    have hrest : c.lru.filter (fun x => cacheHashFunc
        (update c.node id ⟨blknr, blklocal⟩ x).blkLocal = k)
        = c.bucket k := by
      rw [hhashed k]
      refine filter_congr fun x hx => ?_
      rw [hsame x hx]
    rw [filter_cons, hrest, update_self]
    by_cases hk : cacheHashFunc blklocal = k
    · subst hk
      rw [update_self, if_pos (decide_eq_true rfl)]
    · rw [update_of_ne (Ne.symm hk), if_neg]
      exact fun hd => hk (of_decide_eq_true hd)

/-- A new node is on no list. -/
theorem BlockCache.Holds.fresh (hc : c.Holds h) : c.next ∉ c.lru :=
  fun hmem => Nat.lt_irrefl _ ((hc.alive c.next).mp hmem)

/-- Neither is the last node of the list once it is unlinked. -/
theorem BlockCache.Holds.getLast_notMem (hc : c.Holds h) (hne : c.lru ≠ []) :
    c.lru.getLast hne ∉ c.lru.dropLast := by
  have hnodup := hc.nodup
  rw [← dropLast_append_getLast hne, nodup_append] at hnodup
  intro hmem
  exact hnodup.2.2 _ hmem _ (mem_singleton.mpr rfl) rfl

/-- Unlinking the last node of the list unlinks it from its bucket. -/
theorem BlockCache.Holds.bucket_unlinkLast (hc : c.Holds h) (hne : c.lru ≠ [])
    (k : Nat) : (c.unlinkLast hne).bucket k = c.lru.dropLast.filter
          (fun id => cacheHashFunc (c.node id).blkLocal = k) := by
  show (c.bucket k).filter (fun id => id ≠ c.lru.getLast hne) = _
  have hlast := hc.getLast_notMem hne
  -- the others are not the last one
  have hkeep : c.lru.filter (fun id => id ≠ c.lru.getLast hne) = c.lru.dropLast := by
    generalize hx : c.lru.getLast hne = x at hlast
    have hsplit : c.lru.dropLast ++ [x] = c.lru := by
      rw [← hx]
      exact dropLast_append_getLast hne
    have hothers : ∀ id ∈ c.lru.dropLast, decide (id ≠ x) = true := by
      intro id hid
      apply decide_eq_true
      rintro rfl
      exact hlast hid
    calc c.lru.filter (fun id => id ≠ x)
        = (c.lru.dropLast ++ [x]).filter (fun id => id ≠ x) := by rw [hsplit]
      _ = c.lru.dropLast := by
          rw [filter_append, filter_eq_self.mpr hothers]
          simp
  rw [hc.hashed k, filter_filter, ← hkeep, filter_filter]
  refine filter_congr fun x _ => Bool.and_comm _ _

/-- An insertion into a cache with room takes a new node; into a full one, the oldest. -/
theorem BlockCache.Holds.addCache (hc : c.Holds h) (hle : h.length ≤ lruLength)
    (blknr blklocal : Nat) :
    (c.addCache blknr blklocal).Holds ((⟨blknr, blklocal⟩ :: h).take lruLength) := by
  unfold BlockCache.addCache
  split
  · rename_i hroom
    rw [hc.count] at hroom
    rw [take_of_length_le (by rw [length_cons]; omega)]
    refine BlockCache.Holds.link (c := { c with next := c.next + 1 })
      hc.nodes hc.nodup hc.fresh ?_ hc.hashed blknr blklocal
    intro x
    show x ∈ c.next :: c.lru ↔ x < c.next + 1
    rw [mem_cons, hc.alive x]
    omega
  · rename_i hfull
    have hne := BlockCache.lru_ne_nil hfull
    rw [hc.count] at hfull
    -- exactly the oldest entry is cut off
    have htake : (⟨blknr, blklocal⟩ :: h).take lruLength = ⟨blknr, blklocal⟩ :: h.dropLast := by
      obtain ⟨m, hm⟩ : ∃ m, lruLength = m + 1 := ⟨lruLength - 1, rfl⟩
      rw [hm, take_succ_cons, dropLast_eq_take]
      congr 2
      omega
    rw [htake]
    refine BlockCache.Holds.link (c := c.unlinkLast hne) ?_
      (hc.nodup.sublist (dropLast_sublist _)) (hc.getLast_notMem hne) ?_
      (hc.bucket_unlinkLast hne) blknr blklocal
    · show c.lru.dropLast.map c.node = h.dropLast
      rw [← hc.nodes, map_dropLast]
    · intro x
      show x ∈ c.lru.getLast hne :: c.lru.dropLast ↔ x < c.next
      rw [← hc.alive x, mem_cons]
      conv_rhs => rw [← dropLast_append_getLast hne]
      rw [mem_append, mem_singleton, or_comm]

end Insertion

/-! ## Any sequence of insertions -/

/-- The window of the youngest entries moves on by one. -/
theorem take_cons_take {α : Type} (n : Nat) (x : α) (l : List α) :
    (x :: l.take n).take n = (x :: l).take n := by
  cases n with
  | zero => rfl
  | succ n => rw [take_succ_cons, take_succ_cons, take_take,
      Nat.min_eq_left (Nat.le_succ n)]

theorem holds_addAll {c : BlockCache} {l : List (Nat × Nat)}
    (hc : c.Holds ((l.take lruLength).map nodeOf)) (adds : List (Nat × Nat)) :
    (c.addAll adds).Holds (((adds.reverse ++ l).take lruLength).map nodeOf) := by
  induction adds generalizing c l with
  | nil => exact hc
  | cons a adds ih =>
    have hle : ((l.take lruLength).map nodeOf).length ≤ lruLength := by
      rw [length_map]
      exact length_take_le ..
    have hstep := hc.addCache hle a.1 a.2
    rw [show (⟨a.1, a.2⟩ : CacheNode) = nodeOf a from rfl, ← map_cons,
      ← map_take, take_cons_take] at hstep
    have hrest := ih hstep
    rw [reverse_cons, append_assoc]
    exact hrest

/-- A cache that was filled from its initialisation on is the list of the last insertions. -/
theorem addAll_holds (adds : List (Nat × Nat)) :
    (initCache.addAll adds).Holds ((recent adds).map nodeOf) := by
  have h := holds_addAll (l := []) (by rw [take_nil]; exact initCache_holds) adds
  rwa [append_nil] at h

/-! ## What is found -/

section Lookup

variable {c : BlockCache} {h : List CacheNode}

/-- Looking into one bucket is looking through the whole list. -/
theorem BlockCache.Holds.find (hc : c.Holds h) (nr : Nat) :
    c.findCacheNode nr = h.find? (fun n => n.blkLocal = nr) := by
  unfold BlockCache.findCacheNode
  rw [hc.hashed, find?_map, find?_filter, ← hc.nodes, find?_map]
  congr 2
  funext id
  -- a node with the key is in the bucket of the key
  by_cases hk : (c.node id).blkLocal = nr
  · simp [hk]
  · simp [hk]

/-- A node is in the bucket of its key and in no other. -/
theorem BlockCache.Holds.mem_bucket (hc : c.Holds h) (id k : Nat) :
    id ∈ c.bucket k ↔ id < c.next ∧ k = cacheHashFunc (c.node id).blkLocal := by
  rw [hc.hashed, mem_filter, hc.alive, decide_eq_true_eq]
  exact and_congr_right fun _ => eq_comm

end Lookup

/-- The cache after any sequence of insertions: every node is on the LRU list
    once and in the bucket of its key once, and in no other; the count is that
    of the insertions, up to `LRU_LENGTH`; and a block is found as the youngest
    of the last `LRU_LENGTH` insertions mapped it. -/
theorem cache_is_bounded_history (adds : List (Nat × Nat)) : (∀ id < (initCache.addAll adds).next,
        (initCache.addAll adds).lru.count id = 1
        ∧ ∀ k, ((initCache.addAll adds).bucket k).count id
          = if k = ((initCache.addAll adds).node id).blkLocal % cacheCount then 1 else 0)
    ∧ (initCache.addAll adds).lruCount = min adds.length lruLength
    ∧ (initCache.addAll adds).lru.length = (initCache.addAll adds).next
    ∧ ∀ nr, ((initCache.addAll adds).findCacheNode nr).map (·.bBlocknr)
        = ((recent adds).find? (fun a => a.2 = nr)).map (·.1) := by
  have hc := addAll_holds adds
  generalize initCache.addAll adds = c at hc
  refine ⟨?_, ?_, ?_, ?_⟩
  · intro id hid
    refine ⟨count_eq_one_of_mem hc.nodup ((hc.alive id).mpr hid), ?_⟩
    intro k
    have hbucket : (c.bucket k).Nodup := by
      rw [hc.hashed k]
      exact hc.nodup.filter _
    split
    · rename_i hk
      exact count_eq_one_of_mem hbucket ((hc.mem_bucket id k).mpr ⟨hid, hk⟩)
    · rename_i hk
      exact count_eq_zero_of_not_mem fun hmem => hk ((hc.mem_bucket id k).mp hmem).2
  · rw [hc.count, length_map, recent, length_take,
      length_reverse, Nat.min_comm]
  · -- the list is a permutation of the addresses below `next`
    have hperm : c.lru.Perm (range c.next) := by
      rw [List.perm_ext_iff_of_nodup hc.nodup List.nodup_range]
      intro id
      rw [hc.alive id, mem_range]
    rw [hperm.length_eq, length_range]
  · intro nr
    rw [hc.find nr, find?_map, Option.map_map]
    rfl

end LoopCache
