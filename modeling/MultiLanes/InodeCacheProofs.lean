import MultiLanes.KeyedTableProofs

/-! # The partitioned inode and dentry caches

A superblock on a loop device has hash tables of its own for its inodes and its
dentries; all others share the global ones.  Which one it is, is read from the
superblock each time: when an object is hashed, and when it is looked for.  `mount_fs`
makes new tables for a superblock that is mounted from a loop device, AFTER the file
system has been filled, and once more for each further mount of it.

`Vfs` has the superblocks and the tables; a history is a list of `Op`, in which a mount
carries what the file system does meanwhile.  What is hashed is found again, and keys
are unique, exactly when no mount gives new tables to a superblock that has something
hashed (`finds_iff_clean`). -/

namespace InodeCache

open KeyedTable

/-- What an inode is found by. -/
structure InodeKey where
  sb : Nat
  ino : Nat
deriving DecidableEq, Repr

/-- What a dentry is found by; the superblock is that of its parent. -/
structure DentryKey where
  sb : Nat
  parent : Nat
  name : String
deriving DecidableEq, Repr

/-- The fields of `struct super_block` that choose a table. -/
structure SuperBlock where
  isloop : Bool
  dentryHashtable : Nat
  inodeHashtable : Nat
deriving DecidableEq, Repr

/-- The superblocks, the hash lists, and the next table and the next object that
    are allocated; table 0 is the global one. -/
structure Vfs where
  sb : Nat → SuperBlock
  inodes : Tables InodeKey
  dentries : Tables DentryKey
  nextTable : Nat
  nextAddr : Nat

/-- The hash functions of `inode.c` and `dcache.c`: the bucket of a key. -/
structure Hashes where
  hash : InodeKey → Nat
  dHash : DentryKey → Nat

variable (H : Hashes)

/-! ## `inode.c` and `dcache.c` -/

def groupfsGetIhtable (s : SuperBlock) : Nat :=
  if s.isloop then s.inodeHashtable else 0

/-- The table that `d_hash` takes. -/
def dentryTable (s : SuperBlock) : Nat :=
  if s.isloop then s.dentryHashtable else 0

/-- `groupfs_get_ihtable(sb) + hash(sb, ino)`. -/
def Vfs.inodeHead (v : Vfs) : Layout InodeKey :=
  fun k => (groupfsGetIhtable (v.sb k.sb), H.hash k)

/-- `d_hash`. -/
def Vfs.dHash (v : Vfs) : Layout DentryKey :=
  fun k => (dentryTable (v.sb k.sb), H.dHash k)

def Vfs.findInodeFast (v : Vfs) (k : InodeKey) : Option (Entry InodeKey) :=
  find v.inodes (v.inodeHead H k) k

/-- A new inode at the head of its list. -/
def Vfs.hashNew (v : Vfs) (k : InodeKey) : Vfs :=
  { v with
    inodes := add v.inodes (v.inodeHead H k) ⟨v.nextAddr, k⟩
    nextAddr := v.nextAddr + 1 }

/-- `iget_locked`: the inode that is found, or a new one. -/
def Vfs.igetLocked (v : Vfs) (k : InodeKey) : Entry InodeKey × Vfs :=
  match v.findInodeFast H k with
  | some x => (x, v)
  | none => (⟨v.nextAddr, k⟩, v.hashNew H k)

/-- `-EBUSY`. -/
def ebusy : Int := -16

/-- `insert_inode_locked` of an inode that the file system has made. -/
def Vfs.insertInodeLocked (v : Vfs) (k : InodeKey) : Int × Vfs :=
  match v.findInodeFast H k with
  | some _ => (ebusy, v)
  | none => (0, v.hashNew H k)

/-- `remove_inode_hash`, which goes by the inode's own links. -/
def Vfs.removeInodeHash (v : Vfs) (addr : Nat) : Vfs :=
  { v with inodes := del v.inodes addr }

def Vfs.dLookup (v : Vfs) (k : DentryKey) : Option (Entry DentryKey) :=
  find v.dentries (v.dHash H k) k

/-- A name is looked up, and a dentry hashed for it when there is none. -/
def Vfs.dAdd (v : Vfs) (k : DentryKey) : Vfs :=
  match v.dLookup H k with
  | some _ => v
  | none =>
    { v with
      dentries := add v.dentries (v.dHash H k) ⟨v.nextAddr, k⟩
      nextAddr := v.nextAddr + 1 }

def Vfs.dDrop (v : Vfs) (addr : Nat) : Vfs :=
  { v with dentries := del v.dentries addr }

/-- The caches in use. -/
inductive CacheOp where
  | igetLocked (k : InodeKey)
  | insertInodeLocked (k : InodeKey)
  | removeInodeHash (addr : Nat)
  | dAdd (k : DentryKey)
  | dDrop (addr : Nat)

def Vfs.cache (v : Vfs) : CacheOp → Vfs
  | .igetLocked k => (v.igetLocked H k).2
  | .insertInodeLocked k => (v.insertInodeLocked H k).2
  | .removeInodeHash addr => v.removeInodeHash addr
  | .dAdd k => v.dAdd H k
  | .dDrop addr => v.dDrop addr

/-! ## `mount_fs` -/

/-- `name != NULL && !strncmp(name, "/dev/loop", 9)`. -/
def loopName (name : Option String) : Bool :=
  match name with
  | none => false
  | some n => n.toList.take 9 = "/dev/loop".toList

/-- `groupfs_dentry_hashtable()` and `groupfs_inode_hashtable()`, and the tag of
    the superblock. -/
def Vfs.tag (v : Vfs) (sb : Nat) : Vfs :=
  { v with
    sb := fun s => if s = sb then ⟨true, v.nextTable, v.nextTable⟩ else v.sb s
    nextTable := v.nextTable + 1 }

/-- `mount_fs`: the file system does `fill` in `type->mount`, which yields a
    root of `sb` or an error. -/
def Vfs.mountFs (v : Vfs) (sb : Nat) (name : Option String)
    (fill : List CacheOp) (mounted : Bool) : Vfs :=
  let v' := fill.foldl (Vfs.cache H) v
  if mounted && loopName name then v'.tag sb else v'

/-- One event of a history. -/
inductive Op where
  | cache (op : CacheOp)
  | mountFs (sb : Nat) (name : Option String) (fill : List CacheOp) (mounted : Bool)

def Vfs.op (v : Vfs) : Op → Vfs
  | .cache op => v.cache H op
  | .mountFs sb name fill mounted => v.mountFs H sb name fill mounted

/-- A history. -/
def Vfs.history (v : Vfs) (ops : List Op) : Vfs := ops.foldl (Vfs.op H) v

/-- Nothing is mounted, and nothing is hashed. -/
def booted : Vfs where
  sb _ := ⟨false, 0, 0⟩
  inodes _ _ := []
  dentries _ _ := []
  nextTable := 1
  nextAddr := 0

/-! ## What the caches are for -/

/-- What is hashed is found: `iget_locked` returns the inode of its key, which
    is the only one, and `d_hash` leads to the dentry. -/
structure Finds (v : Vfs) : Prop where
  iget : ∀ x, Hashed v.inodes x → (v.igetLocked H x.key).1 = x
  unique : ∀ x y, Hashed v.inodes x → Hashed v.inodes y → x.key = y.key → x = y
  dentry : ∀ x, Hashed v.dentries x → v.dLookup H x.key = some x

/-- A superblock with nothing hashed. -/
def Idle (v : Vfs) (sb : Nat) : Prop :=
  (∀ x, Hashed v.inodes x → x.key.sb ≠ sb) ∧ ∀ x, Hashed v.dentries x → x.key.sb ≠ sb

/-- New tables are given only to superblocks that have nothing hashed. -/
def Clean : List Op → Vfs → Prop
  | [], _ => True
  | .cache op :: ops, v => Clean ops (v.cache H op)
  | .mountFs sb name fill mounted :: ops, v =>
    (mounted = true → loopName name = true → Idle (fill.foldl (Vfs.cache H) v) sb)
    ∧ Clean ops (v.mountFs H sb name fill mounted)

/-! ## What every history keeps -/

/-- The tables and addresses that are not allocated are not in use. -/
structure Fresh (v : Vfs) : Prop where
  inode : ∀ {t b x}, x ∈ v.inodes t b → t < v.nextTable ∧ x.addr < v.nextAddr
  dentry : ∀ {t b x}, x ∈ v.dentries t b → t < v.nextTable
  inodeTable : ∀ s, groupfsGetIhtable (v.sb s) < v.nextTable
  dentryTable : ∀ s, InodeCache.dentryTable (v.sb s) < v.nextTable

section Fresh

variable {H} {v : Vfs}

theorem booted_fresh : Fresh booted :=
  ⟨nofun, nofun, fun _ => Nat.zero_lt_one, fun _ => Nat.zero_lt_one⟩

theorem Fresh.hashNew (h : Fresh v) (k : InodeKey) : Fresh (v.hashNew H k) := by
  refine ⟨?_, h.dentry, h.inodeTable, h.dentryTable⟩
  intro t b x hx
  rcases mem_add.mp hx with ⟨rfl, rfl, -⟩ | hx
  · exact ⟨h.inodeTable _, Nat.lt_succ_self _⟩
  · obtain ⟨ht, hlt⟩ := h.inode hx
    exact ⟨ht, Nat.lt_succ_of_lt hlt⟩

theorem Fresh.cache (h : Fresh v) (op : CacheOp) : Fresh (v.cache H op) := by
  cases op with
  | igetLocked k =>
    simp only [Vfs.cache, Vfs.igetLocked]
    split
    · exact h
    · exact h.hashNew k
  | insertInodeLocked k =>
    simp only [Vfs.cache, Vfs.insertInodeLocked]
    split
    · exact h
    · exact h.hashNew k
  | removeInodeHash addr =>
    exact ⟨fun hx => h.inode (mem_del.mp hx).1, h.dentry, h.inodeTable, h.dentryTable⟩
  | dAdd k =>
    simp only [Vfs.cache, Vfs.dAdd]
    split
    · exact h
    · refine ⟨fun hx => ?_, fun hx => ?_, h.inodeTable, h.dentryTable⟩
      · obtain ⟨ht, hlt⟩ := h.inode hx
        exact ⟨ht, Nat.lt_succ_of_lt hlt⟩
      · rcases mem_add.mp hx with ⟨-, rfl, -⟩ | hx
        · exact h.dentryTable _
        · exact h.dentry hx
  | dDrop addr =>
    exact ⟨h.inode, fun hx => h.dentry (mem_del.mp hx).1, h.inodeTable, h.dentryTable⟩

theorem Fresh.fill (h : Fresh v) (fill : List CacheOp) : Fresh (fill.foldl (Vfs.cache H) v) := by
  induction fill generalizing v with
  | nil => exact h
  | cons op fill ih => exact ih (h.cache op)

theorem Fresh.tag (h : Fresh v) (sb : Nat) : Fresh (v.tag sb) := by
  refine ⟨fun hx => ?_, fun hx => Nat.lt_succ_of_lt (h.dentry hx), ?_, ?_⟩
  · obtain ⟨ht, hlt⟩ := h.inode hx
    exact ⟨Nat.lt_succ_of_lt ht, hlt⟩
  · intro s
    by_cases hs : s = sb
    · simp [Vfs.tag, hs, groupfsGetIhtable]
    · simp only [Vfs.tag, if_neg hs]
      exact Nat.lt_succ_of_lt (h.inodeTable s)
  · intro s
    by_cases hs : s = sb
    · simp [Vfs.tag, hs, InodeCache.dentryTable]
    · simp only [Vfs.tag, if_neg hs]
      exact Nat.lt_succ_of_lt (h.dentryTable s)

theorem Fresh.mountFs (h : Fresh v) (sb : Nat) (name : Option String)
    (fill : List CacheOp) (mounted : Bool) :
    Fresh (v.mountFs H sb name fill mounted) := by
  unfold Vfs.mountFs
  split
  · exact (h.fill fill).tag sb
  · exact h.fill fill

end Fresh

/-! ## Clean histories -/

/-- Everything is where the superblocks now say. -/
structure Ordered (v : Vfs) : Prop where
  inodes : Placed (v.inodeHead H) v.inodes
  dentries : Placed (v.dHash H) v.dentries

section Ordered

variable {H} {v : Vfs}

theorem booted_ordered : Ordered H booted :=
  ⟨⟨nofun, fun _ _ => List.nodup_nil⟩, ⟨nofun, fun _ _ => List.nodup_nil⟩⟩

section

variable (h : Ordered H v)
include h

theorem Ordered.finds : Finds H v where
  iget x hx := by
    have hfind : v.findInodeFast H x.key = some x := h.inodes.find hx
    simp only [Vfs.igetLocked, hfind]
  unique x y hx hy hkey := h.inodes.unique hx hy hkey
  dentry x hx := h.dentries.find hx

theorem Ordered.hashNew {k : InodeKey}
    (hnone : v.findInodeFast H k = none) : Ordered H (v.hashNew H k) :=
  ⟨h.inodes.add (x := ⟨v.nextAddr, k⟩) hnone, h.dentries⟩

theorem Ordered.cache (op : CacheOp) : Ordered H (v.cache H op) := by
  cases op with
  | igetLocked k =>
    simp only [Vfs.cache, Vfs.igetLocked]
    split
    · exact h
    · next hnone => exact h.hashNew hnone
  | insertInodeLocked k =>
    simp only [Vfs.cache, Vfs.insertInodeLocked]
    split
    · exact h
    · next hnone => exact h.hashNew hnone
  | removeInodeHash addr => exact ⟨h.inodes.del addr, h.dentries⟩
  | dAdd k =>
    simp only [Vfs.cache, Vfs.dAdd]
    split
    · exact h
    · next hnone =>
      exact ⟨h.inodes, h.dentries.add (x := ⟨v.nextAddr, k⟩) hnone⟩
  | dDrop addr => exact ⟨h.inodes, h.dentries.del addr⟩

theorem Ordered.fill (fill : List CacheOp) :
    Ordered H (fill.foldl (Vfs.cache H) v) := by
  induction fill generalizing v with
  | nil => exact h
  | cons op fill ih => exact ih (h.cache op)

/-- New tables for a superblock that has nothing hashed. -/
theorem Ordered.tag {sb : Nat} (hidle : Idle v sb) : Ordered H (v.tag sb) := by
  constructor
  · refine h.inodes.relayout fun x hx => ?_
    simp only [Vfs.inodeHead, Vfs.tag, if_neg (hidle.1 x hx)]
  · refine h.dentries.relayout fun x hx => ?_
    simp only [Vfs.dHash, Vfs.tag, if_neg (hidle.2 x hx)]

theorem Ordered.mountFs {sb : Nat} {name : Option String} {fill : List CacheOp} {mounted : Bool}
    (hidle : mounted = true → loopName name = true → Idle (fill.foldl (Vfs.cache H) v) sb) :
    Ordered H (v.mountFs H sb name fill mounted) := by
  unfold Vfs.mountFs
  split
  · next htag =>
    rw [Bool.and_eq_true] at htag
    exact (h.fill fill).tag (hidle htag.1 htag.2)
  · exact h.fill fill

theorem Ordered.history {ops : List Op}
    (hclean : Clean H ops v) : ∀ n, Ordered H (v.history H (ops.take n)) := by
  induction ops generalizing v with
  | nil =>
    intro n
    rw [List.take_nil]
    exact h
  | cons op ops ih =>
    intro n
    cases n with
    | zero => exact h
    | succ n =>
      cases op with
      | cache op => exact ih (h.cache op) hclean n
      | mountFs sb name fill mounted =>
        exact ih (h.mountFs hclean.1) hclean.2 n

end

end Ordered

/-! ## A mount that is not clean -/

section Lost

variable {H} {v : Vfs} {sb : Nat}

/-- An inode of the superblock is not in the new table. -/
theorem tag_loses_inode (h : Fresh v) {x : Entry InodeKey}
    (hx : Hashed v.inodes x) (hsb : x.key.sb = sb) :
    ¬ Finds H (v.tag sb) := by
  intro hfinds
  obtain ⟨t, b, hmem⟩ := hx
  have hnone : (v.tag sb).findInodeFast H x.key = none := by
    refine find_eq_none_iff.mpr fun y hy => ?_
    -- the table is new: nothing is on its lists
    have hlt := (h.inode hy).1
    simp [Vfs.inodeHead, Vfs.tag, hsb, groupfsGetIhtable] at hlt
  have hget := hfinds.iget x ⟨t, b, hmem⟩
  simp only [Vfs.igetLocked, hnone] at hget
  have haddr := (h.inode hmem).2
  rw [← hget] at haddr
  exact absurd haddr (Nat.lt_irrefl _)

theorem tag_loses_dentry (h : Fresh v) {x : Entry DentryKey}
    (hx : Hashed v.dentries x) (hsb : x.key.sb = sb) :
    ¬ Finds H (v.tag sb) := by
  intro hfinds
  have hnone : (v.tag sb).dLookup H x.key = none := by
    refine find_eq_none_iff.mpr fun y hy => ?_
    have hlt := h.dentry hy
    simp [Vfs.dHash, Vfs.tag, hsb, InodeCache.dentryTable] at hlt
  have hget := hfinds.dentry x hx
  rw [hnone] at hget
  cases hget

theorem Fresh.idle_of_finds (h : Fresh v) (hfinds : Finds H (v.tag sb)) : Idle v sb := by
  constructor
  · intro x hx hsb
    exact tag_loses_inode h hx hsb hfinds
  · intro x hx hsb
    exact tag_loses_dentry h hx hsb hfinds

theorem clean_of_finds {ops : List Op} (h : Fresh v)
    (hfinds : ∀ n, Finds H (v.history H (ops.take n))) : Clean H ops v := by
  induction ops generalizing v with
  | nil => trivial
  | cons op ops ih =>
    have hrest : ∀ n, Finds H ((v.op H op).history H (ops.take n)) :=
      fun n => hfinds (n + 1)
    cases op with
    | cache op => exact ih (h.cache op) hrest
    | mountFs sb name fill mounted =>
      refine ⟨?_, ih (h.mountFs sb name fill mounted) hrest⟩
      intro hm hname
      refine (h.fill fill).idle_of_finds (H := H) ?_
      have hfirst : Finds H (v.mountFs H sb name fill mounted) := hrest 0
      rw [Vfs.mountFs, hm, hname] at hfirst
      exact hfirst

end Lost

/-- For every history of mounts and uses of the caches, on any superblocks: what
    is hashed is found and unique at every moment, exactly when every mount of a
    loop device finds its superblock without hashed inodes and dentries. -/
theorem finds_iff_clean (ops : List Op) :
    (∀ n, Finds H (booted.history H (ops.take n))) ↔ Clean H ops booted :=
  ⟨clean_of_finds booted_fresh, fun hclean n => (booted_ordered.history hclean n).finds⟩

/-! ## The root inode of a loop mount -/

/-- Hash functions with eight buckets. -/
def eight : Hashes := ⟨fun k => (k.sb + k.ino) % 8, fun k => k.parent % 8⟩

/-- The file system hashes its root inode while it is mounted, and looks it up
    again afterwards. -/
def rootTwice : Vfs :=
  booted.history eight [.mountFs 1 (some "/dev/loop0") [.igetLocked ⟨1, 2⟩] true,
      .cache (.igetLocked ⟨1, 2⟩)]

/-- There are two live inodes 2 of one superblock. -/
theorem loop_mount_duplicates :
    Hashed rootTwice.inodes ⟨0, ⟨1, 2⟩⟩ ∧ Hashed rootTwice.inodes ⟨1, ⟨1, 2⟩⟩
      ∧ ¬ Finds eight rootTwice := by
  have h0 : Hashed rootTwice.inodes ⟨0, ⟨1, 2⟩⟩ := ⟨0, 3, by decide⟩
  have h1 : Hashed rootTwice.inodes ⟨1, ⟨1, 2⟩⟩ := ⟨1, 3, by decide⟩
  refine ⟨h0, h1, fun hfinds => ?_⟩
  exact absurd (hfinds.unique _ _ h0 h1 rfl) (by decide)

end InodeCache
