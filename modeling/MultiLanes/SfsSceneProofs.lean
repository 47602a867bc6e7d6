import MultiLanes.SfsEnvProofs
import MultiLanes.SfsNameiProofs
import Mathlib.Data.List.Count

/-! # SFS — what is where

The directories of a mount are a fixed set of paths `D`.  `World` says how they and the
files lie in the partitions: below a replica of their parent, and, for a directory, in
at least one partition in which the parent is normal.  A file name is a column of the
disks (`Disk.col`): in each partition an inode and its links, or nothing.

In memory, `Reflects` says that a directory's dentry shows the disks, and `Sound` that
the slots of a file's dentry do. -/

namespace Sfs

open InteractProg Function

/-! ## Columns -/

/-- A file name in a partition: its inode and its links. -/
def Disk.col (d : Disk) (x : Path) (p : Nat) : Option (Nat × Option Ptrs) :=
  match d.node x p with
  | some (.file i) => some (i, d.attr p i)
  | _ => none

/-- The directories and files of a mount with `N` partitions. -/
structure World (N : Nat) (D : Path → Prop) (d : Disk) : Prop where
  root : D []
  up : ∀ {a Z}, D (a :: Z) → D Z
  within : ∀ {x p o}, d.node x p = some o → p < N
  rooted : ∀ {p}, p < N → ∃ b, d.node [] p = some (.dir b)
  dir_iff : ∀ {x p o}, d.node x p = some o → ((∃ b, o = .dir b) ↔ D x)
  held : ∀ {a Z p o}, d.node (a :: Z) p = some o → ∃ b, d.node Z p = some (.dir b)
  shown : ∀ {a Z}, D (a :: Z) → ∃ p, d.node Z p = some (.dir true)
    ∧ ∃ o, d.node (a :: Z) p = some o

/-- No inode has two of the names in `P`, and the next one is new. -/
structure Private (P : Path → Prop) (d : Disk) : Prop where
  fresh : ∀ {x p i}, P x → d.node x p = some (.file i) → i < d.next
  single : ∀ {x y p i}, P x → P y → d.node x p = some (.file i) →
    d.node y p = some (.file i) → x = y

section World

variable {N : Nat} {D : Path → Prop} {d d' : Disk} {x y Z : Path}
  {p q i : Nat} {a : Option Ptrs} {o : Obj}

@[simp] theorem setNode_node {o : Option Obj} :
    (d.setNode x p o).node y q = if y = x ∧ q = p then o else d.node y q := rfl

/-- Other names stay. -/
theorem setNode_of_ne {o : Option Obj} (h : y ≠ x) :
    (d.setNode x p o).node y q = d.node y q := if_neg (fun h' => h h'.1)

/-- Other partitions stay. -/
theorem setNode_of_ne_part {o : Option Obj} (h : q ≠ p) :
    (d.setNode x p o).node y q = d.node y q := if_neg (fun h' => h h'.2)

@[simp] theorem setAttr_node : (d.setAttr p i a).node = d.node := rfl

@[simp] theorem grow_node : (d.grow x).node = d.node := rfl

/-- A file with its links. -/
theorem col_eq_some {f : Nat × Option Ptrs} :
    d.col x p = some f ↔ d.node x p = some (.file f.1) ∧ d.attr p f.1 = f.2 := by
  unfold Disk.col
  split
  · rename_i i hi
    constructor
    · rintro ⟨⟩
      exact ⟨hi, rfl⟩
    · rintro ⟨hf, ha⟩
      obtain rfl : i = f.1 := by simpa [hi] using hf
      rw [ha]
  · rename_i hno
    constructor
    · exact nofun
    · exact fun h => absurd h.1 (hno f.1)

/-- A directory is no file. -/
theorem dir_ne (hy : D y) (hx : ¬ D x) : y ≠ x := fun h => hx (h ▸ hy)

theorem file_dir_iff (hx : ¬ D x) : (∃ b, Obj.file i = .dir b) ↔ D x := by
  simp [hx]

section

variable (w : World N D d)
include w

theorem World.file_of_not (hx : ¬ D x) (h : d.node x p = some o) : ∃ i, o = .file i := by
  cases o with
  | dir b => exact absurd ((w.dir_iff h).mp ⟨b, rfl⟩) hx
  | file i => exact ⟨i, rfl⟩

theorem World.dir_of (hx : D x) (h : d.node x p = some o) :
    ∃ b, o = .dir b := (w.dir_iff h).mpr hx

/-- A name that is no directory is its column. -/
theorem World.col_none_iff (hx : ¬ D x) :
    d.col x p = none ↔ d.node x p = none := by
  constructor
  · intro h
    by_contra hn
    obtain ⟨o, ho⟩ := Option.ne_none_iff_exists'.mp hn
    obtain ⟨i, rfl⟩ := w.file_of_not hx ho
    exact nomatch h.symm.trans ((col_eq_some (f := (i, d.attr p i))).mpr ⟨ho, rfl⟩)
  · intro h
    rw [Disk.col, h]

/-- Below a file there is nothing. -/
theorem World.leaf (hx : ¬ D x) {a : Nat} : d.node (a :: x) p = none := by
  by_contra hn
  obtain ⟨o, ho⟩ := Option.ne_none_iff_exists'.mp hn
  obtain ⟨b, hb⟩ := w.held ho
  exact hx ((w.dir_iff hb).mp ⟨b, rfl⟩)

/-- The links do not matter. -/
theorem World.congr (h : d'.node = d.node) : World N D d' where
  root := w.root
  up := w.up
  within hx := w.within (h ▸ hx)
  rooted hp := h ▸ w.rooted hp
  dir_iff hx := w.dir_iff (h ▸ hx)
  held hx := h ▸ w.held (h ▸ hx)
  shown hx := h ▸ w.shown hx

/-- An object is put at a place whose parent is there. -/
theorem World.setNode (hp : p < N) (hD : (∃ b, o = .dir b) ↔ D x)
    (hheld : ∀ a Z, x = a :: Z → ∃ b, d.node Z p = some (.dir b))
    (hmark : d.node x p = some (.dir true) → o = .dir true) :
    World N D (d.setNode x p (some o)) where
  root := w.root
  up := w.up
  within {y q o'} h := by
    rw [setNode_node] at h
    split at h
    · next hxq => exact hxq.2 ▸ hp
    · exact w.within h
  rooted {q} hq := by
    rw [setNode_node]
    split
    · next hxq =>
      obtain ⟨b, rfl⟩ := hD.mpr (hxq.1 ▸ w.root)
      exact ⟨b, rfl⟩
    · exact w.rooted hq
  dir_iff {y q o'} h := by
    rw [setNode_node] at h
    split at h
    · next hxq =>
      cases h
      exact hxq.1 ▸ hD
    · exact w.dir_iff h
  held {a Z q o'} h := by
    -- the parent of what is there is there, and is `x` itself only if `D x`
    have hpar : ∃ b, d.node Z q = some (.dir b) := by
      rw [setNode_node] at h
      split at h
      · next hxq => exact hxq.2 ▸ hheld a Z hxq.1.symm
      · exact w.held h
    obtain ⟨b, hb⟩ := hpar
    rw [setNode_node]
    split
    · next hxq =>
      obtain ⟨b', rfl⟩ := hD.mpr (hxq.1 ▸ (w.dir_iff hb).mp ⟨b, rfl⟩)
      exact ⟨b', rfl⟩
    · exact ⟨b, hb⟩
  shown {a Z} h := by
    obtain ⟨q, hq, o', ho'⟩ := w.shown h
    refine ⟨q, ?_, ?_⟩
    · rw [setNode_node]
      split
      · next hxq => rw [hmark (hxq.1 ▸ hxq.2 ▸ hq)]
      · exact hq
    · rw [setNode_node]
      split
      · exact ⟨o, rfl⟩
      · exact ⟨o', ho'⟩

/-- A file is removed. -/
theorem World.clear (hx : ¬ D x) : World N D (d.setNode x p none) where
  root := w.root
  up := w.up
  within {y q o'} h := by
    rw [setNode_node] at h
    split at h
    · cases h
    · exact w.within h
  rooted {q} hq := by
    rw [setNode_of_ne (dir_ne w.root hx)]
    exact w.rooted hq
  dir_iff {y q o'} h := by
    rw [setNode_node] at h
    split at h
    · cases h
    · exact w.dir_iff h
  held {a Z q o'} h := by
    rw [setNode_node] at h
    split at h
    · cases h
    · obtain ⟨b, hb⟩ := w.held h
      refine ⟨b, ?_⟩
      rw [setNode_of_ne (dir_ne ((w.dir_iff hb).mp ⟨b, rfl⟩) hx)]
      exact hb
  shown {a Z} h := by
    obtain ⟨q, hq, o', ho'⟩ := w.shown h
    refine ⟨q, ?_, o', ?_⟩
    · rw [setNode_of_ne (dir_ne (w.up h) hx)]
      exact hq
    · rw [setNode_of_ne (dir_ne h hx)]
      exact ho'

end

end World

/-! ## What the operations on files do to columns -/

section Columns

variable {N : Nat} {D P : Path → Prop} {d d' : Disk} {x y Z : Path}
  {p q i : Nat} {a : Option Ptrs} {o : Obj}

/-- A column goes by the node and its attribute. -/
theorem col_congr (hn : d'.node x p = d.node x p)
    (ha : ∀ i, d.node x p = some (.file i) → d'.attr p i = d.attr p i) :
    d'.col x p = d.col x p := by
  unfold Disk.col
  rw [hn]
  split
  · next i hi => rw [ha i hi]
  · rfl

@[simp] theorem col_grow : (d.grow y).col x = d.col x := rfl

theorem col_setNode_of_ne {o : Option Obj} (h : y ≠ x) : (d.setNode x p o).col y = d.col y :=
  funext fun _ => col_congr (setNode_of_ne h) (fun _ _ => rfl)

/-- A file is deleted. -/
theorem col_clear : (d.setNode x p none).col x = update (d.col x) p none := by
  funext q
  by_cases hq : q = p
  · rw [hq, update_self, Disk.col, setNode_node, if_pos ⟨rfl, rfl⟩]
  · rw [update_of_ne hq]
    exact col_congr (setNode_of_ne_part hq) (fun _ _ => rfl)

/-- A file is renamed: the new name gets what the old one had. -/
theorem col_moveFile_right (h : x ≠ y) : (d.moveFile x y p).col y
    = update (d.col y) p (d.col x p) := by
  funext q
  by_cases hq : q = p
  · rw [hq, update_self, Disk.moveFile, col_grow, Disk.col, setNode_node, if_pos ⟨rfl, rfl⟩]
    rfl
  · rw [update_of_ne hq, Disk.moveFile, col_grow]
    exact (col_congr (setNode_of_ne_part hq) (fun _ _ => rfl)).trans
      (congrFun (col_setNode_of_ne h.symm) q)

theorem col_moveFile_left (h : x ≠ y) : (d.moveFile x y p).col x = update (d.col x) p none := by
  rw [Disk.moveFile, col_grow, col_setNode_of_ne h, col_clear]

theorem moveFile_node_of_ne (hx : Z ≠ x) (hy : Z ≠ y) : (d.moveFile x y p).node Z = d.node Z := by
  funext q
  exact (setNode_of_ne hy).trans (setNode_of_ne hx)

/-- The links of a file are stored. -/
theorem col_setAttr (hx : d.node x p = some (.file i)) :
    (d.setAttr p i a).col x = update (d.col x) p (some (i, a)) := by
  funext q
  by_cases hq : q = p
  · rw [hq, update_self, col_eq_some]
    exact ⟨hx, if_pos ⟨rfl, rfl⟩⟩
  · rw [update_of_ne hq]
    exact col_congr rfl (fun _ _ => if_neg (fun h => hq h.1))

/-- No other name has the inode. -/
theorem Private.col_setAttr_of_ne (h : Private P d) (hPx : P x) (hPy : P y)
    (hx : d.node x p = some (.file i)) (hy : y ≠ x) :
    (d.setAttr p i a).col y = d.col y := by
  funext q
  refine col_congr rfl (fun j hj => if_neg ?_)
  rintro ⟨rfl, rfl⟩
  exact hy (h.single hPy hPx hj hx)

/-- A file is created. -/
theorem col_addFile : (d.addFile x p).col x = update (d.col x) p (some (d.next, none)) := by
  funext q
  by_cases hq : q = p
  · rw [hq, update_self, col_eq_some]
    exact ⟨if_pos ⟨rfl, rfl⟩, if_pos ⟨rfl, rfl⟩⟩
  · rw [update_of_ne hq]
    exact col_congr (setNode_of_ne_part hq) (fun _ _ => if_neg (fun h => hq h.1))

/-- No other name has the new inode. -/
theorem Private.col_addFile_of_ne (h : Private P d) (hPy : P y) (hy : y ≠ x) :
    (d.addFile x p).col y = d.col y := by
  funext q
  refine col_congr (setNode_of_ne hy) (fun j hj => if_neg ?_)
  rintro ⟨-, rfl⟩
  exact absurd (h.fresh hPy hj) (Nat.lt_irrefl _)

theorem addFile_node_of_ne (hx : Z ≠ x) : (d.addFile x p).node Z = d.node Z := by
  funext q
  exact setNode_of_ne hx

theorem World.setAttr (w : World N D d) : World N D (d.setAttr p i a) :=
  w.congr rfl

/-- A file comes to lie in a replica of its directory. -/
theorem World.setFile (w : World N D d) (hx : ¬ D x) (hp : p < N)
    (hheld : ∃ b, d.node x.tail p = some (.dir b)) (i : Nat) :
    World N D (d.setNode x p (some (.file i))) := by
  refine w.setNode hp (file_dir_iff hx) ?_ fun h => ?_
  · rintro a Z rfl
    exact hheld
  · exact absurd ((w.dir_iff h).mp ⟨true, rfl⟩) hx

/-- A file is created. -/
theorem World.addFile (w : World N D d) (hx : ¬ D x) (hp : p < N)
    (hheld : ∃ b, d.node x.tail p = some (.dir b)) :
    World N D (d.addFile x p) := (w.setFile hx hp hheld d.next).congr rfl

/-- A file is renamed. -/
theorem World.moveFile (w : World N D d) (hx : ¬ D x) (hy : ¬ D y)
    (hfile : d.node x p = some (.file i)) (hheld : ∃ b, d.node y.tail p = some (.dir b)) :
    World N D (d.moveFile x y p) := by
  obtain ⟨b, hb⟩ := hheld
  have hdir : D y.tail := (w.dir_iff hb).mp ⟨b, rfl⟩
  have hkept : (d.setNode x p none).node y.tail p = some (.dir b) :=
    (setNode_of_ne (dir_ne hdir hx)).trans hb
  refine ((w.clear (p := p) hx).setFile hy (w.within hfile) ⟨b, hkept⟩ i).congr ?_
  rw [Disk.moveFile, hfile]
  rfl

/-- Fewer names. -/
theorem Private.mono {Q : Path → Prop} (h : Private P d) (hQ : ∀ z, Q z → P z) : Private Q d :=
  ⟨fun hx => h.fresh (hQ _ hx), fun hx hy => h.single (hQ _ hx) (hQ _ hy)⟩

theorem Private.setAttr (h : Private P d) : Private P (d.setAttr p i a) :=
  ⟨h.fresh, h.single⟩

/-- A file is deleted. -/
theorem Private.clear (h : Private P d) : Private P (d.setNode x p none) where
  fresh {y q j} hP hj := by
    rw [setNode_node] at hj
    split at hj
    · cases hj
    · exact h.fresh hP hj
  single {y z q j} hP hP' hy hz := by
    rw [setNode_node] at hy hz
    split at hy
    · cases hy
    · split at hz
      · cases hz
      · exact h.single hP hP' hy hz

/-- The inode of a file that is created is new. -/
theorem Private.addFile (h : Private P d) : Private P (d.addFile x p) := by
  have hnode : ∀ {y q j}, (d.addFile x p).node y q = some (.file j) →
      (y = x ∧ q = p ∧ j = d.next) ∨ d.node y q = some (.file j) := by
    intro y q j hj
    have hj' : (if y = x ∧ q = p then some (Obj.file d.next) else d.node y q)
        = some (.file j) := hj
    split at hj'
    · next hxq => exact .inl ⟨hxq.1, hxq.2, by simpa using hj'.symm⟩
    · exact .inr hj'
  constructor
  · intro y q j hP hj
    rcases hnode hj with ⟨-, -, rfl⟩ | hj'
    · exact Nat.lt_succ_self _
    · exact Nat.lt_succ_of_lt (h.fresh hP hj')
  · intro y z q j hP hP' hy hz
    rcases hnode hy with ⟨rfl, rfl, rfl⟩ | hy'
    · rcases hnode hz with ⟨rfl, -⟩ | hz'
      · rfl
      · exact absurd (h.fresh hP' hz') (Nat.lt_irrefl _)
    · rcases hnode hz with ⟨rfl, rfl, rfl⟩ | hz'
      · exact absurd (h.fresh hP hy') (Nat.lt_irrefl _)
      · exact h.single hP hP' hy' hz'

/-- The inode goes with the name. -/
theorem Private.moveFile (h : Private P d) (hPx : P x)
    (hfile : d.node x p = some (.file i)) : Private P (d.moveFile x y p) := by
  have hnode : ∀ {z q j}, (d.moveFile x y p).node z q = some (.file j) →
      (z = y ∧ q = p ∧ j = i) ∨ (¬ (z = x ∧ q = p) ∧ d.node z q = some (.file j)) := by
    intro z q j hj
    have hj' : (if z = y ∧ q = p then d.node x p else if z = x ∧ q = p then none else d.node z q)
        = some (.file j) := hj
    split at hj'
    · next hyq =>
      rw [hfile] at hj'
      exact .inl ⟨hyq.1, hyq.2, by simpa using hj'.symm⟩
    · split at hj'
      · cases hj'
      · next hxq => exact .inr ⟨hxq, hj'⟩
  constructor
  · intro z q j hP hj
    rcases hnode hj with ⟨-, -, rfl⟩ | ⟨-, hj'⟩
    · exact h.fresh hPx hfile
    · exact h.fresh hP hj'
  · intro z z' q j hP hP' hz hz'
    rcases hnode hz with ⟨rfl, rfl, rfl⟩ | ⟨hne, hj⟩
    · rcases hnode hz' with ⟨rfl, -⟩ | ⟨hne', hj'⟩
      · rfl
      · exact absurd ⟨h.single hP' hPx hj' hfile, rfl⟩ hne'
    · rcases hnode hz' with ⟨rfl, rfl, rfl⟩ | ⟨-, hj'⟩
      · exact absurd ⟨h.single hP hPx hj hfile, rfl⟩ hne
      · exact h.single hP hP' hj hj'

end Columns

/-! ## Dentries that show the disks -/

section Replicas

variable {dx : SfsDentry} {p q : Nat} {r : Option Replica}

@[simp] theorem setReplica_self : (dx.setReplica p r).replicas p = r :=
  update_self ..

theorem setReplica_of_ne (h : q ≠ p) :
    (dx.setReplica p r).replicas q = dx.replicas q := update_of_ne h ..

@[simp] theorem setReplica_setReplica {r' : Option Replica} :
    (dx.setReplica p r).setReplica p r' = dx.setReplica p r' := by
  simp only [SfsDentry.setReplica, update_idem]

theorem setReplica_eq (h : dx.replicas p = r) : dx.setReplica p r = dx := by
  rw [SfsDentry.setReplica, ← h, update_eq_self]

@[simp] theorem setReplica_replicaId : (dx.setReplica p r).replicaId = dx.replicaId := rfl

end Replicas

/-- The slot that shows the disks. -/
def Disk.slot (d : Disk) (x : Path) (p : Nat) : Replica :=
  ⟨x, (d.node x p).map Obj.inode⟩

/-- The slot `p` is looked up. -/
def SfsDentry.fill (dx : SfsDentry) (d : Disk) (x : Path) (p : Nat) :
    SfsDentry := dx.setReplica p (some (d.slot x p))

/-- Every slot is null or shows the disks. -/
def Sound (d : Disk) (x : Path) (dx : SfsDentry) : Prop :=
  ∀ p, dx.replicas p = none ∨ dx.replicas p = some (d.slot x p)

/-- The dentry of a directory shows the disks in full. -/
structure Reflects (N : Nat) (d : Disk) (Z : Path) (dz : SfsDentry) : Prop where
  positive : dz.positive = true
  sound : Sound d Z dz
  full : ∀ {p o}, d.node Z p = some o → dz.replicas p = some (d.slot Z p)
  map : ∀ p, dz.normalDirMap p = true ↔ d.node Z p = some (.dir true)
  count : dz.normalDirCount = (List.range N).countP dz.normalDirMap
  counter : dz.localCounter < N

/-- A directory whose dentry is in the cache and shows the disks. -/
def DirSeen (N : Nat) (s : Sys) (Z : Path) : Prop :=
  ∃ dz, s.mem Z = some dz ∧ Reflects N s.disk Z dz

section Memory

variable {N : Nat} {d : Disk} {x Z : Path} {dx dz : SfsDentry} {p q : Nat}
  {s : Sys} {r : Option Replica}

/-- A slot is looked up. -/
theorem Sound.fill (h : Sound d x dx) (p : Nat) : Sound d x (dx.fill d x p) := by
  intro q
  by_cases hq : q = p
  · exact .inr (by rw [hq]; exact setReplica_self)
  · rw [SfsDentry.fill, setReplica_of_ne hq]
    exact h q

/-- A slot that is not null is as if it had just been looked up. -/
theorem Sound.fill_eq (h : Sound d x dx) (hp : dx.replicas p ≠ none) :
    dx.fill d x p = dx := setReplica_eq ((h p).resolve_left hp)

theorem fresh_sound : Sound d x .fresh := fun _ => .inl rfl

/-- A partition with the directory. -/
theorem Reflects.dir (h : Reflects N d Z dz) {b : Bool} (hn : d.node Z p = some (.dir b)) :
    dz.replicas p = some ⟨Z, some .dir⟩ := by
  rw [h.full hn, Disk.slot, hn]
  rfl

/-- A partition without the directory: a null slot or a negative dentry. -/
theorem Reflects.lacks (h : Reflects N d Z dz) (hn : d.node Z p = none) :
    (dz.replicas p).bind Replica.inode = none := by
  rcases h.sound p with hp | hp
  · rw [hp]
    rfl
  · rw [hp, Disk.slot, hn]
    rfl

section

variable (hx : s.mem x = some dx) (hs : Sound s.disk x dx)
  (hpar : dx.replicas p = none → ∃ i, r.bind Replica.inode = some i)
include hx hs hpar

/-- `get_replica_dentry`, when the slot or the parent's replica is there. -/
theorem still_getReplicaDentry :
    Still (getReplicaDentry r x p) s (s.disk.slot x p) (s.setD x (dx.fill s.disk x p)) := by
  rcases hs p with hp | hp
  · obtain ⟨i, hi⟩ := hpar hp
    simp [getReplicaDentry, findReplicaDentry, bind_bind, hx, hp, hi,
      dAddReplica, storeReplica, deref, Disk.slot, SfsDentry.fill]
  · have hsame : s.setD x (dx.fill s.disk x p) = s := by
      rw [hs.fill_eq (by rw [hp]; exact nofun), setD_eq_one]
      exact (eq_one hx).symm
    rw [hsame]
    simp [getReplicaDentry, findReplicaDentry, bind_bind, hx, hp]

theorem calm_getReplicaDentry :
    Calm (getReplicaDentry r x p) s (s.disk.slot x p) (s.setD x (dx.fill s.disk x p)) :=
  (still_getReplicaDentry hx hs hpar).calm

end

end Memory

/-! ## The small functions -/

section Small

variable {β : Type} {e : Int} {I : Disk → Prop} {G Q : β → Sys → Prop}
  {s : Sys} {x : Path} {p : Nat}

@[simp] theorem deref_some {α : Type} (a : α) : deref (some a) = .ret a := rfl

@[simp] theorem does_findReplicaDentry {f : Option Replica → Code β} :
    Does e I G (findReplicaDentry x p >>= f) s Q ↔
      ∃ dx, s.mem x = some dx ∧ Does e I G (f (dx.replicas p)) s Q := by
  simp [findReplicaDentry, bind_bind]

@[simp] theorem does_storeReplica {r : Option Replica} {f : Unit → Code β} :
    Does e I G (storeReplica x p r >>= f) s Q ↔ ∃ dx, s.mem x = some dx
        ∧ Does e I G (f ()) (s.setD x (dx.setReplica p r)) Q := does_modD

@[simp] theorem does_setReplicaId {r : Option Nat} {f : Unit → Code β} :
    Does e I G (setReplicaId x r >>= f) s Q ↔ ∃ dx, s.mem x = some dx
        ∧ Does e I G (f ()) (s.setD x { dx with replicaId := r }) Q := does_modD

@[simp] theorem does_setMetaId {m : Option Nat} {f : Unit → Code β} :
    Does e I G (setMetaId x m >>= f) s Q ↔ ∃ dx, s.mem x = some dx
        ∧ Does e I G (f ()) (s.setD x { dx with metaId := m }) Q := does_modD

@[simp] theorem does_dAddReplica {r : Replica} {f : Unit → Code β} :
    Does e I G (dAddReplica x p r >>= f) s Q ↔ ∃ dx, s.mem x = some dx ∧ Does e I G (f ())
        (if dx.replicas p = none then s.setD x (dx.setReplica p (some r)) else s)
        Q := by
  cases hx : s.mem x with
  | none => simp [dAddReplica, bind_bind, hx]
  | some dx =>
    cases hp : dx.replicas p <;> simp [dAddReplica, bind_bind, hx, hp]

@[simp] theorem still_findReplicaDentry {f : Option Replica → Code β} {b : β} {t : Sys} :
    Still (findReplicaDentry x p >>= f) s b t ↔
      ∃ dx, s.mem x = some dx ∧ Still (f (dx.replicas p)) s b t := by
  simp [findReplicaDentry, bind_bind]

@[simp] theorem still_dAddReplica {r : Replica} {f : Unit → Code β} {b : β} {t : Sys} :
    Still (dAddReplica x p r >>= f) s b t ↔ ∃ dx, s.mem x = some dx ∧ Still (f ())
        (if dx.replicas p = none then s.setD x (dx.setReplica p (some r)) else s)
        b t := by
  cases hx : s.mem x with
  | none => simp [dAddReplica, bind_bind, hx]
  | some dx =>
    cases hp : dx.replicas p <;> simp [dAddReplica, storeReplica, bind_bind, hx, hp]

/-- The slot `p` of `x` is a dentry of the file `i`. -/
def SfsDentry.IsFile (dx : SfsDentry) (p i : Nat) : Prop :=
  (dx.replicas p).bind Replica.inode = some (.file i)

/-- The slot has a file. -/
@[simp] theorem does_fileOf {f : Nat → Code β} : Does e I G (fileOf x p >>= f) s Q ↔
      ∃ dx, s.mem x = some dx ∧ ∃ i, dx.IsFile p i ∧ Does e I G (f i) s Q := by
  cases hx : s.mem x with
  | none => simp [fileOf, bind_bind, hx]
  | some dx =>
    cases hp : (dx.replicas p).bind Replica.inode with
    | none => simp [fileOf, bind_bind, hx, hp, SfsDentry.IsFile]
    | some i => cases i <;> simp [fileOf, bind_bind, hx, hp, SfsDentry.IsFile]

@[simp] theorem does_get {f : Option Ptrs → Code β} :
    Does e I G (get x p >>= f) s Q ↔ ∃ dx, s.mem x = some dx ∧ ∃ i, dx.IsFile p i
        ∧ Does e I G (f (s.disk.attr p i)) s Q := by
  simp [get, bind_bind]

/-- An attribute is stored, or the error comes. -/
@[simp] theorem does_put {v : Ptrs} {f : Int → Code β} :
    Does e I G (put x p v >>= f) s Q ↔ ∃ dx, s.mem x = some dx ∧ ∃ i, dx.IsFile p i ∧ I s.disk
        ∧ (∀ b u, run sysHandler (f e) s = some (b, u) → G b u)
        ∧ Does e I G (f 0) (s.onDisk (s.disk.setAttr p i (some v))) Q := by
  simp [put, bind_bind, does_setxattr]

end Small

end Sfs
