import MultiLanes.SfsBranchProofs

/-! # SFS — plain and partitioned files

A file name of a consistent directory is a plain file in a normal partition, or a meta
file there and a data file in a shadow partition whose pointers name each other
(`Named`).  While a rename is on its way the columns of its two names hold one or two
files with other links; `View` follows the two columns through the durable steps, and
the lemmas on `Finds` say what a fresh lookup makes of each such column. -/

namespace Sfs

open InteractProg Function

/-! ## Columns of one or two files -/

/-- What a name is in each partition: an inode and its links. -/
abbrev Column : Type := Nat → Option (Nat × Option Ptrs)

/-- The name is in no partition. -/
def noFile : Column := fun _ => none

/-- One file, in partition `p`. -/
def only (p : Nat) (f : Nat × Option Ptrs) : Column :=
  update noFile p (some f)

/-- Two files of a name, in `p` and in `q`. -/
def both (p : Nat) (f : Nat × Option Ptrs) (q : Nat) (g : Nat × Option Ptrs) :
    Column := update (only q g) p (some f)

section Columns

variable {p q r : Nat} {f g f' : Nat × Option Ptrs}

@[simp] theorem only_self : only p f p = some f := update_self ..

theorem only_of_ne (h : q ≠ p) : only p f q = none := update_of_ne h ..

@[simp] theorem both_left : both p f q g p = some f := update_self ..

theorem both_right (h : q ≠ p) : both p f q g q = some g := by
  rw [both, update_of_ne h, only_self]

theorem both_of_ne (hp : r ≠ p) (hq : r ≠ q) : both p f q g r = none := by
  rw [both, update_of_ne hp, only_of_ne hq]

theorem both_comm (h : p ≠ q) : both p f q g = both q g p f :=
  update_comm h.symm ..

@[simp] theorem noFile_add : update noFile p (some f) = only p f := rfl

@[simp] theorem only_add : update (only q g) p (some f) = both p f q g := rfl

@[simp] theorem only_set : update (only p f) p (some f') = only p f' :=
  update_idem ..

@[simp] theorem only_clear : update (only p f) p none = noFile := by
  rw [only, update_idem]
  exact update_eq_self ..

@[simp] theorem both_set : update (both p f q g) p (some f') = both p f' q g :=
  update_idem ..

theorem both_set_right (h : q ≠ p) : update (both p f q g) q (some f') = both p f q f' := by
  rw [both_comm h.symm, both_set, both_comm h]

theorem only_clear_of_ne (h : q ≠ p) : update (only p f) q none = only p f := by
  rw [← only_of_ne (f := f) h]
  exact update_eq_self ..

@[simp] theorem both_clear (h : p ≠ q) : update (both p f q g) p none = only q g := by
  rw [both, update_idem, only_clear_of_ne h]

theorem both_clear_right (h : q ≠ p) : update (both p f q g) q none = only p f := by
  rw [both_comm h.symm, both_clear h]

end Columns

/-! ## Files -/

/-- A file: its data file, with its links, and its meta file if it is partitioned. -/
structure File where
  data : Nat
  ino : Nat
  attr : Option Ptrs
  parted : Option (Nat × Nat)
deriving DecidableEq

/-- The data file. -/
def File.at (f : File) : Nat × Nat := (f.data, f.ino)

/-- The partition of the meta file. -/
def File.metaId (f : File) : Option Nat := f.parted.map Prod.fst

/-- The column of a file with other links on its data file. -/
def File.colWith (f : File) (a : Option Ptrs) : Column :=
  match f.parted with
  | none => only f.data (f.ino, a)
  | some m => both m.1 (m.2, some (pointerTo f.data)) f.data (f.ino, a)

/-- The column of a file as it stands. -/
def File.col (f : File) : Column := f.colWith f.attr

/-- The column when the data file has gone. -/
def File.rest (f : File) : Column :=
  match f.parted with
  | none => noFile
  | some m => only m.1 (m.2, some (pointerTo f.data))

/-- The meta file is in another partition. -/
def File.Apart (f : File) : Prop := ∀ m ∈ f.parted, m.1 ≠ f.data

/-- How a file lies in directory `Z`. -/
def File.Fits (d : Disk) (Z : Path) (f : File) : Prop :=
  match f.parted with
  | none => d.node Z f.data = some (.dir true) ∧ NoLinks f.attr
  | some m => d.node Z m.1 = some (.dir true)
      ∧ d.node Z f.data ≠ some (.dir true) ∧ f.attr = some (pointerTo m.1)

/-- The column of a name. -/
def column : Option File → Column
  | none => noFile
  | some f => f.col

/-- A name of a consistent directory. -/
structure Named (d : Disk) (z : Path) (F : Option File) : Prop where
  col : d.col z = column F
  fits : ∀ f ∈ F, f.Fits d z.tail

/-- The slot `p` of a file's dentry shows the column of its name: it is null, and
    there is nothing, or it has been looked up. -/
def SfsDentry.Match (dz : SfsDentry) (z : Path) (c : Column) (p : Nat) : Prop :=
  (dz.replicas p = none ∧ c p = none)
    ∨ dz.replicas p = some ⟨z, (c p).map (fun f => .file f.1)⟩

/-- The dentry of a name shows what it is. -/
structure Shows (N : Nat) (d : Disk) (z : Path) (F : Option File)
    (dz : SfsDentry) : Prop where
  positive : dz.positive = F.isSome
  replicaId : dz.replicaId = F.map File.data
  metaId : dz.metaId = F.bind File.metaId
  slots : ∀ p, dz.Match z (d.col z) p
  null : ∀ {p}, N ≤ p → dz.replicas p = none

section Files

variable {N : Nat} {D P : Path → Prop} {d d' : Disk} {z Z : Path} {f : File}
  {F : Option File} {a : Option Ptrs} {p i : Nat} {dz : SfsDentry}

/-- The meta file is in a normal partition of `Z`, the data file is not. -/
theorem File.Fits.meta_ne {m : Nat × Nat} (h : f.Fits d Z)
    (hm : f.parted = some m) : m.1 ≠ f.data := by
  rw [File.Fits, hm] at h
  exact fun heq => h.2.1 (heq ▸ h.1)

theorem File.colWith_plain (h : f.parted = none) :
    f.colWith a = only f.data (f.ino, a) := by rw [File.colWith, h]

theorem File.colWith_parted {m : Nat × Nat} (h : f.parted = some m) :
    f.colWith a = both m.1 (m.2, some (pointerTo f.data)) f.data (f.ino, a) := by
  rw [File.colWith, h]

theorem File.Fits.plain (h : f.Fits d Z) (hp : f.parted = none) :
    d.node Z f.data = some (.dir true) ∧ NoLinks f.attr := by
  rw [File.Fits, hp] at h
  exact h

theorem File.Fits.split {m : Nat × Nat} (h : f.Fits d Z)
    (hm : f.parted = some m) : d.node Z m.1 = some (.dir true) ∧ d.node Z f.data ≠ some (.dir true)
      ∧ f.attr = some (pointerTo m.1) := by
  rw [File.Fits, hm] at h
  exact h

/-- Only the marks of the directory matter. -/
theorem File.Fits.congr (h : f.Fits d Z) (hn : ∀ p,
    d'.node Z p = some (.dir true) ↔ d.node Z p = some (.dir true)) :
    f.Fits d' Z := by
  unfold File.Fits at h ⊢
  split at h
  · exact ⟨(hn _).mpr h.1, h.2⟩
  · exact ⟨(hn _).mpr h.1, fun h' => h.2.1 ((hn _).mp h'), h.2.2⟩

theorem File.Fits.apart (h : f.Fits d Z) : f.Apart := fun _ hm => h.meta_ne hm

theorem File.Apart.colWith_data (h : f.Apart) : f.colWith a f.data = some (f.ino, a) := by
  rw [File.colWith]
  cases hm : f.parted with
  | none => exact only_self
  | some m => exact both_right (h m hm).symm

/-- The links of the data file are replaced. -/
theorem File.Apart.set (h : f.Apart) {a' : Option Ptrs} :
    update (f.colWith a) f.data (some (f.ino, a')) = f.colWith a' := by
  unfold File.colWith
  split
  · exact only_set
  · next m hm => exact both_set_right (h m hm).symm

/-- The data file goes away. -/
theorem File.Apart.leave (h : f.Apart) : update (f.colWith a) f.data none = f.rest := by
  unfold File.colWith File.rest
  split
  · exact only_clear
  · next m hm => exact both_clear_right (h m hm).symm

/-- Where the data file of a name is. -/
theorem Named.data_node (h : Named d z (some f)) : d.node z f.data = some (.file f.ino) := by
  have hc : d.col z f.data = some (f.ino, f.attr) := by
    rw [h.col]
    exact (h.fits f rfl).apart.colWith_data
  exact (col_eq_some.mp hc).1

/-- And its meta file. -/
theorem Named.meta_node (h : Named d z (some f)) {m : Nat × Nat}
    (hm : f.parted = some m) : d.node z m.1 = some (.file m.2)
      ∧ d.attr m.1 m.2 = some (pointerTo f.data) := by
  have hc : d.col z m.1 = some (m.2, some (pointerTo f.data)) := by
    rw [h.col, column, File.col, File.colWith, hm]
    exact both_left
  exact col_eq_some.mp hc

/-- In a partition that has the file, the slot shows it. -/
theorem SfsDentry.Match.slot {c : Column} {a : Option Ptrs}
    (h : dz.Match z c p) (hc : c p = some (i, a)) :
    dz.replicas p = some ⟨z, some (.file i)⟩ := by
  rcases h with ⟨-, hn⟩ | h
  · cases hn.symm.trans hc
  · rw [h, hc]
    rfl

/-- The slot of a name that is no directory, by its column. -/
theorem World.slot_eq (w : World N D d) (hz : ¬ D z) :
    d.slot z p = ⟨z, (d.col z p).map (fun f => .file f.1)⟩ := by
  cases hn : d.node z p with
  | none => simp [Disk.slot, Disk.col, hn]
  | some o =>
    obtain ⟨i, rfl⟩ := w.file_of_not hz hn
    simp [Disk.slot, Disk.col, hn, Obj.inode]

end Files

/-! ## What is seen of a column -/

section Sights

variable {N : Nat} {D P : Path → Prop} {d : Disk} {z : Path} {f : File}
  {F : Option File} {a b : Option Ptrs} {p q i j : Nat}

theorem First.of_only (hcol : d.col z = only p (i, a))
    (hp : d.node z.tail p = some (.dir true)) : First d z p i a where
  normal := hp
  col := by rw [hcol]; exact only_self
  before hq _ := by rw [hcol]; exact only_of_ne (ne_of_lt hq)

/-- Two files of a name, of which the other one is in a shadow partition or later. -/
theorem First.of_both (hcol : d.col z = both p (i, a) q (j, b))
    (hp : d.node z.tail p = some (.dir true))
    (hq : d.node z.tail q = some (.dir true) → p ≤ q) : First d z p i a where
  normal := hp
  col := by rw [hcol]; exact both_left
  before {r} hr hn := by
    rw [hcol]
    refine both_of_ne (ne_of_lt hr) ?_
    rintro rfl
    exact absurd hr (not_lt.mpr (hq hn))

/-- Nothing of the name is in a normal partition. -/
theorem finds_noFile (hcol : d.col z = noFile) : Finds d z none :=
  .absent (fun p _ => by rw [hcol]; rfl)

/-- The file is met at its meta file, which leads to the data file whatever the
    links of that one are. -/
theorem finds_parted {m : Nat × Nat} (hm : f.parted = some m) (hne : m.1 ≠ f.data)
    (hcol : d.col z = f.colWith a) (hn : d.node z.tail m.1 = some (.dir true))
    (hlt : d.node z.tail f.data = some (.dir true) → m.1 ≤ f.data) :
    Finds d z (some f.at) := by
  rw [File.colWith, hm] at hcol
  refine .pointed (First.of_both hcol hn hlt) hne.symm (b := a) ?_
  rw [hcol]
  exact both_right hne.symm

/-- After the data file has gone, the meta file is deleted. -/
theorem finds_rest (hcol : d.col z = f.rest) (hh : d.Holds z.tail f.data)
    (hm : ∀ m ∈ f.parted, m.1 ≠ f.data ∧ d.node z.tail m.1 = some (.dir true)) :
    Finds d z none := by
  cases hp : f.parted with
  | none =>
    rw [File.rest, hp] at hcol
    exact finds_noFile hcol
  | some m =>
    rw [File.rest, hp] at hcol
    obtain ⟨hne, hn⟩ := hm m hp
    refine .dangling (First.of_only hcol hn) hne.symm hh ?_
    rw [hcol]
    exact only_of_ne hne.symm

/-- A name of a consistent directory is found. -/
theorem Named.finds (h : Named d z F) : Finds d z (F.map File.at) := by
  cases F with
  | none => exact finds_noFile h.col
  | some f =>
    have hfit := h.fits f rfl
    have hcol : d.col z = f.colWith f.attr := h.col
    cases hm : f.parted with
    | none =>
      rw [File.Fits, hm] at hfit
      rw [File.colWith, hm] at hcol
      exact .plain (First.of_only hcol hfit.1) hfit.2
    | some m =>
      have hne := hfit.meta_ne hm
      rw [File.Fits, hm] at hfit
      exact finds_parted hm hne hcol hfit.1 (fun hn => absurd hn hfit.2.1)

/-- A fresh lookup of a file name. -/
theorem Finds.sees (w : World N D d) (hN : 0 < N) (hZ : D z.tail)
    (hD : ¬ D z) {r : Option (Nat × Nat)} (h : Finds d z r) :
    Sfs.seenAt N d z = some r := by
  cases z with
  | nil => exact absurd w.root hD
  | cons c Z => exact h.seenAt w hN hZ hD

theorem Stumbles.sees (w : World N D d) (hN : 0 < N) (hZ : D z.tail)
    (hD : ¬ D z) (h : Stumbles d z) : Sfs.seenAt N d z = none := by
  cases z with
  | nil => exact absurd w.root hD
  | cons c Z => exact h.seenAt w hN hZ hD

end Sights

/-! ## Two names through the durable steps -/

/-- The disks on the way: the directories are those of `d₀`, and so are the
    names in `P`, but `x` and `y`, whose columns are given. -/
structure View (N : Nat) (D P : Path → Prop) (d₀ : Disk) (x y : Path)
    (cx cy : Column) (d : Disk) : Prop where
  world : World N D d
  priv : Private P d
  dirs : ∀ {Z}, D Z → d.node Z = d₀.node Z
  mine : P x ∧ P y
  others : ∀ {z}, P z → z ≠ x → z ≠ y → d.col z = d₀.col z
  left : d.col x = cx
  right : d.col y = cy

section View

variable {N : Nat} {D P : Path → Prop} {d₀ d : Disk} {x y : Path}
  {cx cy : Column} {p i : Nat} {a : Option Ptrs}

section

variable (h : View N D P d₀ x y cx cy d)
include h

/-- A view is symmetric in its two names. -/
theorem View.swap : View N D P d₀ y x cy cx d :=
  ⟨h.world, h.priv, h.dirs, h.mine.symm, fun hP hx hy => h.others hP hy hx, h.right, h.left⟩

/-- Links written to the first name change its column only. -/
theorem View.put_left (hxy : x ≠ y) {b : Option Ptrs} (hi : cx p = some (i, b)) :
    View N D P d₀ x y (update cx p (some (i, a))) cy (d.setAttr p i a) := by
  have hx : d.node x p = some (.file i) :=
    (col_eq_some.mp ((congrFun h.left p).trans hi)).1
  exact ⟨h.world.setAttr, h.priv.setAttr, h.dirs, h.mine,
    fun hP hzx hzy => (h.priv.col_setAttr_of_ne h.mine.1 hP hx hzx).trans (h.others hP hzx hzy),
    (col_setAttr hx).trans (by rw [h.left]),
    (h.priv.col_setAttr_of_ne h.mine.1 h.mine.2 hx hxy.symm).trans h.right⟩

theorem View.put_right (hxy : x ≠ y) {b : Option Ptrs} (hi : cy p = some (i, b)) :
    View N D P d₀ x y cx (update cy p (some (i, a)))
      (d.setAttr p i a) := (h.swap.put_left hxy.symm hi).swap

/-- So does an unlink. -/
theorem View.unlink_left (hxy : x ≠ y) (hx : ¬ D x) :
    View N D P d₀ x y (update cx p none) cy (d.setNode x p none) where
  world := h.world.clear hx
  priv := h.priv.clear
  dirs hZ := (funext fun _ => setNode_of_ne (dir_ne hZ hx)).trans (h.dirs hZ)
  mine := h.mine
  others hP hzx hzy := (col_setNode_of_ne hzx).trans (h.others hP hzx hzy)
  left := by rw [col_clear, h.left]
  right := (col_setNode_of_ne hxy.symm).trans h.right

theorem View.unlink_right (hxy : x ≠ y) (hy : ¬ D y) :
    View N D P d₀ x y cx (update cy p none) (d.setNode y p none) :=
  (h.swap.unlink_left hxy.symm hy).swap

/-- A rename moves the entry from one column to the other. -/
theorem View.move (hxy : x ≠ y) (hx : ¬ D x)
    (hy : ¬ D y) (hi : cx p = some (i, a)) (hh : d.Holds y.tail p) :
    View N D P d₀ x y (update cx p none) (update cy p (some (i, a))) (d.moveFile x y p) := by
  have hn : d.node x p = some (.file i) :=
    (col_eq_some.mp ((congrFun h.left p).trans hi)).1
  exact ⟨h.world.moveFile hx hy hn hh, h.priv.moveFile h.mine.1 hn,
    fun hZ => (moveFile_node_of_ne (dir_ne hZ hx) (dir_ne hZ hy)).trans (h.dirs hZ), h.mine,
    fun hP hzx hzy => (funext fun q => col_congr
      (congrFun (moveFile_node_of_ne hzx hzy) q) (fun _ _ => rfl)).trans (h.others hP hzx hzy),
    (col_moveFile_left hxy).trans (by rw [h.left]),
    (col_moveFile_right hxy).trans (by rw [h.left, h.right, hi])⟩

theorem View.create_right (hxy : x ≠ y) (hy : ¬ D y) (hh : d.Holds y.tail p) :
    View N D P d₀ x y cx (update cy p (some (d.next, none)))
      (d.addFile y p) where
  world := by
    obtain ⟨b, hb⟩ := hh
    exact h.world.addFile hy (h.world.within hb) ⟨b, hb⟩
  priv := h.priv.addFile
  dirs hZ := (addFile_node_of_ne (dir_ne hZ hy)).trans (h.dirs hZ)
  mine := h.mine
  others hP hzx hzy :=
    (h.priv.col_addFile_of_ne hP hzy).trans (h.others hP hzx hzy)
  left := (h.priv.col_addFile_of_ne h.mine.1 hxy).trans h.left
  right := by rw [col_addFile, h.right]

end

end View

end Sfs
