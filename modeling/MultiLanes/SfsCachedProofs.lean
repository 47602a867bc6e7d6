import MultiLanes.SfsRenameRunProofs

/-! # SFS — a mount with everything in the cache

Every consistent disk is that of a mount in which all names have been looked up
(`cachedSys`): what is assumed of a state before a rename can be had for any world.
`Disk.ofList` writes a world down as a list of what is where, and its well-formedness is
then a matter of computation (`world_ofList`). -/

namespace Sfs

/-! ## Dentries made from the disks -/

/-- The slots of a name that has been looked up in all partitions. -/
def Disk.slots (d : Disk) (N : Nat) (z : Path) (p : Nat) : Option Replica :=
  if p < N then some (d.slot z p) else none

/-- The dentry of a directory. -/
def Disk.dirDentry (d : Disk) (N : Nat) (z : Path) : SfsDentry where
  positive := true
  replicas := d.slots N z
  replicaId := none
  metaId := none
  localCounter := 0
  normalDirCount := d.normals N z
  firstNormalDirId :=
    (List.range N).find? (fun p => decide (d.node z p = some (.dir true)))
  normalDirMap p := decide (d.node z p = some (.dir true))

/-- The dentry of a name that is the file in `F` or absent. -/
def Disk.fileDentry (d : Disk) (N : Nat) (z : Path) (F : Option File) : SfsDentry :=
  { SfsDentry.fresh with
    positive := F.isSome
    replicas := d.slots N z
    replicaId := F.map File.data
    metaId := F.bind File.metaId }

/-- Every name is in the cache: the directories in `ds`, and the files by `F`. -/
def cachedSys (d : Disk) (N : Nat) (ds : List Path) (F : Path → Option File) : Sys where
  mem z := some (if z ∈ ds then d.dirDentry N z else d.fileDentry N z (F z))
  disk := d
  lastDispatch := 0

section Cached

variable {N : Nat} {D : Path → Prop} {d : Disk} {z : Path} {ds : List Path}
  {F : Path → Option File}

theorem dirDentry_reflects (w : World N D d) (hN : 0 < N) : Reflects N d z (d.dirDentry N z) where
  positive := rfl
  sound p := by
    show d.slots N z p = none ∨ d.slots N z p = some (d.slot z p)
    unfold Disk.slots
    split
    · exact .inr rfl
    · exact .inl rfl
  full {p o} hn := if_pos (w.within hn)
  map p := decide_eq_true_iff
  count := rfl
  counter := hN

theorem cachedSys_seen (w : World N (· ∈ ds) d) (hN : 0 < N) (hz : z ∈ ds) :
    DirSeen N (cachedSys d N ds F) z :=
  ⟨d.dirDentry N z, congrArg some (if_pos hz), dirDentry_reflects w hN⟩

theorem cachedSys_ready (w : World N (· ∈ ds) d) (hN : 0 < N) (hz : z ∉ ds)
    (hdir : z.tail ∈ ds) (hn : Named d z (F z)) :
    Ready N (· ∈ ds) (cachedSys d N ds F) z (F z) where
  file := hz
  dir := hdir
  path h := cachedSys_seen w hN (w.of_suffix h hdir)
  named := hn
  shows := by
    refine ⟨d.fileDentry N z (F z), congrArg some (if_neg hz), rfl, rfl, rfl,
      fun p => ?_, fun hp => if_neg (not_lt.mpr hp)⟩
    by_cases hp : p < N
    · refine .inr ((if_pos hp).trans ?_)
      rw [w.slot_eq hz]
      rfl
    · refine .inl ⟨if_neg hp, (w.col_none_iff hz).mpr ?_⟩
      by_contra hne
      obtain ⟨o, ho⟩ := Option.ne_none_iff_exists'.mp hne
      exact hp (w.within ho)

end Cached

/-! ## Worlds as lists -/

/-- What is where: a path, a partition and the object. -/
def Disk.ofList (es : List (Path × Nat × Obj)) (as : List (Nat × Nat × Ptrs))
    (next fan : Nat) : Disk where
  node x p := (es.find? (fun e => e.1 = x ∧ e.2.1 = p)).map (fun e => e.2.2)
  attr p i := (as.find? (fun a => a.1 = p ∧ a.2.1 = i)).map (fun a => a.2.2)
  next := next
  fan := fan

def Obj.isDir : Obj → Bool
  | .dir _ => true
  | .file _ => false

theorem Obj.isDir_iff {o : Obj} : o.isDir = true ↔ ∃ b, o = .dir b := by
  cases o <;> simp [Obj.isDir]

/-- The checks that make a list a world. -/
structure ListWorld (N : Nat) (ds : List Path) (es : List (Path × Nat × Obj))
    (d : Disk) : Prop where
  root : [] ∈ ds
  up : ∀ z ∈ ds, z.tail ∈ ds
  within : ∀ e ∈ es, e.2.1 < N
  rooted : ∀ p ∈ List.range N, (d.node [] p).any Obj.isDir
  dir_iff : ∀ e ∈ es, (e.2.2.isDir ↔ e.1 ∈ ds)
  held : ∀ e ∈ es, e.1 ≠ [] → (d.node e.1.tail e.2.1).any Obj.isDir
  shown : ∀ z ∈ ds, z ≠ [] → ∃ p ∈ List.range N,
    d.node z.tail p = some (.dir true) ∧ (d.node z p).isSome

section Lists

variable {N : Nat} {ds : List Path} {es : List (Path × Nat × Obj)}
  {as : List (Nat × Nat × Ptrs)} {next fan : Nat}

theorem mem_of_node {x : Path} {p : Nat} {o : Obj}
    (h : (Disk.ofList es as next fan).node x p = some o) :
    (x, p, o) ∈ es := by
  obtain ⟨e, he, rfl⟩ := Option.map_eq_some_iff.mp h
  have hm := List.mem_of_find?_eq_some he
  have hp := List.find?_some he
  simp only [decide_eq_true_eq] at hp
  obtain ⟨rfl, rfl⟩ := hp
  exact hm

theorem exists_node_iff {x : Path} {p : Nat} :
    (∃ o, (Disk.ofList es as next fan).node x p = some o) ↔
      ∃ e ∈ es, e.1 = x ∧ e.2.1 = p := by
  rw [← Option.isSome_iff_exists]
  simp [Disk.ofList]

theorem dir_of_any {o : Option Obj} (h : o.any Obj.isDir = true) : ∃ b, o = some (.dir b) := by
  cases o with
  | none => cases h
  | some o =>
    obtain ⟨b, rfl⟩ := Obj.isDir_iff.mp h
    exact ⟨b, rfl⟩

theorem world_ofList (h : ListWorld N ds es (Disk.ofList es as next fan)) :
    World N (· ∈ ds) (Disk.ofList es as next fan) where
  root := h.root
  up hz := h.up _ hz
  within hn := h.within _ (mem_of_node hn)
  rooted hp := dir_of_any (h.rooted _ (List.mem_range.mpr hp))
  dir_iff hn := Obj.isDir_iff.symm.trans (h.dir_iff _ (mem_of_node hn))
  held hn := dir_of_any (h.held _ (mem_of_node hn) nofun)
  shown hz := by
    obtain ⟨p, -, hp, ho⟩ := h.shown _ hz nofun
    exact ⟨p, hp, Option.isSome_iff_exists.mp ho⟩

instance (d : Disk) : Decidable (ListWorld N ds es d) :=
  decidable_of_iff (_ ∧ _ ∧ _ ∧ _ ∧ _ ∧ _ ∧ _)
    ⟨fun ⟨a, b, c, d, e, f, g⟩ => ⟨a, b, c, d, e, f, g⟩,
      fun ⟨a, b, c, d, e, f, g⟩ => ⟨a, b, c, d, e, f, g⟩⟩

/-- The checks that make the inodes of a list private. -/
def ListPrivate (es : List (Path × Nat × Obj)) (next : Nat) : Prop :=
  ∀ e ∈ es, e.2.2.isDir ∨ ((∃ i ∈ List.range next, e.2.2 = .file i)
    ∧ ∀ e' ∈ es, e'.2 = e.2 → e'.1 = e.1)

instance : Decidable (ListPrivate es next) := by
  unfold ListPrivate
  infer_instance

theorem private_ofList {P : Path → Prop} (h : ListPrivate es next) :
    Private P (Disk.ofList es as next fan) where
  fresh {x p i} _ hn := by
    rcases h _ (mem_of_node hn) with hd | ⟨⟨j, hj, hij⟩, -⟩
    · cases hd
    · obtain rfl : i = j := Obj.file.inj hij
      exact List.mem_range.mp hj
  single {x y p i} _ _ hx hy := by
    rcases h _ (mem_of_node hx) with hd | ⟨-, hone⟩
    · cases hd
    · exact (hone _ (mem_of_node hy) rfl).symm

/-- A column is known when it is known in the partitions of the mount. -/
theorem col_of_range {D : Path → Prop} {d : Disk} {z : Path} {c : Column} (w : World N D d)
    (hz : ¬ D z) (h : ∀ p ∈ List.range N, d.col z p = c p) (hout : ∀ p, N ≤ p → c p = none) :
    d.col z = c := by
  funext p
  by_cases hp : p < N
  · exact h p (List.mem_range.mpr hp)
  · rw [hout p (not_lt.mp hp), w.col_none_iff hz]
    by_contra hne
    obtain ⟨o, ho⟩ := Option.ne_none_iff_exists'.mp hne
    exact hp (w.within ho)

/-- A plain file of a listed world. -/
theorem named_plain {D : Path → Prop} {d : Disk} {z : Path} {p i : Nat} {a : Option Ptrs}
    (w : World N D d) (hz : ¬ D z) (hcol : ∀ q ∈ List.range N, d.col z q = only p (i, a) q)
    (hp : p < N) (hn : d.node z.tail p = some (.dir true)) (ha : NoLinks a) :
    Named d z (some ⟨p, i, a, none⟩) where
  col := col_of_range w hz hcol (fun q hq => only_of_ne (ne_of_gt (lt_of_lt_of_le hp hq)))
  fits := by
    rintro f ⟨⟩
    exact ⟨hn, ha⟩

theorem named_absent {D : Path → Prop} {d : Disk} {z : Path} (w : World N D d) (hz : ¬ D z)
    (hcol : ∀ q ∈ List.range N, d.col z q = none) : Named d z none where
  col := col_of_range w hz hcol (fun _ _ => rfl)
  fits := nofun

end Lists

end Sfs
