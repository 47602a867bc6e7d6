import MultiLanes.SfsSceneProofs

/-! # SFS — what a fresh lookup sees

After a mount the cache is empty: a path is walked from the root, each name by
`sfs_lookup`.  `seenAt` is the data file that such a walk reaches.  For a directory the
walk makes a dentry that shows the disks (`walk_dirSeen`); for a file it ends with what
`validate_partitioned_file` makes of the links in the first normal partition that has
the name.  `Finds` lists what that can be, for the links that SFS itself writes. -/

namespace Sfs

open InteractProg List

/-! ## Runs without a crash or a failure -/

/-- The code runs to an end in `Q`. -/
abbrev Runs {α : Type} (c : Code α) (s : Sys) (Q : α → Sys → Prop) : Prop :=
  Does 0 (fun _ => True) (fun _ _ => True) c s Q

theorem runs_iff {α : Type} {c : Code α} {s : Sys} {Q : α → Sys → Prop} :
    Runs c s Q ↔ ∃ a t, run sysHandler c s = some (a, t) ∧ Q a t := by
  rw [Runs, Does, weathers_iff]
  simp

theorem runs_bind {α β : Type} {c : Code α} {f : α → Code β} {s : Sys} {Q : β → Sys → Prop} :
    Runs (c >>= f) s Q ↔ Runs c s (fun a t => Runs (f a) t Q) := by
  rw [Runs, does_bind]
  simp only [implies_true]

theorem Calm.runs {α : Type} {c : Code α} {s t : Sys} {a : α}
    {Q : α → Sys → Prop} (h : Calm c s a t) (hQ : Q a t) : Runs c s Q :=
  (h.does ..).mpr ⟨trivial, hQ⟩

/-! ## The result -/

/-- The data file that a dentry leads to. -/
def SfsDentry.reached (dx : SfsDentry) : Option (Nat × Nat) :=
  if dx.positive then
    dx.replicaId.bind fun p =>
      match (dx.replicas p).bind Replica.inode with
      | some (.file i) => some (p, i)
      | _ => none
  else none

/-- The cache is empty. -/
def booted (d : Disk) : Sys := ⟨fun _ => none, d, 0⟩

/-- What is seen at `x` after a mount: `none` when the walk fails, `some none`
    when there is no file. -/
def seenAt (N : Nat) (d : Disk) (x : Path) : Option (Option (Nat × Nat)) :=
  match run sysHandler (walk N x) (booted d) with
  | none => none
  | some (err, t) =>
    if err = 0 then some ((t.mem x).bind SfsDentry.reached) else none

/-! ## Looking into a partition -/

section Probe

variable {N : Nat} {s : Sys} {d : Disk} {c : Nat} {Z : Path}
  {dZ dz : SfsDentry} {p : Nat} {full : Bool} {o : Obj}

theorem tail_ne (c : Nat) (Z : Path) : Z ≠ c :: Z :=
  fun h => absurd (congrArg length h) (by simp)

/-- A partition in which the parent is not normal is passed over. -/
theorem still_probe_shadow (hZ : s.mem Z = some dZ) (hR : Reflects N d Z dZ)
    (h : d.node Z p ≠ some (.dir true)) :
    Still (probe (c :: Z) false p) (s.one (c :: Z) dz d) none (s.one (c :: Z) dz d) := by
  have hmap : dZ.normalDirMap p = false := by
    rw [← Bool.not_eq_true, hR.map]
    exact h
  simp [probe, one_mem_of_ne (tail_ne c Z), hZ, hmap]

/-- A slot that was looked up before is passed over. -/
theorem still_probe_known (hZ : s.mem Z = some dZ) (h : dz.replicas p ≠ none) :
    Still (probe (c :: Z) true p) (s.one (c :: Z) dz d) none (s.one (c :: Z) dz d) := by
  obtain ⟨r, hr⟩ := Option.ne_none_iff_exists'.mp h
  cases hb : (dZ.replicas p).bind Replica.inode <;>
    simp [probe, one_mem_of_ne (tail_ne c Z), hZ, hb, hr]

/-- There is nothing of the name in the partition. -/
theorem still_probe_none (hZ : s.mem Z = some dZ) (h : d.node (c :: Z) p = none) :
    Still (probe (c :: Z) full p) (s.one (c :: Z) dz d) none (s.one (c :: Z) dz d) := by
  by_cases hm : !full && !dZ.normalDirMap p
  · simp only [Bool.and_eq_true, Bool.not_eq_true'] at hm
    simp [probe, one_mem_of_ne (tail_ne c Z), hZ, hm]
  · simp only [Bool.and_eq_true, Bool.not_eq_true'] at hm
    cases hb : (dZ.replicas p).bind Replica.inode with
    | none => simp [probe, one_mem_of_ne (tail_ne c Z), hZ, hm, hb]
    | some i =>
      cases hr : dz.replicas p <;> simp [probe, one_mem_of_ne (tail_ne c Z), hZ, hm, hb, hr, h]

theorem still_probe_passed (hZ : s.mem Z = some dZ) (hR : Reflects N d Z dZ)
    (h : d.node Z p = some (.dir true) → d.node (c :: Z) p = none) :
    Still (probe (c :: Z) false p) (s.one (c :: Z) dz d) none (s.one (c :: Z) dz d) := by
  by_cases hp : d.node Z p = some (.dir true)
  · exact still_probe_none hZ (h hp)
  · exact still_probe_shadow hZ hR hp

/-- The name is found. -/
theorem still_probe_some (hZ : s.mem Z = some dZ) (hR : Reflects N d Z dZ)
    {b : Bool} (hb : d.node Z p = some (.dir b)) (hfull : full = true ∨ b = true)
    (hslot : dz.replicas p = none) (h : d.node (c :: Z) p = some o) :
    Still (probe (c :: Z) full p) (s.one (c :: Z) dz d) (some o.inode)
      (s.one (c :: Z) (dz.fill d (c :: Z) p) d) := by
  have hm : ¬ (full = false ∧ dZ.normalDirMap p = false) := by
    rcases hfull with rfl | rfl
    · exact fun h => nomatch h.1
    · exact fun h => nomatch h.2.symm.trans ((hR.map p).mpr hb)
  simp [probe, one_mem_of_ne (tail_ne c Z), hZ, hm, hR.dir hb, hslot, h, SfsDentry.fill, Disk.slot]

end Probe

/-! ## The scan for a file -/

section Scan

variable {N : Nat} {s : Sys} {d : Disk} {c : Nat} {Z : Path}
  {dZ dz : SfsDentry} {p i : Nat} {e : Int} {I : Disk → Prop}
  {G Q : Except Int Bool → Sys → Prop}

/-- Partitions in which the scan finds nothing. -/
theorem normalScan_append (hZ : s.mem Z = some dZ) (hR : Reflects N d Z dZ) {ps qs : List Nat}
    (h : ∀ p ∈ ps, d.node Z p = some (.dir true) → d.node (c :: Z) p = none)
    {r : Except Int Bool} {t : Sys}
    (hrest : Still (normalScan N (c :: Z) qs) (s.one (c :: Z) dz d) r t) :
    Still (normalScan N (c :: Z) (ps ++ qs)) (s.one (c :: Z) dz d) r t := by
  induction ps with
  | nil => exact hrest
  | cons p ps ih =>
    exact (still_probe_passed hZ hR (h p (.head _))).bind (ih fun q hq => h q (.tail _ hq))

theorem normalScan_none (hZ : s.mem Z = some dZ) (hR : Reflects N d Z dZ)
    {ps : List Nat} (h : ∀ p ∈ ps, d.node Z p = some (.dir true) → d.node (c :: Z) p = none) :
    Still (normalScan N (c :: Z) ps) (s.one (c :: Z) dz d) (.ok false) (s.one (c :: Z) dz d) :=
  append_nil ps ▸ normalScan_append hZ hR h .ret

theorem normalScan_file (hZ : s.mem Z = some dZ) (hR : Reflects N d Z dZ)
    (hslot : dz.replicas p = none) (hn : d.node Z p = some (.dir true))
    (hfile : d.node (c :: Z) p = some (.file i)) {ps qs : List Nat}
    (h : ∀ q ∈ ps, d.node Z q = some (.dir true) → d.node (c :: Z) q = none) :
    Does e I G (normalScan N (c :: Z) (ps ++ p :: qs)) (s.one (c :: Z) dz d) Q ↔
      Does e I G (foundFile (c :: Z) p) (s.one (c :: Z) (dz.fill d (c :: Z) p) d) Q := by
  induction ps with
  | nil =>
    rw [nil_append, normalScan, does_calm (still_probe_some hZ hR hn (.inr rfl) hslot hfile).calm]
    rfl
  | cons q ps ih =>
    rw [cons_append, normalScan, does_calm (still_probe_passed hZ hR (h q (.head _))).calm]
    exact ih (fun r hr => h r (.tail _ hr))

end Scan

/-! ## Recovery, case by case -/

/-- The result of `validate_partitioned_file` for a name of which nothing is
    known but the partition where it was found. -/
def Lands (z : Path) (r : Option (Nat × Nat)) (err : Int) (t : Sys) : Prop :=
  err = 0 ∧ ∃ dz, t.mem z = some dz ∧ dz.replicaId = r.map Prod.fst
    ∧ ∀ f ∈ r, dz.replicas f.1 = some ⟨z, some (.file f.2)⟩

/-- The dentry of `c :: Z` when `c` was found in partition `p`. -/
structure Spot (s : Sys) (d : Disk) (c : Nat) (Z : Path) (dZ dz : SfsDentry)
    (p i : Nat) : Prop where
  parent : s.mem Z = some dZ
  here : dZ.replicas p = some ⟨Z, some .dir⟩
  node : d.node (c :: Z) p = some (.file i)
  slot : dz.replicas p = some ⟨c :: Z, some (.file i)⟩
  null : ∀ {q}, q ≠ p → dz.replicas q = none
  id : dz.replicaId = none

/-- `validate_partitioned_file`, for a name found in partition `p`. -/
abbrev Recovers (s : Sys) (d : Disk) (c : Nat) (Z : Path) (dz : SfsDentry)
    (p : Nat) (r : Option (Nat × Nat)) : Prop :=
  Runs (validatePartitionedFile (c :: Z) p) (s.one (c :: Z) dz d) (Lands (c :: Z) r)

/-- No link is set. -/
def NoLinks (a : Option Ptrs) : Prop := a = none ∨ a = some Ptrs.unset

section Recovery

variable {s : Sys} {d : Disk} {c : Nat} {Z : Path} {dZ dz : SfsDentry}
  {p q i j : Nat} {a b : Option Ptrs}

theorem validate_plain (h : Spot s d c Z dZ dz p i) (ha : d.attr p i = a) (hno : NoLinks a) :
    Recovers s d c Z dz p (some (p, i)) := by
  rcases hno with rfl | rfl
  · simp [Recovers, Runs, validatePartitionedFile, SfsDentry.IsFile, ha, Lands, h.slot]
  · simp [Recovers, Runs, validatePartitionedFile, SfsDentry.IsFile, ha, Lands,
      h.slot, Ptrs.unset, validateHidden, validateRename, validatePointer]

theorem validate_self (h : Spot s d c Z dZ dz p i) (ha : d.attr p i = some (renameTo p)) :
    Recovers s d c Z dz p (some (p, i)) := by
  simp [Recovers, Runs, validatePartitionedFile, SfsDentry.IsFile, ha, Lands,
    h.slot, renameTo, Ptrs.unset, validateHidden, validateRename, checked, reset]

section Remote

variable (h : Spot s d c Z dZ dz p i) (hq : q ≠ p) (hZ : dZ.replicas q = some ⟨Z, some .dir⟩)

include h hq hZ

theorem validate_hidden (ha : d.attr p i = some (hiddenBy q))
    (hn : d.node (c :: Z) q = some (.file j)) :
    Recovers s d c Z dz p (some (q, j)) := by
  simp [Recovers, Runs, validatePartitionedFile, SfsDentry.IsFile, ha, Lands,
    h.slot, hiddenBy, Ptrs.unset, validateHidden, h.parent, h.here,
    one_mem_of_ne (tail_ne c Z), hZ, getReplicaDentry, h.null hq, hn,
    unlinkPointed, checked, simpleUnlinkNotPut, setReplica_of_ne, hq, hq.symm,
    does_unlink, h.node, onlyIf, Obj.inode, reset, bind_bind]

theorem validate_unhidden (ha : d.attr p i = some (hiddenBy q)) (hn : d.node (c :: Z) q = none) :
    Recovers s d c Z dz p (some (p, i)) := by
  simp [Recovers, Runs, validatePartitionedFile, SfsDentry.IsFile, ha, Lands,
    h.slot, hiddenBy, Ptrs.unset, validateHidden, validateRename, validatePointer,
    h.parent, one_mem_of_ne (tail_ne c Z), hZ, getReplicaDentry, h.null hq, hn,
    checked, modify, does_setxattr, setReplica_of_ne, hq.symm, bind_bind]

theorem validate_renamed (ha : d.attr p i = some (renameTo q))
    (hn : d.node (c :: Z) q = some (.file j)) :
    Recovers s d c Z dz p (some (q, j)) := by
  simp [Recovers, Runs, validatePartitionedFile, SfsDentry.IsFile, ha, Lands,
    h.slot, renameTo, Ptrs.unset, validateHidden, validateRename, h.parent,
    one_mem_of_ne (tail_ne c Z), hZ, getReplicaDentry, h.null hq, hn, hq,
    unlinkPointed, checked, setReplica_of_ne, hq.symm, Obj.inode, bind_bind]

theorem validate_unrenamed (ha : d.attr p i = some (renameTo q)) (hn : d.node (c :: Z) q = none) :
    Recovers s d c Z dz p (some (p, i)) := by
  simp [Recovers, Runs, validatePartitionedFile, SfsDentry.IsFile, ha, Lands,
    h.slot, renameTo, Ptrs.unset, validateHidden, validateRename, validatePointer,
    h.parent, one_mem_of_ne (tail_ne c Z), hZ, getReplicaDentry, h.null hq, hn,
    hq, checked, modify, does_setxattr, setReplica_of_ne, hq.symm, bind_bind]

theorem validate_staleGone (ha : d.attr p i = some (staleAt q)) (hn : d.node (c :: Z) q = none) :
    Recovers s d c Z dz p (some (p, i)) := by
  simp [Recovers, Runs, validatePartitionedFile, SfsDentry.IsFile, ha, Lands,
    h.slot, staleAt, Ptrs.unset, validateStale, reset,
    h.parent, one_mem_of_ne (tail_ne c Z), hZ, getReplicaDentry, h.null hq, hn,
    checked, setReplica_of_ne, hq.symm, bind_bind]

theorem validate_stale (ha : d.attr p i = some (staleAt q))
    (hn : d.node (c :: Z) q = some (.file j)) (hb : (d.attr q j).bind Ptrs.pointer = none) :
    Recovers s d c Z dz p (some (p, i)) := by
  simp [Recovers, Runs, validatePartitionedFile, SfsDentry.IsFile, ha, Lands,
    h.slot, staleAt, Ptrs.unset, validateStale, reset, unlinkPointed, hb,
    h.parent, one_mem_of_ne (tail_ne c Z), hZ, getReplicaDentry, h.null hq, hn,
    checked, setReplica_of_ne, hq.symm, bind_bind, Obj.inode,
    simpleUnlinkNotPut, does_unlink, onlyIf]

theorem validate_pointed (ha : d.attr p i = some (pointerTo q))
    (hn : d.node (c :: Z) q = some (.file j)) :
    Recovers s d c Z dz p (some (q, j)) := by
  by_cases hb : (d.attr q j).bind Ptrs.pointer = some p <;>
  simp [Recovers, Runs, validatePartitionedFile, SfsDentry.IsFile, ha, Lands,
    h.slot, pointerTo, Ptrs.unset, validateHidden, validateRename, validatePointer,
    h.parent, one_mem_of_ne (tail_ne c Z), hZ, getReplicaDentry, h.null hq, hn,
    hb, checked, Obj.inode, bind_bind]

/-- The meta file is deleted, and the name is not found. -/
theorem validate_dangling (ha : d.attr p i = some (pointerTo q)) (hn : d.node (c :: Z) q = none) :
    Recovers s d c Z dz p none := by
  simp [Recovers, Runs, validatePartitionedFile, SfsDentry.IsFile, ha, Lands,
    h.slot, pointerTo, Ptrs.unset, validateHidden, validateRename, validatePointer,
    h.parent, h.here, h.node, h.id, one_mem_of_ne (tail_ne c Z), hZ,
    getReplicaDentry, h.null hq, hn, simpleUnlinkNotPut, does_unlink, onlyIf,
    setReplica_of_ne, hq.symm, bind_bind]

end Remote

/-- A link to a partition in which the directory has no replica: the null
    pointer is dereferenced. -/
theorem validate_oops (h : Spot s d c Z dZ dz p i)
    (ha : d.attr p i = some (staleAt q) ∨ d.attr p i = some (renameTo q)
      ∨ d.attr p i = some (pointerTo q))
    (hq : q ≠ p) (hZ : (dZ.replicas q).bind Replica.inode = none)
    (Q : Int → Sys → Prop) :
    ¬ Runs (validatePartitionedFile (c :: Z) p) (s.one (c :: Z) dz d) Q := by
  rcases ha with ha | ha | ha
  · simp [validatePartitionedFile, SfsDentry.IsFile, ha, h.slot, staleAt,
      Ptrs.unset, validateStale, h.parent, one_mem_of_ne (tail_ne c Z), hZ,
      getReplicaDentry, h.null hq, deref, bind_bind]
  · simp [validatePartitionedFile, SfsDentry.IsFile, ha, h.slot, renameTo,
      Ptrs.unset, validateHidden, validateRename, hq, h.parent,
      one_mem_of_ne (tail_ne c Z), hZ, getReplicaDentry, h.null hq, deref,
      bind_bind]
  · simp [validatePartitionedFile, SfsDentry.IsFile, ha, h.slot, pointerTo,
      Ptrs.unset, validateHidden, validateRename, validatePointer, h.parent,
      one_mem_of_ne (tail_ne c Z), hZ, getReplicaDentry, h.null hq, deref,
      bind_bind]

end Recovery

/-! ## What is found -/

/-- The scan meets the name first in partition `p`. -/
structure First (d : Disk) (z : Path) (p i : Nat) (a : Option Ptrs) :
    Prop where
  normal : d.node z.tail p = some (.dir true)
  col : d.col z p = some (i, a)
  before : ∀ {q}, q < p → d.node z.tail q = some (.dir true) → d.col z q = none

/-- The directory has a replica in the partition. -/
def Disk.Holds (d : Disk) (Z : Path) (p : Nat) : Prop :=
  ∃ b, d.node Z p = some (.dir b)

/-- What a fresh lookup finds, by the links of what it meets first. -/
inductive Finds (d : Disk) (z : Path) : Option (Nat × Nat) → Prop
  | absent (h : ∀ p, d.node z.tail p = some (.dir true) → d.col z p = none) :
      Finds d z none
  | plain {p i a} (h : First d z p i a) (ha : NoLinks a) :
      Finds d z (some (p, i))
  | self {p i} (h : First d z p i (some (renameTo p))) :
      Finds d z (some (p, i))
  | hidden {p i q j b} (h : First d z p i (some (hiddenBy q))) (hq : q ≠ p)
      (hn : d.col z q = some (j, b)) : Finds d z (some (q, j))
  | unhidden {p i q} (h : First d z p i (some (hiddenBy q))) (hq : q ≠ p)
      (hZ : d.Holds z.tail q) (hn : d.col z q = none) : Finds d z (some (p, i))
  | renamed {p i q j b} (h : First d z p i (some (renameTo q))) (hq : q ≠ p)
      (hn : d.col z q = some (j, b)) : Finds d z (some (q, j))
  | unrenamed {p i q} (h : First d z p i (some (renameTo q))) (hq : q ≠ p)
      (hZ : d.Holds z.tail q) (hn : d.col z q = none) : Finds d z (some (p, i))
  | staleGone {p i q} (h : First d z p i (some (staleAt q))) (hq : q ≠ p)
      (hZ : d.Holds z.tail q) (hn : d.col z q = none) : Finds d z (some (p, i))
  | stale {p i q j b} (h : First d z p i (some (staleAt q))) (hq : q ≠ p)
      (hn : d.col z q = some (j, b)) (hb : b.bind Ptrs.pointer = none) :
      Finds d z (some (p, i))
  | pointed {p i q j b} (h : First d z p i (some (pointerTo q))) (hq : q ≠ p)
      (hn : d.col z q = some (j, b)) : Finds d z (some (q, j))
  | dangling {p i q} (h : First d z p i (some (pointerTo q))) (hq : q ≠ p)
      (hZ : d.Holds z.tail q) (hn : d.col z q = none) : Finds d z none

/-- A lookup that stumbles over a link to a partition where the directory is not. -/
def Stumbles (d : Disk) (z : Path) : Prop :=
  ∃ p i q, q ≠ p ∧ d.node z.tail q = none
    ∧ (First d z p i (some (staleAt q)) ∨ First d z p i (some (renameTo q))
      ∨ First d z p i (some (pointerTo q)))

section Found

variable {N : Nat} {D : Path → Prop} {s : Sys} {c : Nat} {Z : Path}
  {p i : Nat} {a : Option Ptrs} {r : Option (Nat × Nat)}

theorem range_split {p N : Nat} (h : p < N) : ∃ qs, range N = range p ++ p :: qs := by
  obtain ⟨k, rfl⟩ := Nat.exists_eq_add_of_lt h
  refine ⟨(range k).map (fun j => p + (j + 1)), ?_⟩
  rw [Nat.add_assoc, range_add, range_succ_eq_map, map_cons, map_map]
  rfl

/-- The lookup of a name that is met in partition `p`. -/
theorem does_sfsLookup_first (w : World N D s.disk) (hD : ¬ D (c :: Z)) {dZ : SfsDentry}
    (hZ : s.mem Z = some dZ) (hR : Reflects N s.disk Z dZ) (h : First s.disk (c :: Z) p i a)
    {e : Int} {I : Disk → Prop} {G Q : Int → Sys → Prop} :
    Does e I G (sfsLookup N (c :: Z)) s Q ↔
      Does e I G (foundFile (c :: Z) p >>= fun r => match r with
        | .error err => .ret err
        | .ok found => instantiate (c :: Z) found >>= fun _ => .ret 0)
        (s.one (c :: Z) (SfsDentry.fresh.fill s.disk (c :: Z) p) s.disk) Q := by
  obtain ⟨qs, hqs⟩ := range_split (w.within h.normal)
  have hbefore : ∀ q ∈ range p, s.disk.node Z q = some (.dir true) →
      s.disk.node (c :: Z) q = none := by
    intro q hq hn
    exact (w.col_none_iff hD).mp (h.before (mem_range.mp hq) hn)
  rw [sfsLookup, does_setD, setD_eq_one, does_bind, hqs,
    normalScan_file hZ hR rfl h.normal (col_eq_some.mp h.col).1 hbefore,
    does_bind]
  rfl

/-- The rest of the lookup, after the recovery. -/
theorem lookup_of_lands (w : World N D s.disk) (hD : ¬ D (c :: Z))
    {dZ : SfsDentry} (hZ : s.mem Z = some dZ) (hR : Reflects N s.disk Z dZ)
    (h : First s.disk (c :: Z) p i a)
    (hv : Runs (validatePartitionedFile (c :: Z) p)
      (s.one (c :: Z) (SfsDentry.fresh.fill s.disk (c :: Z) p) s.disk)
      (Lands (c :: Z) r)) :
    Runs (sfsLookup N (c :: Z)) s
      (fun err t => err = 0 ∧ (t.mem (c :: Z)).bind SfsDentry.reached = r) := by
  rw [Runs, does_sfsLookup_first w hD hZ hR h, foundFile, bind_bind, ← Runs, runs_bind]
  refine Does.mono hv ?_
  rintro err t ⟨rfl, dz, hdz, hid, hslot⟩
  cases r with
  | none =>
    simp [hdz, hid, instantiate, SfsDentry.reached, setD_eq_one, bind_bind]
  | some f =>
    have hf := hslot f rfl
    have hid' : dz.replicaId = some f.1 := hid
    simp [hdz, hid', hf, instantiate, SfsDentry.reached, setD_eq_one, bind_bind]

theorem First.spot {dZ : SfsDentry} (hZ : s.mem Z = some dZ) (hR : Reflects N s.disk Z dZ)
    (h : First s.disk (c :: Z) p i a) :
    Spot s s.disk c Z dZ (SfsDentry.fresh.fill s.disk (c :: Z) p) p i where
  parent := hZ
  here := hR.dir h.normal
  node := (col_eq_some.mp h.col).1
  slot := by
    rw [SfsDentry.fill, setReplica_self, Disk.slot, (col_eq_some.mp h.col).1]
    rfl
  null hq := by
    rw [SfsDentry.fill, setReplica_of_ne hq]
    rfl
  id := rfl

theorem Disk.Holds.slot {d : Disk} {dZ : SfsDentry} (h : d.Holds Z p)
    (hR : Reflects N d Z dZ) : dZ.replicas p = some ⟨Z, some .dir⟩ := by
  obtain ⟨b, hb⟩ := h
  exact hR.dir hb

/-- The lookup of a name by a process that has its directory in the cache. -/
theorem Finds.lookup (w : World N D s.disk) (hD : ¬ D (c :: Z)) {dZ : SfsDentry}
    (hZ : s.mem Z = some dZ) (hR : Reflects N s.disk Z dZ) (h : Finds s.disk (c :: Z) r) :
    Runs (sfsLookup N (c :: Z)) s
      (fun err t => err = 0 ∧ (t.mem (c :: Z)).bind SfsDentry.reached = r) := by
  have hnode : ∀ {q}, s.disk.col (c :: Z) q = none →
      s.disk.node (c :: Z) q = none := fun h => (w.col_none_iff hD).mp h
  have hfile : ∀ {q j b}, s.disk.col (c :: Z) q = some (j, b) →
      s.disk.node (c :: Z) q = some (.file j) ∧ s.disk.attr q j = b
        ∧ dZ.replicas q = some ⟨Z, some .dir⟩ := by
    intro q j b h
    obtain ⟨hn, ha⟩ := col_eq_some.mp h
    obtain ⟨b', hb'⟩ := w.held hn
    exact ⟨hn, ha, hR.dir hb'⟩
  have hattr : ∀ {p i a}, First s.disk (c :: Z) p i a →
      s.disk.attr p i = a := fun h => (col_eq_some.mp h.col).2
  cases h with
  | absent h =>
    have hscan : Calm (normalScan N (c :: Z) (range N))
        (s.one (c :: Z) .fresh s.disk) (.ok false)
        (s.one (c :: Z) .fresh s.disk) :=
      (normalScan_none hZ hR (fun p _ hp => hnode (h p hp))).calm
    rw [sfsLookup, Runs, does_setD, setD_eq_one, does_calm hscan]
    simp [instantiate, SfsDentry.reached]
  | plain h ha =>
    exact lookup_of_lands w hD hZ hR h (validate_plain (h.spot hZ hR) (hattr h) ha)
  | self h =>
    exact lookup_of_lands w hD hZ hR h (validate_self (h.spot hZ hR) (hattr h))
  | hidden h hq hn =>
    obtain ⟨hn, -, hs⟩ := hfile hn
    exact lookup_of_lands w hD hZ hR h (validate_hidden (h.spot hZ hR) hq hs (hattr h) hn)
  | unhidden h hq hh hn =>
    exact lookup_of_lands w hD hZ hR h
      (validate_unhidden (h.spot hZ hR) hq (hh.slot hR) (hattr h) (hnode hn))
  | renamed h hq hn =>
    obtain ⟨hn, -, hs⟩ := hfile hn
    exact lookup_of_lands w hD hZ hR h (validate_renamed (h.spot hZ hR) hq hs (hattr h) hn)
  | unrenamed h hq hh hn =>
    exact lookup_of_lands w hD hZ hR h
      (validate_unrenamed (h.spot hZ hR) hq (hh.slot hR) (hattr h) (hnode hn))
  | staleGone h hq hh hn =>
    exact lookup_of_lands w hD hZ hR h
      (validate_staleGone (h.spot hZ hR) hq (hh.slot hR) (hattr h) (hnode hn))
  | stale h hq hn hb =>
    obtain ⟨hn, ha, hs⟩ := hfile hn
    exact lookup_of_lands w hD hZ hR h
      (validate_stale (h.spot hZ hR) hq hs (hattr h) hn (by rw [ha]; exact hb))
  | pointed h hq hn =>
    obtain ⟨hn, -, hs⟩ := hfile hn
    exact lookup_of_lands w hD hZ hR h (validate_pointed (h.spot hZ hR) hq hs (hattr h) hn)
  | dangling h hq hh hn =>
    exact lookup_of_lands w hD hZ hR h
      (validate_dangling (h.spot hZ hR) hq (hh.slot hR) (hattr h) (hnode hn))

theorem Stumbles.lookup (w : World N D s.disk) (hD : ¬ D (c :: Z))
    {dZ : SfsDentry} (hZ : s.mem Z = some dZ) (hR : Reflects N s.disk Z dZ)
    (h : Stumbles s.disk (c :: Z)) (Q : Int → Sys → Prop) :
    ¬ Runs (sfsLookup N (c :: Z)) s Q := by
  obtain ⟨p, i, q, hq, hnone, h⟩ := h
  have key : ∀ {a}, First s.disk (c :: Z) p i (some a) →
      a = staleAt q ∨ a = renameTo q ∨ a = pointerTo q →
      ¬ Runs (sfsLookup N (c :: Z)) s Q := by
    intro a h ha
    have hattr := (col_eq_some.mp h.col).2
    rw [Runs, does_sfsLookup_first w hD hZ hR h, foundFile, bind_bind, ← Runs, runs_bind]
    refine validate_oops (h.spot hZ hR) ?_ hq (hR.lacks hnone) _
    rcases ha with rfl | rfl | rfl
    · exact .inl hattr
    · exact .inr (.inl hattr)
    · exact .inr (.inr hattr)
  rcases h with h | h | h
  · exact key h (.inl rfl)
  · exact key h (.inr (.inl rfl))
  · exact key h (.inr (.inr rfl))

end Found

end Sfs
