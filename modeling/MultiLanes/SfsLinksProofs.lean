import MultiLanes.SfsRenameCrashProofs

/-! # SFS — where the links of a rename lead

`validate_partitioned_file` takes the ids in the attribute of a file and looks its name
up in those partitions of ITS directory: where the directory has no replica,
`find_replica_dentry` gives a null pointer, and it is dereferenced (`FollowsId.oops`).
A rename writes such ids to the source while the source is still in the old directory,
but means the new one.

All through a rename the ids that a lookup follows lead to replicas EXACTLY when a
lookup of the source comes by its meta file, or the old directory is there too where the
link of the source leads to (`SafelyLinked`). -/

namespace Sfs

open InteractProg Function List Option

/-! ## The ids that a lookup follows -/

/-- Conditions 2 and 3: the rename link, if it is not to the file itself, and
    then the pointer, whether or not the renamed file is there. -/
def Ptrs.onward (v : Ptrs) (p : Nat) : List Nat :=
  match v.rename with
  | some q => if q = p then [] else q :: v.pointer.toList
  | none => v.pointer.toList

/-- The ids that `validate_partitioned_file` follows from the file in partition
    `p`; the other files of the name are in `c`. -/
def Ptrs.followed (v : Ptrs) (p : Nat) (c : Column) : List Nat :=
  match v.stale with
  | some q => q :: ((c q).bind (fun f => f.2.bind Ptrs.pointer)).toList
  | none =>
    match v.hidden with
    | some q => q :: (if (c q).isSome then v.pointer.toList else v.onward p)
    | none => v.onward p

/-- A lookup of `z` follows the id `q`. -/
def FollowsId (d : Disk) (z : Path) (q : Nat) : Prop :=
  ∃ p i v, First d z p i (some v) ∧ q ∈ v.followed p (d.col z)

/-- Every id that a lookup of `z` follows is a partition in which the directory
    of `z` has a replica, and `find_replica_dentry` gives it. -/
def Resolves (N : Nat) (d : Disk) (z : Path) : Prop :=
  ∀ q, FollowsId d z q → d.Holds z.tail q
    ∧ ∀ dz, Reflects N d z.tail dz → dz.replicas q = some ⟨z.tail, some .dir⟩

/-- All file names in `P` resolve. -/
def Resolved (N : Nat) (D P : Path → Prop) (d : Disk) : Prop :=
  ∀ z, P z → ¬ D z → D z.tail → Resolves N d z

section Lookups

variable {N : Nat} {D : Path → Prop} {d d' : Disk} {z Z : Path} {s : Sys}
  {c p q i j : Nat} {a b : Option Ptrs} {dZ dz : SfsDentry} {v : Ptrs}

theorem resolves_of_held (h : ∀ q, FollowsId d z q → d.Holds z.tail q) : Resolves N d z :=
  fun q hq => ⟨h q hq, fun _ hR => (h q hq).slot hR⟩

/-- A null slot, in a partition where the directory is not. -/
structure Blind (s : Sys) (Z : Path) (dZ dz : SfsDentry) (q : Nat) : Prop where
  parent : s.mem Z = some dZ
  lacks : (dZ.replicas q).bind Replica.inode = none
  slot : dz.replicas q = none

theorem Blind.fill (h : Blind s Z dZ dz q) (hp : p ≠ q) {r : Option Replica} {id : Option Nat} :
    Blind s Z dZ { dz.setReplica p r with replicaId := id } q :=
  ⟨h.parent, h.lacks, (setReplica_of_ne hp.symm).trans h.slot⟩

/-- Condition 3 dereferences the parent in the partition of the pointer. -/
theorem Blind.pointer (h : Blind s Z dZ dz q) (hv : v.pointer = some q) (Q : Int → Sys → Prop) :
    ¬ Runs (validatePointer (c :: Z) p v) (s.one (c :: Z) dz d) Q := by
  simp [validatePointer, hv, h.parent, one_mem_of_ne (tail_ne c Z), h.lacks,
    getReplicaDentry, h.slot, deref, bind_bind]

theorem Blind.unlink (h : Blind s Z dZ dz q)
    (hv : a.bind Ptrs.pointer = some q) (k : Code Int) (Q : Int → Sys → Prop) :
    ¬ Runs (checked (unlinkPointed (c :: Z) a) k) (s.one (c :: Z) dz d) Q := by
  simp [checked, unlinkPointed, unlinkIfThere, hv, h.parent,
    one_mem_of_ne (tail_ne c Z), h.lacks, getReplicaDentry, h.slot, deref,
    bind_bind]

variable {Q : Int → Sys → Prop}

/-- What a lookup in another partition leaves. -/
theorem Blind.look (h : Blind s Z dZ dz q) (hp : p ≠ q)
    {f : Option Replica → Replica → Code Int}
    (hf : ∀ dz' r, Blind s Z dZ dz' q → dz'.replicas p = some r ∧ (dz.replicas p = some r
          ∨ dz.replicas p = none ∧ r = d.slot (c :: Z) p) →
      ∀ parent, ¬ Runs (f parent r) (s.one (c :: Z) dz' d) Q) :
    ¬ Runs (findReplicaDentry Z p >>= fun parent =>
      getReplicaDentry parent (c :: Z) p >>= f parent)
      (s.one (c :: Z) dz d) Q := by
  cases hr : dz.replicas p with
  | some r =>
    have hno := hf dz r h ⟨hr, .inl hr⟩ (dZ.replicas p)
    simpa [getReplicaDentry, h.parent, one_mem_of_ne (tail_ne c Z), hr, bind_bind] using hno
  | none =>
    cases hZ : (dZ.replicas p).bind Replica.inode with
    | none =>
      simp [getReplicaDentry, h.parent, one_mem_of_ne (tail_ne c Z), hr, hZ, deref, bind_bind]
    | some o =>
      have hno := hf (dz.fill d (c :: Z) p) (d.slot (c :: Z) p)
        (h.fill hp) ⟨setReplica_self, .inr ⟨hr, rfl⟩⟩ (dZ.replicas p)
      simpa [getReplicaDentry, h.parent, one_mem_of_ne (tail_ne c Z), hr, hZ,
        deref, bind_bind, Disk.slot, SfsDentry.fill] using hno

theorem Blind.oops (h : Blind s Z dZ dz q) {f : Option Replica → Replica → Code Int} :
    ¬ Runs (findReplicaDentry Z q >>= fun parent =>
      getReplicaDentry parent (c :: Z) q >>= f parent)
      (s.one (c :: Z) dz d) Q := by
  simp [getReplicaDentry, h.parent, one_mem_of_ne (tail_ne c Z), h.lacks, h.slot, deref, bind_bind]

/-- A field is cleared, and the code that goes on stops. -/
theorem not_runs_modify {x : Path} {f : Ptrs → Ptrs} {k : Code Int}
    (hk : ∀ {d'}, ¬ Runs k (s.onDisk d') Q) :
    ¬ Runs (checked (modify x p f) k) s Q := by
  simp [checked, modify, does_setxattr, bind_bind, hk]

/-- Conditions 2 and 3. -/
theorem Blind.onward (h : Blind s Z dZ dz q) (hq : q ∈ v.onward p) :
    ¬ Runs (validateRename (c :: Z) p v (validatePointer (c :: Z) p v))
      (s.one (c :: Z) dz d) Q := by
  unfold Ptrs.onward at hq
  unfold validateRename
  cases hr : v.rename with
  | none =>
    rw [hr] at hq
    exact h.pointer (mem_toList.mp hq) Q
  | some r =>
    simp only [hr] at hq ⊢
    by_cases hrp : r = p
    · rw [if_pos hrp] at hq
      cases hq
    rw [if_neg hrp] at hq ⊢
    by_cases hrq : r = q
    · subst hrq
      exact h.oops
    have hv := (mem_cons.mp hq).resolve_left (Ne.symm hrq)
    have hv := mem_toList.mp hv
    refine h.look hrq (fun dz' rep hb _ parent => ?_)
    cases hi : rep.inode.isSome with
    | true => exact hb.unlink (a := some v) hv _ Q
    | false => exact not_runs_modify (hb.pointer hv Q)

/-- What is found in partition `e` is the file of the name there. -/
theorem Spot.found {e : Nat} {r : Replica} (h : Spot s d c Z dZ dz p i)
    (w : World N D d) (hD : ¬ D (c :: Z))
    (hr : dz.replicas e = some r ∨ dz.replicas e = none ∧ r = d.slot (c :: Z) e) :
    r.inode = (d.col (c :: Z) e).map (fun f => .file f.1) := by
  rcases hr with hr | ⟨-, rfl⟩
  · have hep : e = p := by
      by_contra hne
      cases (h.null hne).symm.trans hr
    cases hr.symm.trans (hep ▸ h.slot)
    rw [hep, Disk.col, h.node]
    rfl
  · rw [w.slot_eq hD]

/-- Condition 1, and those after it. -/
theorem Blind.hidden (h : Blind s Z dZ dz q) (hs : Spot s d c Z dZ dz p i) (w : World N D d)
    (hD : ¬ D (c :: Z)) (hv : v.stale = none) (hq : q ∈ v.followed p (d.col (c :: Z))) :
    ¬ Runs (validateHidden (c :: Z) p v
        (validateRename (c :: Z) p v (validatePointer (c :: Z) p v)))
      (s.one (c :: Z) dz d) Q := by
  unfold Ptrs.followed at hq
  unfold validateHidden
  rw [hv] at hq
  cases he : v.hidden with
  | none =>
    rw [he] at hq
    exact h.onward hq
  | some e =>
    simp only [he] at hq ⊢
    by_cases heq : e = q
    · subst heq
      exact h.oops
    have hq := (mem_cons.mp hq).resolve_left (Ne.symm heq)
    refine h.look heq (fun dz' rep hb hrep parent => ?_)
    have hsome : rep.inode.isSome = (d.col (c :: Z) e).isSome := by
      rw [hs.found w hD hrep.2, isSome_map]
    rw [hsome]
    cases hc : (d.col (c :: Z) e).isSome with
    | true =>
      rw [hc] at hq
      exact hb.unlink (a := some v) (mem_toList.mp hq) _ Q
    | false =>
      rw [hc] at hq
      refine not_runs_modify (fun {d'} => ?_)
      have hb' : Blind s Z dZ { dz' with replicaId := some p } q :=
        ⟨hb.parent, hb.lacks, hb.slot⟩
      have hno := hb'.onward (c := c) (d := d') (Q := Q) hq
      simpa using hno

/-- Condition 0. -/
theorem Blind.stale {e : Nat} (h : Blind s Z dZ dz q) (hs : Spot s d c Z dZ dz p i)
    (w : World N D d) (hD : ¬ D (c :: Z)) (hv : v.stale = some e)
    (hq : q ∈ v.followed p (d.col (c :: Z))) :
    ¬ Runs (validateStale (c :: Z) p e) (s.one (c :: Z) dz d) Q := by
  unfold Ptrs.followed at hq
  rw [hv] at hq
  by_cases heq : e = q
  · subst heq
    exact h.oops
  have hq := (mem_cons.mp hq).resolve_left (Ne.symm heq)
  obtain ⟨⟨j, b⟩, hc, hb⟩ :=
    bind_eq_some_iff.mp (mem_toList.mp hq)
  refine h.look heq (fun dz' rep hbl hrep parent => ?_)
  have hi : rep.inode = some (.file j) := by
    rw [hs.found w hD hrep.2, hc]
    rfl
  have hattr : d.attr e j = b := (col_eq_some.mp hc).2
  have hget : ((dz'.replicas e).bind Replica.inode) = some (.file j) := by
    rw [hrep.1]
    exact hi
  rw [hi, isSome_some, if_pos rfl, checked, runs_bind]
  refine fun hrun => ?_
  obtain ⟨dx, hdx, k, hk, hrun⟩ := does_get.mp hrun
  cases one_mem.symm.trans hdx
  obtain rfl : j = k := by simpa [SfsDentry.IsFile, hget] using hk
  rw [one_disk, hattr] at hrun
  exact hbl.unlink hb _ _ hrun

/-- A lookup that follows an id to a partition where the directory is not
    dereferences a null pointer. -/
theorem FollowsId.oops (w : World N D s.disk) (hD : ¬ D (c :: Z)) (hZ : s.mem Z = some dZ)
    (hR : Reflects N s.disk Z dZ) (hq : FollowsId s.disk (c :: Z) q) (hno : ¬ s.disk.Holds Z q) :
    run sysHandler (sfsLookup N (c :: Z)) s = none := by
  obtain ⟨p, i, v, hfirst, hq⟩ := hq
  have hs := hfirst.spot hZ hR
  have hdir : D Z := (w.dir_iff hfirst.normal).mp ⟨true, rfl⟩
  have hnone := (w.holds_or hdir).resolve_left hno
  have hqp : q ≠ p := by
    rintro rfl
    cases hnone.symm.trans hfirst.normal
  have hb : Blind s Z dZ (SfsDentry.fresh.fill s.disk (c :: Z) p) q :=
    ⟨hZ, hR.lacks hnone, hs.null hqp⟩
  have hattr := (col_eq_some.mp hfirst.col).2
  have hval : ∀ Q, ¬ Runs (validatePartitionedFile (c :: Z) p)
      (s.one (c :: Z) (SfsDentry.fresh.fill s.disk (c :: Z) p) s.disk) Q := by
    intro Q hrun
    obtain ⟨dx, hdx, k, hk, hrun⟩ := does_get.mp hrun
    cases one_mem.symm.trans hdx
    obtain rfl : i = k := by simpa [SfsDentry.IsFile, hs.slot] using hk
    rw [one_disk, hattr] at hrun
    cases hv : v.stale with
    | none =>
      simp only [hv] at hrun
      exact hb.hidden hs w hD hv hq hrun
    | some e =>
      simp only [hv] at hrun
      exact hb.stale hs w hD hv hq hrun
  by_contra hrun
  obtain ⟨⟨err, t⟩, hrun⟩ := ne_none_iff_exists'.mp hrun
  have hr : Runs (sfsLookup N (c :: Z)) s (fun _ _ => True) :=
    runs_iff.mpr ⟨err, t, hrun, trivial⟩
  rw [Runs, does_sfsLookup_first w hD hZ hR hfirst, foundFile, bind_bind, ← Runs, runs_bind] at hr
  exact hval _ hr

end Lookups

/-! ## Links that lead to replicas -/

/-- The links of a file in partition `p` lead to partitions where directory `Z` is. -/
inductive Aims (d : Disk) (Z : Path) (p : Nat) : Option Ptrs → Prop
  | plain {a} (ha : NoLinks a) : Aims d Z p a
  | self : Aims d Z p (some (renameTo p))
  | hidden {q} (hh : d.Holds Z q) : Aims d Z p (some (hiddenBy q))
  | renamed {q} (hh : d.Holds Z q) : Aims d Z p (some (renameTo q))
  | pointed {q} (hh : d.Holds Z q) : Aims d Z p (some (pointerTo q))

/-- The same, or there is a stale file, and its own pointer does so. -/
inductive Leads (d : Disk) (Z : Path) (c : Column) (p : Nat) :
    Option Ptrs → Prop
  | points {a} (h : Aims d Z p a) : Leads d Z c p a
  | stale {q} (hh : d.Holds Z q)
      (hb : ∀ {f r}, c q = some f → f.2.bind Ptrs.pointer = some r →
        d.Holds Z r) : Leads d Z c p (some (staleAt q))

/-- All links of a column do so, none of which is stale. -/
def Sturdy (d : Disk) (Z : Path) (c : Column) : Prop :=
  ∀ p f, c p = some f → Aims d Z p f.2

/-- All links of a column do so. -/
def Leading (d : Disk) (Z : Path) (c : Column) : Prop :=
  ∀ p f, c p = some f → Leads d Z c p f.2

section Columns

variable {N : Nat} {d d' : Disk} {z Z : Path} {c : Column} {p q i : Nat}
  {a : Option Ptrs} {f : File}

theorem Aims.congr (h : Aims d Z p a) (hh : ∀ {q}, d.Holds Z q → d'.Holds Z q) : Aims d' Z p a := by
  cases h with
  | plain ha => exact .plain ha
  | self => exact .self
  | hidden hq => exact .hidden (hh hq)
  | renamed hq => exact .renamed (hh hq)
  | pointed hq => exact .pointed (hh hq)

theorem Leads.congr (h : Leads d Z c p a)
    (hh : ∀ {q}, d.Holds Z q → d'.Holds Z q) : Leads d' Z c p a := by
  cases h with
  | points h => exact .points (h.congr hh)
  | stale hq hb => exact .stale (hh hq) (fun hf hr => hh (hb hf hr))

/-- The ids that are followed from such a file. -/
theorem Leads.held {v : Ptrs} (h : Leads d Z c p (some v))
    (hq : q ∈ v.followed p c) : d.Holds Z q := by
  cases h with
  | stale hh hb =>
    simp only [Ptrs.followed, staleAt, mem_cons, mem_toList, bind_eq_some_iff] at hq
    rcases hq with rfl | ⟨f, hf, hr⟩
    · exact hh
    · exact hb hf (bind_eq_some_iff.mpr hr)
  | points h =>
    cases h with
    | plain ha =>
      rcases ha with ha | ha
      · cases ha
      · cases ha
        simp [Ptrs.followed, Ptrs.onward, Ptrs.unset] at hq
    | self =>
      simp [Ptrs.followed, Ptrs.onward, renameTo, Ptrs.unset] at hq
    | hidden hh =>
      simp only [Ptrs.followed, Ptrs.onward, hiddenBy, Ptrs.unset,
        toList_none, ite_self, mem_singleton] at hq
      exact hq ▸ hh
    | renamed hh =>
      simp only [Ptrs.followed, Ptrs.onward, renameTo, Ptrs.unset] at hq
      split at hq
      · cases hq
      · cases mem_singleton.mp hq
        exact hh
    | pointed hh =>
      cases mem_singleton.mp hq
      exact hh

/-- A name resolves when what is met first leads to replicas. -/
theorem resolves_of_first (h : ∀ {p i a}, First d z p i a →
    Leads d z.tail (d.col z) p a) : Resolves N d z := by
  refine resolves_of_held (fun q hq => ?_)
  obtain ⟨p, i, v, hfirst, hq⟩ := hq
  exact (h hfirst).held hq

theorem Leading.resolves (h : Leading d z.tail (d.col z)) : Resolves N d z :=
  resolves_of_first (fun hfirst => h _ _ hfirst.col)

theorem Sturdy.leading (h : Sturdy d Z c) : Leading d Z c :=
  fun p f hf => .points (h p f hf)

theorem sturdy_noFile : Sturdy d Z noFile := nofun

theorem Sturdy.set (h : Sturdy d Z c) (ha : Aims d Z p a) :
    Sturdy d Z (update c p (some (i, a))) := by
  intro q f hf
  by_cases hq : q = p
  · subst hq
    rw [update_self] at hf
    cases hf
    exact ha
  · rw [update_of_ne hq] at hf
    exact h q f hf

theorem Sturdy.clear (h : Sturdy d Z c) : Sturdy d Z (update c p none) := by
  intro q f hf
  by_cases hq : q = p
  · subst hq
    rw [update_self] at hf
    cases hf
  · rw [update_of_ne hq] at hf
    exact h q f hf

/-- A stale link is added; the file it leads to has no pointer. -/
theorem Sturdy.stale (h : Sturdy d Z c) (hh : d.Holds Z q) (hq : q ≠ p)
    (hb : ∀ {f}, c q = some f → f.2.bind Ptrs.pointer = none) :
    Leading d Z (update c p (some (i, some (staleAt q)))) := by
  intro k f hf
  by_cases hk : k = p
  · subst hk
    rw [update_self] at hf
    cases hf
    refine .stale hh (fun hg hr => ?_)
    rw [update_of_ne hq] at hg
    cases (hb hg).symm.trans hr
  · rw [update_of_ne hk] at hf
    exact .points (h k f hf)

/-- The column of a file in a directory that is where the file is. -/
theorem File.sturdy (hplain : f.parted = none → NoLinks f.attr)
    (hsplit : ∀ {m}, f.parted = some m → f.attr = some (pointerTo m.1))
    (hdata : d.Holds Z f.data) (hmeta : ∀ m ∈ f.parted, d.Holds Z m.1) :
    Sturdy d Z f.col := by
  show Sturdy d Z (f.colWith f.attr)
  cases hm : f.parted with
  | none =>
    rw [File.colWith_plain hm]
    exact sturdy_noFile.set (.plain (hplain hm))
  | some m =>
    rw [File.colWith_parted hm, hsplit hm]
    have hh := hmeta m hm
    exact (sturdy_noFile.set (.pointed hh)).set (.pointed hdata)

end Columns

/-! ## Names in the course of a rename -/

/-- What is written to the source while it is in its place; `link` is a link to
    a partition where the new directory is. -/
inductive Bears (s : Sys) (x y : Path) (f : File) : Option Ptrs → Prop
  | own : Bears s x y f f.attr
  | bare {a} (ha : NoLinks a) : Bears s x y f a
  | self : Bears s x y f (some (renameTo f.data))
  | link {q v} (hq : q ≠ f.data) (hy : s.disk.Holds y.tail q)
      (hl : Linkable s.disk x f q) (hv : v = staleAt q ∨ v = renameTo q) :
      Bears s x y f (some v)

section Names

variable {N : Nat} {D P : Path → Prop} {s t : Sys} {x y z : Path} {f g : File}
  {F G : Option File} {cx cy : Column} {d d' : Disk} {a : Option Ptrs}
  {p q i : Nat} {v : Ptrs}

/-- A consistent name, also when its directory has got more replicas. -/
theorem Named.sturdy (h : Named d z F) (w : World N D d) (hz : ¬ D z)
    (hh : ∀ {q}, d.Holds z.tail q → d'.Holds z.tail q) :
    Sturdy d' z.tail (column F) := by
  cases F with
  | none => exact sturdy_noFile
  | some f =>
    have hfit := h.fits f rfl
    exact File.sturdy (fun hp => (hfit.plain hp).2)
      (fun hm => (hfit.split hm).2.2) (hh (w.parent hz h.data_node))
      (fun m hm => hh (w.parent hz (h.meta_node hm).1))

theorem Named.resolves (h : Named d z F) (w : World N D d) (hz : ¬ D z) : Resolves N d z := by
  refine Leading.resolves ?_
  rw [h.col]
  exact (h.sturdy w hz id).leading

section

variable (h : Stand N D P x y f G s t)
include h

/-- A name that the rename does not work on. -/
theorem Stand.resolves_other (hv : View N D P t.disk x y cx cy d) (hz : ¬ D z) (hZ : D z.tail)
    (hP : P z) (hx : z ≠ x) (hy : z ≠ y) (hn : Named s.disk z F) : Resolves N d z := by
  have hcol : d.col z = column F :=
    (hv.others hP hx hy).trans ((h.entry.grown.col hz).trans hn.col)
  refine Leading.resolves ?_
  rw [hcol]
  exact (hn.sturdy h.scene.world hz (hv.holds_of h hZ)).leading

/-- A plain source is met at its data file. -/
theorem Stand.leads_plain (hp : f.parted = none)
    (hb : Bears s x y f a) (hv : View N D P t.disk x y (f.colWith a) cy d) :
    Leads d x.tail (d.col x) f.data a := by
  cases hb with
  | own => exact .points (.plain ((h.scene.old.named.fits f rfl).plain hp).2)
  | bare ha => exact .points (.plain ha)
  | self => exact .points .self
  | link hq hy hl ha =>
    have hh := hv.holds_of h h.scene.old.dir (hl.resolve_left (· hp))
    rcases ha with rfl | rfl
    · refine .stale hh (fun hf _ => ?_)
      rw [hv.left, File.colWith_plain hp, only_of_ne hq] at hf
      cases hf
    · exact .points (.renamed hh)

/-- The data file of a partitioned source is met only when the old directory is the new one. -/
theorem Stand.leads_exposed {m : Nat × Nat} (hm : f.parted = some m) (hb : Bears s x y f a)
    (hv : View N D P t.disk x y (f.colWith a) cy d) (hn : d.node x.tail f.data = some (.dir true)) :
    Leads d x.tail (d.col x) f.data a := by
  have hfit := h.scene.old.named.fits f rfl
  obtain ⟨hmn, hon, hattr⟩ := hfit.split hm
  have htail : x.tail = y.tail :=
    (((hv.normal_old h).mp hn).resolve_left hon).2.1
  have hhm : d.Holds x.tail m.1 := hv.holds_of h h.scene.old.dir ⟨true, hmn⟩
  cases hb with
  | own =>
    rw [hattr]
    exact .points (.pointed hhm)
  | bare ha => exact .points (.plain ha)
  | self => exact .points .self
  | @link q v hq hy hl ha =>
    have hh : d.Holds x.tail q :=
      hv.holds_of h h.scene.old.dir (htail ▸ hy)
    rcases ha with rfl | rfl
    · -- the file that is stale can only be the meta file of the source
      refine .stale hh (fun {g r} hg hr => ?_)
      rw [hv.left, File.colWith_parted hm] at hg
      by_cases hqm : q = m.1
      · rw [hqm, both_left] at hg
        cases hg
        cases hr
        exact ⟨true, hn⟩
      · rw [both_of_ne hqm hq] at hg
        cases hg
    · exact .points (.renamed hh)

/-- The source while it is not moved. -/
theorem Stand.resolves_source
    (hb : Bears s x y f a) (hv : View N D P t.disk x y (f.colWith a) cy d) :
    Resolves N d x := by
  have hfit := h.scene.old.named.fits f rfl
  refine resolves_of_first (fun {p i b} hfirst => ?_)
  have hcol := hfirst.col
  rw [hv.left] at hcol
  cases hm : f.parted with
  | none =>
    rw [File.colWith_plain hm] at hcol
    by_cases hpo : p = f.data
    · subst hpo
      rw [only_self] at hcol
      cases hcol
      exact h.leads_plain hm hb hv
    · rw [only_of_ne hpo] at hcol
      cases hcol
  | some m =>
    have hne := hfit.meta_ne hm
    have hdata := h.scene.world.parent h.scene.old.file h.scene.old.named.data_node
    rw [File.colWith_parted hm] at hcol
    by_cases hpm : p = m.1
    · subst hpm
      rw [both_left] at hcol
      cases hcol
      exact .points (.pointed (hv.holds_of h h.scene.old.dir hdata))
    by_cases hpo : p = f.data
    · subst hpo
      rw [both_right hne.symm] at hcol
      cases hcol
      exact h.leads_exposed hm hb hv hfirst.normal
    · rw [both_of_ne hpm hpo] at hcol
      cases hcol

/-- The old name when the source was moved. -/
theorem Stand.resolves_rest (hv : View N D P t.disk x y f.rest cy d) : Resolves N d x := by
  have hdata := h.scene.world.parent h.scene.old.file h.scene.old.named.data_node
  refine Leading.resolves ?_
  rw [hv.left, File.rest]
  cases f.parted with
  | none => exact sturdy_noFile.leading
  | some m =>
    have hh := hv.holds_of h h.scene.old.dir hdata
    exact (sturdy_noFile.set (.pointed hh)).leading

end

theorem View.resolves_gone (hv : View N D P t.disk x y noFile cy d) : Resolves N d x := by
  refine Leading.resolves ?_
  rw [hv.left]
  exact sturdy_noFile.leading

/-- The new name, by the links in its column. -/
theorem Stand.resolves_target (h : Stand N D P x y f G s t)
    (hy : Leading t.disk y.tail cy) (hv : View N D P t.disk x y cx cy d) :
    Resolves N d y := by
  refine Leading.resolves (fun p f hf => ?_)
  rw [hv.right] at hf ⊢
  exact (hy p f hf).congr (fun hq => (hv.holds h.scene.new.dir).mpr hq)

/-- A plain source with a link to a partition where its directory is not. -/
theorem Stand.not_resolves (h : Stand N D P x y f G s t) (hno : ¬ Linkable s.disk x f q)
    (hq : q ≠ f.data) (hv : v = staleAt q ∨ v = renameTo q)
    (hview : View N D P t.disk x y (f.colWith (some v)) cy d) :
    ¬ Resolves N d x := by
  obtain ⟨hp, hh⟩ := not_or.mp hno
  have hp := not_not.mp hp
  have hcol := hview.left
  rw [File.colWith_plain hp] at hcol
  have hfirst := First.of_only hcol ((hview.normal_old h).mpr
    (.inl ((h.scene.old.named.fits f rfl).plain hp).1))
  have hfollows : FollowsId d x q := by
    refine ⟨f.data, f.ino, v, hfirst, ?_⟩
    rcases hv with rfl | rfl
    · exact .head _
    · have hne : ¬ q = f.data := hq
      simp [Ptrs.followed, Ptrs.onward, renameTo, Ptrs.unset, hne]
  intro hres
  obtain ⟨b, hb⟩ := (hres q hfollows).1
  rw [hview.dirs h.scene.old.dir, h.entry.grown.other hq] at hb
  exact hh ⟨b, hb⟩

end Names

/-! ## The branches -/

/-- The link that the source gets does no harm: there is none but to itself, or
    it leads to a partition where the old directory is. -/
def SafelyLinked (N : Nat) (s : Sys) (x y : Path) (f : File) : Option File → Prop
  | none => s.disk.canTurn N y.tail f.data = true
      ∨ ∀ p ∈ s.metaPlace N y.tail, Linkable s.disk x f p
  | some g => (s.disk.canTurn N y.tail f.data = true
        ∧ (g.data = f.data ∨ g.metaId = some f.data))
      ∨ Linkable s.disk x f (g.metaId.getD g.data)

/-- The two names resolve. -/
def BothResolve (N : Nat) (x y : Path) (d : Disk) : Prop :=
  Resolves N d x ∧ Resolves N d y

/-- The names resolve at the columns on the way, at those left by an error and
    at the last ones, when the link does no harm; when it does, there is a
    moment at which the old name does not. -/
structure Traced (N : Nat) (D P : Path → Prop) (x y : Path) (f : File)
    (G : Option File) (s t : Sys) (cs fs : List (Column × Column))
    (cy : Column) : Prop where
  way : SafelyLinked N s x y f G → ∀ c ∈ cs, AllAt N D P x y t.disk (BothResolve N x y) c
  ends : AllAt N D P x y t.disk (BothResolve N x y) (noFile, cy)
  errs : SafelyLinked N s x y f G → ∀ c ∈ fs, AllAt N D P x y t.disk (BothResolve N x y) c
  lost : ¬ SafelyLinked N s x y f G →
    ∃ c ∈ cs, AllAt N D P x y t.disk (fun d => ¬ Resolves N d x) c

section Branches

variable {N : Nat} {D P : Path → Prop} {s t : Sys} {x y : Path} {f g : File}
  {G : Option File} {cy : Column} {a : Option Ptrs} {p q n l : Nat}
  {m : Nat × Nat}

/-- At these columns both names resolve. -/
abbrev Stand.Both (_ : Stand N D P x y f G s t) (c : Column × Column) : Prop :=
  AllAt N D P x y t.disk (BothResolve N x y) c

section

variable (h : Stand N D P x y f G s t)
include h

theorem Stand.at_source (hb : Bears s x y f a)
    (hy : Leading t.disk y.tail cy) : h.Both (f.colWith a, cy) :=
  fun hv => ⟨h.resolves_source hb hv, h.resolves_target hy hv⟩

theorem Stand.at_rest (hy : Leading t.disk y.tail cy) : h.Both (f.rest, cy) :=
  fun hv => ⟨h.resolves_rest hv, h.resolves_target hy hv⟩

theorem Stand.at_end (hy : Leading t.disk y.tail cy) : h.Both (noFile, cy) :=
  fun hv => ⟨hv.resolves_gone, h.resolves_target hy hv⟩

/-- The meta file of the source goes, if there is one. -/
theorem Stand.at_drop (hy : Leading t.disk y.tail cy) : ∀ c ∈ f.drop cy, h.Both c := by
  intro c hc
  unfold File.drop at hc
  split at hc
  · cases hc
  · rw [mem_singleton.mp hc]
    exact h.at_rest hy

/-- The new name as it was. -/
theorem Stand.sturdy : Sturdy t.disk y.tail (column G) :=
  h.scene.new.named.sturdy h.scene.world h.scene.new.file h.entry.grown.holds

end

theorem traced_turn_plain (h : Stand N D P x y f none s t)
    (hturn : s.disk.canTurn N y.tail f.data = true) (hp : f.parted = none) :
    Traced N D P x y f none s t ((turnPlain f).steps f) (turnPlain f).faults
      (turnPlain f).last := by
  have hattr := ((h.scene.old.named.fits f rfl).plain hp).2
  have hsame : h.Both (f.col, noFile) := h.at_source .own sturdy_noFile.leading
  have hdone : Leading t.disk y.tail (turnPlain f).last :=
    (sturdy_noFile.set (.plain hattr)).leading
  refine ⟨fun _ => ?_, h.at_end hdone, fun _ => ?_, fun hno => absurd (.inl hturn) hno⟩
  · simp only [Way.steps, forall_mem_append, turnPlain, forall_mem_singleton]
    exact ⟨hsame, h.at_drop hdone⟩
  · exact forall_mem_singleton.mpr hsame

theorem traced_turn_parted (h : Stand N D P x y f none s t)
    (hturn : s.disk.canTurn N y.tail f.data = true) :
    Traced N D P x y f none s t ((turnParted f).steps f) (turnParted f).faults
      (turnParted f).last := by
  have hnone : Leading t.disk y.tail noFile := sturdy_noFile.leading
  have hreset : Leading t.disk y.tail (turnParted f).last :=
    (sturdy_noFile.set (.plain (.inr rfl))).leading
  refine ⟨fun _ => ?_, h.at_end hreset, fun _ => ?_, fun hno => absurd (.inl hturn) hno⟩
  · simp only [Way.steps, turnParted, cons_append, nil_append, forall_mem_cons]
    exact ⟨h.at_source .own hnone, h.at_source .self hnone,
      h.at_rest (sturdy_noFile.set .self).leading, h.at_drop hreset⟩
  · simp only [turnParted, forall_mem_cons]
    exact ⟨h.at_source .own hnone, h.at_source .self hnone, forall_mem_nil _⟩

theorem traced_meta (h : Stand N D P x y f none s t)
    (hturn : s.disk.canTurn N y.tail f.data = false) (hplace : s.metaPlace N y.tail = some p)
    (hpn : s.disk.node y.tail p = some (.dir true)) (hpo : p ≠ f.data) :
    let w := metaWay f p n
    Traced N D P x y f none s t (w.steps f) w.faults w.last := by
  have hiff : SafelyLinked N s x y f none ↔ Linkable s.disk x f p := by
    show _ ∨ _ ↔ _
    simp [hturn, hplace]
  have hp : t.disk.Holds y.tail p := h.entry.grown.holds ⟨true, hpn⟩
  have hnone : Leading t.disk y.tail noFile := sturdy_noFile.leading
  have hnew : Leading t.disk y.tail (only p (n, none)) :=
    (sturdy_noFile.set (.plain (.inl rfl))).leading
  have hmade : Sturdy t.disk y.tail (only p (n, some (pointerTo f.data))) :=
    sturdy_noFile.set (.pointed h.entry.grown.there)
  have hdone := (hmade.set (p := f.data) (i := f.ino) (.pointed hp)).leading
  have hunmoved : Linkable s.disk x f p → ∀ c ∈ (metaWay f p n).faults, h.Both c := by
    intro hl
    have hlink : Bears s x y f (some (renameTo p)) :=
      .link hpo ⟨true, hpn⟩ hl (.inr rfl)
    simp only [metaWay, forall_mem_cons]
    exact ⟨h.at_source .own hnone, h.at_source .own hnew,
      h.at_source .own hmade.leading, h.at_source hlink hmade.leading, nofun⟩
  refine ⟨fun hc => ?_, h.at_end hdone, fun hc => hunmoved (hiff.mp hc), fun hno => ?_⟩
  · show ∀ c ∈ ((metaWay f p n).faults ++ [_]) ++ f.drop _, _
    simp only [forall_mem_append, forall_mem_singleton]
    exact ⟨⟨hunmoved (hiff.mp hc), h.at_rest (hmade.set (.renamed hp)).leading⟩, h.at_drop hdone⟩
  · refine ⟨_, .tail _ (.tail _ (.tail _ (.head _))), fun hv => ?_⟩
    exact h.not_resolves (fun hl => hno (hiff.mpr hl)) hpo (.inr rfl) hv

/-! ### Over an existing file -/

variable {cz : Column} {es : List (Column × Column)}

/-- Condition 1.1; `es` is what comes after the move. -/
theorem traced_overwrite (h : Stand N D P x y f (some g) s t)
    (hsafe : SafelyLinked N s x y f (some g)) (hes : ∀ c ∈ es, h.Both c)
    (hend : Leading t.disk y.tail (f.into cz Ptrs.unset)) :
    let w := overwriteWay f g.col cz es
    Traced N D P x y f (some g) s t (w.steps f) w.faults w.last := by
  have hold : Sturdy t.disk y.tail g.col := h.sturdy
  intro w
  refine ⟨fun _ => ?_, h.at_end hend, fun _ => ?_, fun hno => absurd hsafe hno⟩
  · simp only [w, overwriteWay, Way.steps, cons_append, forall_mem_cons, forall_mem_append]
    exact ⟨h.at_source .own hold.leading, h.at_source .self hold.leading,
      h.at_rest (hold.set .self).leading, hes, h.at_drop hend⟩
  · simp only [w, overwriteWay, forall_mem_cons]
    exact ⟨h.at_source .own hold.leading, h.at_source (.bare (.inr rfl)) hold.leading,
      forall_mem_nil _⟩

theorem traced_overwrite_data (h : Stand N D P x y f (some g) s t)
    (hturn : s.disk.canTurn N y.tail f.data = true) (hgo : g.data = f.data) :
    let w := overwriteData f g.col
    Traced N D P x y f (some g) s t (w.steps f) w.faults w.last := by
  have hold : Sturdy t.disk y.tail g.col := h.sturdy
  exact traced_overwrite h (.inl ⟨hturn, .inl hgo⟩) nofun (hold.set (.plain (.inr rfl))).leading

theorem traced_overwrite_meta (h : Stand N D P x y f (some g) s t)
    (hturn : s.disk.canTurn N y.tail f.data = true) (hmeta : g.metaId = some f.data) :
    let w := overwriteMeta f g.col g.data
    Traced N D P x y f (some g) s t (w.steps f) w.faults w.last := by
  have hold : Sturdy t.disk y.tail g.col := h.sturdy
  refine traced_overwrite h (.inl ⟨hturn, .inr hmeta⟩) ?_
    (hold.clear.set (.plain (.inr rfl))).leading
  rw [forall_mem_singleton]
  exact h.at_rest (hold.clear.set .self).leading

/-- The destination's file in partition `q` is not in the way of the source: it
    is where the link of the source leads to. -/
structure Beside (N : Nat) (s : Sys) (y : Path) (f g : File) (q l : Nat) :
    Prop where
  place : g.metaId.getD g.data = q
  file : ∃ b, g.col q = some (l, b)
  ne : q ≠ f.data
  apart : ¬ (s.disk.canTurn N y.tail f.data = true
    ∧ (g.data = f.data ∨ g.metaId = some f.data))

theorem Beside.linked_iff (h : Beside N s y f g q l) :
    SafelyLinked N s x y f (some g) ↔ Linkable s.disk x f q := by
  show _ ∨ Linkable s.disk x f (g.metaId.getD g.data) ↔ _
  rw [h.place]
  exact or_iff_right h.apart

section

variable (h : Stand N D P x y f (some g) s t) (hq : Beside N s y f g q l)
include h hq

/-- A partition where the new name has a file. -/
theorem Stand.holds_beside : s.disk.Holds y.tail q := by
  obtain ⟨b, hb⟩ := hq.file
  have hcol : s.disk.col y q = some (l, b) := by
    rw [h.scene.new.named.col]
    exact hb
  exact h.scene.world.parent h.scene.new.file (col_eq_some.mp hcol).1

/-- Condition 1.2: the file in partition `q` is hidden; `es` is what comes after
    it is deleted. -/
theorem traced_hide
    (hes : ∀ c ∈ es, h.Both c) (hend : Leading t.disk y.tail (f.into cz Ptrs.unset)) :
    let w := hideWay f g.col cz q l es
    Traced N D P x y f (some g) s t (w.steps f) w.faults w.last := by
  have hhq := h.entry.grown.holds (h.holds_beside hq)
  have hold : Sturdy t.disk y.tail g.col := h.sturdy
  have hhid := hold.set (p := q) (i := l) (.hidden h.entry.grown.there)
  -- the file that is stale has no pointer, or is gone
  have hmoved := hhid.stale (p := f.data) (i := f.ino) hhq hq.ne (fun {k} hk => by
      rw [update_self] at hk
      cases hk
      rfl)
  have hgone := (hold.clear (p := q)).stale (p := f.data) (i := f.ino) hhq hq.ne (fun {k} hk => by
      rw [update_self] at hk
      cases hk)
  have hlink : Linkable s.disk x f q → Bears s x y f (some (staleAt q)) :=
    fun hl => .link hq.ne (h.holds_beside hq) hl (.inl rfl)
  intro w
  refine ⟨fun hc => ?_, h.at_end hend, fun hc => ?_, fun hno => ?_⟩
  · have hb := hlink (hq.linked_iff.mp hc)
    simp only [w, hideWay, Way.steps, cons_append, forall_mem_cons, forall_mem_append]
    exact ⟨h.at_source .own hold.leading, h.at_source hb hold.leading,
      h.at_source hb hhid.leading, h.at_rest hmoved, h.at_rest hgone, hes,
      h.at_drop hend⟩
  · have hb := hlink (hq.linked_iff.mp hc)
    simp only [w, hideWay, forall_mem_cons]
    exact ⟨h.at_source .own hold.leading, h.at_source hb hold.leading,
      h.at_source (.bare (.inr rfl)) (hold.set (.plain (.inr rfl))).leading,
      forall_mem_nil _⟩
  · refine ⟨_, .tail _ (.head _), fun hv => ?_⟩
    exact h.not_resolves (fun hl => hno (hq.linked_iff.mpr hl)) hq.ne (.inl rfl) hv

/-- Condition 2: the file in partition `q` becomes the meta file; `es` is what
    comes after the move. -/
theorem traced_reuse
    (hes : ∀ c ∈ es, h.Both c) (hend : Leading t.disk y.tail (reuseWay f g.col cz q l es).last) :
    let w := reuseWay f g.col cz q l es
    Traced N D P x y f (some g) s t (w.steps f) w.faults w.last := by
  have hhq := h.entry.grown.holds (h.holds_beside hq)
  have hold : Sturdy t.disk y.tail g.col := h.sturdy
  have hren := hold.set (p := q) (i := l) (.renamed h.entry.grown.there)
  intro w
  have hunmoved : SafelyLinked N s x y f (some g) → ∀ c ∈ w.faults, h.Both c := by
    intro hc
    have hb : Bears s x y f (some (renameTo q)) :=
      .link hq.ne (h.holds_beside hq) (hq.linked_iff.mp hc) (.inr rfl)
    simp only [w, reuseWay, forall_mem_cons]
    exact ⟨h.at_source .own hold.leading, h.at_source .own hren.leading,
      h.at_source hb hren.leading, forall_mem_nil _⟩
  refine ⟨fun hc => ?_, h.at_end hend, hunmoved, fun hno => ?_⟩
  · show ∀ c ∈ (w.faults ++ _ :: es) ++ f.drop _, _
    simp only [forall_mem_append, forall_mem_cons]
    exact ⟨⟨hunmoved hc, h.at_rest (hren.set (.renamed hhq)).leading, hes⟩, h.at_drop hend⟩
  · refine ⟨_, .tail _ (.tail _ (.head _)), fun hv => ?_⟩
    exact h.not_resolves (fun hl => hno (hq.linked_iff.mpr hl)) hq.ne (.inr rfl) hv

end

end Branches

/-! ## The whole rename -/

section Rename

variable {N : Nat} {D P : Path → Prop} {s t : Sys} {x y : Path} {f g : File}
  {G : Option File} {cy : Column} {cs fs : List (Column × Column)}
  {om : Option Nat}

/-- Every file name in `P` resolves at every moment of the rename, and after every error. -/
def AlwaysResolved (N : Nat) (D P : Path → Prop) (x y : Path) (s : Sys) : Prop :=
  (∀ u, Passes sysHandler (sfsRenameOther N x y) s u → Resolved N D P u.disk)
    ∧ ∀ e, e ≠ 0 → ∀ n b u, runFault sysHandler (failing e) n
        (sfsRenameOther N x y) s = some (b, u) → b ≠ 0 → Resolved N D P u.disk

/-- The names of the rename and the others. -/
theorem Stand.resolved (h : Stand N D P x y f G s t)
    (hn : ∀ z, ¬ D z → D z.tail → ∃ F, Named s.disk z F) {c : Column × Column}
    (hc : AllAt N D P x y t.disk (BothResolve N x y) c) :
    AllAt N D P x y t.disk (Resolved N D P) c := by
  intro d hv z hP hz hZ
  by_cases hx : z = x
  · rw [hx]
    exact (hc hv).1
  by_cases hy : z = y
  · rw [hy]
    exact (hc hv).2
  obtain ⟨F, hF⟩ := hn z hz hZ
  exact h.resolves_other hv hz hZ hP hx hy hF

theorem Traced.judged (hT : Traced N D P x y f G s t cs fs cy)
    (h : Scene N D P s x y f G) (hR : Renames N D P x y f G s t cs fs cy om)
    (hn : ∀ z, ¬ D z → D z.tail → ∃ F, Named s.disk z F) :
    AlwaysResolved N D P x y s ↔ SafelyLinked N s x y f G := by
  have hst : Stand N D P x y f G s t := ⟨h, hR.entry⟩
  constructor
  · rintro ⟨hall, -⟩
    by_contra hno
    obtain ⟨c, hc, hbad⟩ := hT.lost hno
    obtain ⟨u, hu, hview⟩ := hR.crash hc
    exact hbad hview (hall u hu x h.mine.1 h.old.file h.old.dir)
  · intro hl
    refine ⟨hR.passes (fun {d} w hc z _ hz hZ => ?_) (fun c hc => hst.resolved hn (hT.way hl c hc))
      (hst.resolved hn hT.ends), fun e he => hR.faults he
      (fun c hc => hst.resolved hn (hT.errs hl c hc))⟩
    -- while replicas of the new directory are made, every name is as it was
    obtain ⟨F, hF⟩ := hn z hz hZ
    exact (hF.clones hz hc).resolves w hz

theorem Scene.resolved_non (h : Scene N D P s x y f none)
    (hn : ∀ z, ¬ D z → D z.tail → ∃ F, Named s.disk z F) :
    AlwaysResolved N D P x y s ↔ SafelyLinked N s x y f none := by
  cases hturn : s.disk.canTurn N y.tail f.data with
  | true =>
    cases hp : f.parted with
    | none =>
      obtain ⟨t, hR⟩ := h.turn_plain hturn hp
      exact (traced_turn_plain ⟨h, hR.entry⟩ hturn hp).judged h hR hn
    | some m =>
      obtain ⟨t, hR⟩ := h.turn_parted hturn hp
      exact (traced_turn_parted ⟨h, hR.entry⟩ hturn).judged h hR hn
  | false =>
    obtain ⟨t, p, hplace, hpn, hpo, hR⟩ := h.meta_made hturn
    exact (traced_meta ⟨h, hR.entry⟩ hturn hplace hpn hpo).judged h hR hn

section

variable (h : Scene N D P s x y f (some g))
include h

/-- The files of the destination that the rename goes by. -/
theorem Scene.beside_data (hp : g.parted = none) (hgo : g.data ≠ f.data) :
    Beside N s y f g g.data g.ino := by
  have hmeta : g.metaId = none := by rw [File.metaId, hp]; rfl
  refine ⟨by rw [hmeta]; rfl, ⟨g.attr, h.exist_data⟩, hgo, ?_⟩
  rintro ⟨-, hgo' | hmo⟩
  · exact hgo hgo'
  · cases hmeta.symm.trans hmo

theorem Scene.beside_meta {m : Nat × Nat} (hm : g.parted = some m) (hmo : m.1 ≠ f.data)
    (hgo : s.disk.canTurn N y.tail f.data = true → g.data ≠ f.data) :
    Beside N s y f g m.1 m.2 := by
  have hmeta : g.metaId = some m.1 := by rw [File.metaId, hm]; rfl
  refine ⟨by rw [hmeta]; rfl, ⟨_, (h.exist_meta hm).2⟩, hmo, ?_⟩
  rintro ⟨hturn, hgo' | hmo'⟩
  · exact hgo hturn hgo'
  · exact hmo (mem_unique hmeta hmo')

section

variable (hn : ∀ z, ¬ D z → D z.tail → ∃ F, Named s.disk z F)
include hn

/-- The new directory becomes normal where the source is. -/
theorem Scene.resolved_hide (hturn : s.disk.canTurn N y.tail f.data = true) (hgo : g.data ≠ f.data)
    (hmo : g.metaId ≠ some f.data) :
    AlwaysResolved N D P x y s ↔ SafelyLinked N s x y f (some g) := by
  cases hm : g.parted with
  | none =>
    obtain ⟨t, hR⟩ := h.hide_plain hturn hm hgo
    have hst : Stand N D P x y f (some g) s t := ⟨h, hR.entry⟩
    have hold : Sturdy t.disk y.tail g.col := hst.sturdy
    have hdone := ((hold.clear (p := g.data)).set (p := f.data)
      (i := f.ino) (.plain (.inr rfl))).leading
    exact (traced_hide hst (h.beside_data hm hgo) (forall_mem_nil _) hdone).judged h hR hn
  | some m =>
    have hmo' : m.1 ≠ f.data := by
      rw [File.metaId, hm] at hmo
      exact fun heq => hmo (congrArg some heq)
    obtain ⟨t, hR⟩ := h.hide_parted hturn hm hmo' hgo
    have hst : Stand N D P x y f (some g) s t := ⟨h, hR.entry⟩
    have hq := h.beside_meta hm hmo' (fun _ => hgo)
    have hold : Sturdy t.disk y.tail g.col := hst.sturdy
    have hboth := (hold.clear (p := m.1)).clear (p := g.data)
    have hdone := (hboth.set (p := f.data) (i := f.ino) (.plain (.inr rfl))).leading
    have hgone := hboth.stale (p := f.data) (i := f.ino)
      (hst.entry.grown.holds (hst.holds_beside hq)) hmo' (fun {k} hk => by
        rw [update_of_ne (h.exist_meta hm).1, update_self] at hk
        cases hk)
    refine (traced_hide hst hq ?_ hdone).judged h hR hn
    rw [forall_mem_singleton]
    exact hst.at_rest hgone

/-- The new directory stays a shadow where the source is. -/
theorem Scene.resolved_reuse (hturn : s.disk.canTurn N y.tail f.data = false) :
    AlwaysResolved N D P x y s ↔ SafelyLinked N s x y f (some g) := by
  have hfit := h.new.named.fits g rfl
  have hno : s.disk.canTurn N y.tail f.data = true → g.data ≠ f.data :=
    fun ht => absurd (hturn.symm.trans ht) Bool.false_ne_true
  -- the links of the file in partition `q` and of the source when it is moved
  have hdata : ∀ {q l}, Beside N s y f g q l → ¬ (g.metaId.isSome ∧ g.data ≠ f.data) →
      (AlwaysResolved N D P x y s ↔ SafelyLinked N s x y f (some g)) := by
    intro q l hq hsame
    obtain ⟨b, hb⟩ := hq.file
    obtain ⟨t, hR⟩ := h.reuse_data hturn hq.place hsame hq.ne hb
    have hst : Stand N D P x y f (some g) s t := ⟨h, hR.entry⟩
    have hhq := hst.entry.grown.holds (hst.holds_beside hq)
    have hold : Sturdy t.disk y.tail g.col := hst.sturdy
    have hthere := hst.entry.grown.there
    have hmade := ((hold.set (p := q) (i := l) (.renamed hthere)).set
      (p := f.data) (i := f.ino) (.pointed hhq)).leading
    have hdone := ((hold.set (p := q) (i := l) (.pointed hthere)).set
      (p := f.data) (i := f.ino) (.pointed hhq)).leading
    refine (traced_reuse hst hq ?_ hdone).judged h hR hn
    rw [forall_mem_singleton]
    exact hst.at_rest hmade
  cases hm : g.parted with
  | none =>
    have hgo := shadow_ne hturn (hfit.plain hm).1
    refine hdata (h.beside_data hm hgo) ?_
    rw [File.metaId, hm]
    exact fun hs => absurd hs.1 Bool.false_ne_true
  | some m =>
    have hmo := shadow_ne hturn (hfit.split hm).1
    have hq := h.beside_meta hm hmo hno
    by_cases hgo : g.data = f.data
    · exact hdata hq (fun hs => hs.2 hgo)
    · obtain ⟨t, hR⟩ := h.reuse_meta hturn hm hmo hgo
      have hst : Stand N D P x y f (some g) s t := ⟨h, hR.entry⟩
      have hhq := hst.entry.grown.holds (hst.holds_beside hq)
      have hold : Sturdy t.disk y.tail g.col := hst.sturdy
      have hthere := hst.entry.grown.there
      have hren := (hold.clear (p := g.data)).set (p := m.1) (i := m.2) (.renamed hthere)
      have hdone := (((hold.clear (p := g.data)).set (p := m.1) (i := m.2)
        (.pointed hthere)).set (p := f.data) (i := f.ino) (.pointed hhq)).leading
      refine (traced_reuse hst hq ?_ hdone).judged h hR hn
      simp only [forall_mem_cons]
      exact ⟨hst.at_rest (hren.set (.renamed hhq)).leading,
        hst.at_rest (hren.set (.pointed hhq)).leading, forall_mem_nil _⟩

theorem Scene.resolved_exist :
    AlwaysResolved N D P x y s ↔ SafelyLinked N s x y f (some g) := by
  cases hturn : s.disk.canTurn N y.tail f.data with
  | false => exact h.resolved_reuse hn hturn
  | true =>
    by_cases hgo : g.data = f.data
    · obtain ⟨t, hR⟩ := h.overwrite_data hturn hgo
      exact (traced_overwrite_data ⟨h, hR.entry⟩ hturn hgo).judged h hR hn
    by_cases hmo : g.metaId = some f.data
    · obtain ⟨m, hm, hmf⟩ := map_eq_some_iff.mp hmo
      obtain ⟨t, hR⟩ := h.overwrite_meta hturn hm hmf
      exact (traced_overwrite_meta ⟨h, hR.entry⟩ hturn hmo).judged h hR hn
    · exact h.resolved_hide hn hturn hgo hmo

end

end

theorem Scene.resolved (h : Scene N D P s x y f G)
    (hn : ∀ z, ¬ D z → D z.tail → ∃ F, Named s.disk z F) :
    AlwaysResolved N D P x y s ↔ SafelyLinked N s x y f G := by
  cases G with
  | none => exact h.resolved_non hn
  | some g => exact h.resolved_exist hn

end Rename

/-! ## Recovery pointers -/

/-- Neither of the names shares an inode with a further one. -/
def Unshared (d : Disk) (x y : Path) : Prop :=
  ∀ z, Private (fun w => w = x ∨ w = y ∨ w = z) d

/-- From a consistent state in which the two names have no second hard link, all ids that
    a lookup of any file name follows lead to replicas of its directory, at every moment
    of a rename and after every error, EXACTLY when the link that the source gets does
    no harm. -/
theorem links_resolve_iff {N : Nat} {D : Path → Prop} {s : Sys} {x y : Path}
    {f : File} {G : Option File} (h : Scene N D (fun z => z = x ∨ z = y) s x y f G)
    (hlone : Unshared s.disk x y) (hn : ∀ z, ¬ D z → D z.tail → ∃ F, Named s.disk z F) :
    AlwaysResolved N D (fun _ => True) x y s ↔ SafelyLinked N s x y f G := by
  -- a third name is looked at alone: among the three no inode has two
  have hscene : ∀ z, Scene N D (fun w => w = x ∨ w = y ∨ w = z) s x y f G := fun z =>
    { h with priv := hlone z, mine := ⟨.inl rfl, .inr (.inl rfl)⟩ }
  constructor
  · rintro ⟨hall, herr⟩
    refine ((hscene x).resolved hn).mp ⟨fun u hu z _ => hall u hu z trivial, ?_⟩
    exact fun e he n b u hrun hb z _ => herr e he n b u hrun hb z trivial
  · intro hl
    refine ⟨fun u hu z _ => ?_, fun e he n b u hrun hb z _ => ?_⟩
    · exact (((hscene z).resolved hn).mpr hl).1 u hu z (.inr (.inr rfl))
    · exact (((hscene z).resolved hn).mpr hl).2 e he n b u hrun hb z (.inr (.inr rfl))

/-- Every name of the two partitions is consistent. -/
theorem duo_named (z : Path) (hz : z ∉ duoDirs) : ∃ F, Named duoSys.disk z F := by
  by_cases h₀ : z = [0, 0]
  · subst h₀
    exact ⟨_, duo_over.old.named⟩
  by_cases h₁ : z = [1]
  · subst h₁
    exact ⟨_, duo_over.new.named⟩
  refine ⟨none, named_absent duo_world hz (fun q _ => ?_)⟩
  refine (duo_world.col_none_iff hz).mpr ?_
  by_contra hne
  obtain ⟨o, ho⟩ := ne_none_iff_exists'.mp hne
  have hmem := mem_of_node ho
  simp only [duoEntries, mem_cons, Prod.mk.injEq, h₀, h₁, false_and, not_mem_nil, or_false] at hmem
  refine hz ?_
  rcases hmem with hmem | hmem | hmem
  · rw [hmem.1]
    decide
  · rw [hmem.1]
    decide
  · rw [hmem.1]
    decide

theorem duo_away_resolves : SafelyLinked 2 duoSys [0, 0] [2] ⟨0, 0, none, none⟩ none
      ∧ AlwaysResolved 2 (· ∈ duoDirs) (fun _ => True) [0, 0] [2] duoSys := by
  have hl : SafelyLinked 2 duoSys [0, 0] [2] ⟨0, 0, none, none⟩ none :=
    Or.inl rfl
  have hlone : Unshared duoSys.disk [0, 0] [2] := fun _ => duo_away.priv.mono fun _ _ => trivial
  have hscene : Scene 2 (· ∈ duoDirs) (fun z => z = [0, 0] ∨ z = [2]) duoSys [0, 0] [2]
      ⟨0, 0, none, none⟩ none :=
    { duo_away with
      priv := duo_away.priv.mono fun _ _ => trivial
      mine := ⟨.inl rfl, .inr rfl⟩ }
  exact ⟨hl, (links_resolve_iff hscene hlone (fun z hz _ => duo_named z hz)).mpr hl⟩

/-- The file in `[0]` has got the id of the file that it is to replace, and `[0]` is not in that
    partition: a lookup of the old name by whatever process dereferences a null pointer. -/
theorem duo_over_dangles : (Scene 2 (· ∈ duoDirs) (fun _ => True) duoSys [0, 0] [1]
        ⟨0, 0, none, none⟩ (some ⟨1, 1, none, none⟩)
      ∧ ∀ z, z ∉ duoDirs → ∃ F, Named duoSys.disk z F)
    ∧ ∃ u, Passes sysHandler (sfsRenameOther 2 [0, 0] [1]) duoSys u
      ∧ FollowsId u.disk [0, 0] 1 ∧ ¬ u.disk.Holds [0] 1
      ∧ ∀ t, t.disk = u.disk → DirSeen 2 t [0] →
        run sysHandler (sfsLookup 2 [0, 0]) t = none := by
  refine ⟨⟨duo_over, duo_named⟩, ?_⟩
  obtain ⟨t, hR⟩ := duo_over.hide_plain rfl rfl (by decide)
  obtain ⟨u, hu, hv⟩ := hR.crash (.tail _ (.head _))
  have hst : Stand 2 (· ∈ duoDirs) (fun _ => True) [0, 0] [1]
      ⟨0, 0, none, none⟩ (some ⟨1, 1, none, none⟩) duoSys t :=
    ⟨duo_over, hR.entry⟩
  have hfirst : First u.disk [0, 0] 0 0 (some (staleAt 1)) :=
    First.of_only hv.left ((hv.normal_old hst).mpr (Or.inl rfl))
  have hno : ¬ u.disk.Holds [0] 1 := by
    rintro ⟨b, hb⟩
    rw [hv.dirs (by decide), hst.entry.grown.other (by decide)] at hb
    exact nomatch hb
  have hfol : FollowsId u.disk [0, 0] 1 :=
    ⟨0, 0, staleAt 1, hfirst, mem_cons_self⟩
  refine ⟨u, hu, hfol, hno, fun t ht hseen => ?_⟩
  obtain ⟨dz, hz, href⟩ := hseen
  rw [← ht] at hfol hno
  exact hfol.oops (ht ▸ hv.world) (by decide) hz href hno

end Sfs
