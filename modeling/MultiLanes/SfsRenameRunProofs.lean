import MultiLanes.SfsBodyProofs
import MultiLanes.SfsDispatchProofs

/-! # SFS — a rename from its call on

`sfs_rename_other` validates the two names, which changes nothing in a consistent
directory, and then sees to the replica of the target directory in the partition of the
source.  What it does from there on is a `Course` (`enter_non`, `enter_exist`), so that
each branch gives the columns on the way of the whole call (`Renames`). -/

namespace Sfs

open InteractProg Function List

/-! ## Marks -/

/-- In how many partitions a directory is normal. -/
def Disk.normals (d : Disk) (N : Nat) (Z : Path) : Nat :=
  (range N).countP (fun p => decide (d.node Z p = some (.dir true)))

/-- Directory `Z` is normal in partition `p`, or may become so. -/
def Disk.canTurn (d : Disk) (N : Nat) (Z : Path) (p : Nat) : Bool :=
  decide (d.node Z p = some (.dir true))
    || decide (d.normals N Z < spanThreshold N)

/-- A file name before a rename, in memory and on the disks. -/
structure Ready (N : Nat) (D : Path → Prop) (s : Sys) (z : Path)
    (F : Option File) : Prop where
  file : ¬ D z
  dir : D z.tail
  path : PathSeen N s z.tail
  named : Named s.disk z F
  shows : ∃ dz, s.mem z = some dz ∧ Shows N s.disk z F dz

/-- A consistent state, and a rename of the file `f` at `x` to `y`, where there
    is nothing or the file in `G`.  The names in `P` share no inode. -/
structure Scene (N : Nat) (D P : Path → Prop) (s : Sys) (x y : Path) (f : File)
    (G : Option File) : Prop where
  pos : 0 < N
  world : World N D s.disk
  priv : Private P s.disk
  mine : P x ∧ P y
  ne : x ≠ y
  old : Ready N D s x (some f)
  new : Ready N D s y G

section Scene

variable {N : Nat} {D P : Path → Prop} {s t : Sys} {x y z Z : Path} {f : File}
  {F G : Option File} {p : Nat} {dz : SfsDentry} {d : Disk}

theorem Scene.ends (h : Scene N D P s x y f G) : Ends D x y :=
  ⟨h.ne, h.old.file, h.new.file, h.old.dir, h.new.dir⟩

theorem Reflects.normals (h : Reflects N d Z dz) : dz.normalDirCount = d.normals N Z := by
  rw [h.count, Disk.normals]
  refine countP_congr fun p _ => ?_
  rw [h.map p]
  simp

theorem Reflects.canTurn (h : Reflects N d Z dz) :
    (!(!dz.normalDirMap p && decide (spanThreshold N ≤ dz.normalDirCount))) = d.canTurn N Z p := by
  rw [Disk.canTurn, ← h.normals, Bool.eq_iff_iff]
  simp [← h.map p]

theorem canTurn_false (h : d.canTurn N Z p = false) :
    d.node Z p ≠ some (.dir true) ∧ spanThreshold N ≤ d.normals N Z := by
  rw [Disk.canTurn, Bool.or_eq_false_iff] at h
  exact ⟨by simpa using h.1, by simpa using h.2⟩

theorem shadow_ne {q : Nat} (hturn : d.canTurn N Z p = false)
    (hq : d.node Z q = some (.dir true)) : q ≠ p :=
  fun he => (canTurn_false hturn).1 (he ▸ hq)

theorem calm_canTurn2normal (hZ : DirSeen N s Z) :
    Calm (canTurn2normal N Z p) s (s.disk.canTurn N Z p) s := by
  obtain ⟨dz, hz, hR⟩ := hZ
  refine ⟨rfl, fun e I G Q => ?_⟩
  rw [← hR.canTurn]
  simp [canTurn2normal, hz]

/-- The directory of a file has a replica wherever the file is. -/
theorem World.parent (w : World N D d) (hz : ¬ D z) {o : Obj}
    (h : d.node z p = some o) : d.Holds z.tail p := by
  cases z with
  | nil => exact absurd w.root hz
  | cons a A => exact w.held h

/-- A consistent file name is valid, and nothing is changed. -/
theorem calm_validateFile (h : Ready N D s z (some f)) : Calm (validateFile z) s 0 s := by
  obtain ⟨dz, hz, hS⟩ := h.shows
  obtain ⟨dZ, hZ, hR⟩ := h.path suffix_rfl
  have hid : dz.replicaId = some f.data := hS.replicaId
  have hdata := h.named.data_node
  have hcol : s.disk.col z f.data = some (f.ino, f.attr) := by
    rw [h.named.col]
    exact (h.named.fits f rfl).apart.colWith_data
  have hattr := (col_eq_some.mp hcol).2
  have hslot := (hS.slots f.data).slot hcol
  have hsame : ∀ {dz'}, dz' = dz → s.setD z dz' = s := by
    rintro _ rfl
    exact (eq_one hz).symm
  refine ⟨rfl, fun e I G Q => ?_⟩
  have hfit := h.named.fits f rfl
  cases hp : f.parted with
  | none =>
    have hmeta : dz.metaId = none := by
      rw [hS.metaId]
      simp [File.metaId, hp]
    rw [File.Fits, hp] at hfit
    have hset : s.setD z { dz with replicaId := some f.data, metaId := none }
        = s := hsame (by rw [← hid, ← hmeta])
    rcases hfit.2 with ha | ha <;> simp [validateFile, hz, hmeta, hid, validatePartitionedFile,
        SfsDentry.IsFile, hslot, hattr, ha, Ptrs.unset, validateHidden,
        validateRename, validatePointer, hset]
  | some m =>
    obtain ⟨hmn, hma⟩ := h.named.meta_node hp
    have hmcol : s.disk.col z m.1 = some (m.2, some (pointerTo f.data)) :=
      col_eq_some.mpr ⟨hmn, hma⟩
    have hmslot := (hS.slots m.1).slot hmcol
    have hmeta : dz.metaId = some m.1 := by
      rw [hS.metaId]
      simp [File.metaId, hp]
    rw [File.Fits, hp] at hfit
    have hset : s.setD z { dz with replicaId := some f.data, metaId := some m.1 } = s :=
      hsame (by rw [← hid, ← hmeta])
    simp [validateFile, hz, hmeta, validatePartitionedFile,
      SfsDentry.IsFile, hmslot, hma, pointerTo, Ptrs.unset, validateHidden,
      validateRename, validatePointer, hZ, getReplicaDentry, hslot,
      hattr, hfit.2.2, checked, hset, hid, bind_bind]

theorem calm_findReplicaDentry {dx : SfsDentry} (h : s.mem x = some dx) :
    Calm (findReplicaDentry x p) s (dx.replicas p) s :=
  (calm_sfsD h).bind .ret

/-- The state `t` in which the two names are worked on: the target directory has
    a replica in the partition of the source. -/
structure Entry (N : Nat) (D P : Path → Prop) (x y : Path) (f : File)
    (G : Option File) (s t : Sys) : Prop where
  stage : Stage N D P t x y f.data f.ino false f.col (column G) f.metaId t
  grown : Grown D y.tail f.data (s.disk.canTurn N y.tail f.data) s.disk t.disk
  seen : ∀ {Z}, D Z → DirSeen N s Z → DirSeen N t Z
  files : ∀ {z}, ¬ D z → z ≠ y → t.mem z = s.mem z
  lastDispatch : t.lastDispatch = s.lastDispatch

/-- The source of a rename is in a partition of the mount. -/
theorem Scene.data_lt (h : Scene N D P s x y f G) : f.data < N :=
  h.world.within h.old.named.data_node

/-- `create_replica_dir` for the target, and the replica dentry of the new name. -/
theorem Scene.prepare (h : Scene N D P s x y f G) : ∃ t u es, Made (createReplicaDir y.tail f.data
          (s.disk.canTurn N y.tail f.data)) s (.ok ⟨y.tail, some .dir⟩) u es
      ∧ Calm (getReplicaDentry (some ⟨y.tail, some .dir⟩) y f.data) u (u.disk.slot y f.data) t
      ∧ Entry N D P x y f G s t
      ∧ (∀ d ∈ es, World N D d ∧ Clones D f.data s.disk d)
      ∧ t.counters = s.counters := by
  obtain ⟨u, es, hmade, hk, hg, hes, hcount⟩ :=
    made_createReplicaDir h.world h.new.path h.data_lt h.new.dir (s.disk.canTurn N y.tail f.data)
  obtain ⟨dx, hx, hX⟩ := h.old.shows
  obtain ⟨dy, hy, hY⟩ := h.new.shows
  have hcol : ∀ {z}, ¬ D z → u.disk.col z = s.disk.col z := fun hz => hg.col hz
  have hx' : u.mem x = some dx := (hk.files h.old.file).trans hx
  have hy' : u.mem y = some dy := (hk.files h.new.file).trans hy
  have hslots : ∀ p, dy.Match y (u.disk.col y) p := by
    rw [hcol h.new.file]
    exact hY.slots
  have hsound : Sound u.disk y dy := by
    intro p
    rw [hk.world.slot_eq h.new.file]
    exact (hslots p).imp And.left id
  have hget := calm_getReplicaDentry (r := some ⟨y.tail, some .dir⟩)
    (p := f.data) hy' hsound (fun _ => ⟨.dir, rfl⟩)
  have hmem : (u.setD y (dy.fill u.disk y f.data)).mem x = some dx :=
    (one_mem_of_ne h.ne).trans hx'
  refine ⟨_, u, es, hmade, hget, ⟨⟨?_, dx, dy.fill u.disk y f.data, ?_, ?_⟩,
    hg, ?_, ?_, hk.lastDispatch⟩, hes, ?_⟩
  · exact ⟨hk.world, hg.priv hk.world h.priv, fun _ => rfl, h.mine, fun _ _ _ => rfl,
      (hcol h.old.file).trans h.old.named.col,
      (hcol h.new.file).trans h.new.named.col⟩
  · exact eq_two hmem one_mem
  · have hfit := (h.old.named.fits f rfl).apart
    have hx₀ : ∀ p, dx.Match x f.col p := by
      have := hX.slots
      rw [h.old.named.col] at this
      exact this
    have hy₀ : ∀ p, dy.Match y (column G) p := by
      have := hY.slots
      rw [h.new.named.col] at this
      exact this
    refine ⟨hX.positive, hX.replicaId, hX.metaId, hX.null, fun _ => hx₀ _,
      fun {p} hp => ?_, (hx₀ f.data).slot hfit.colWith_data, _,
      setReplica_self⟩
    rw [SfsDentry.Match, SfsDentry.fill, setReplica_of_ne hp]
    exact hy₀ p
  · intro Z hD hZ
    obtain ⟨dz, hz, hR⟩ := hk.seen hZ
    exact ⟨dz, (one_mem_of_ne (dir_ne hD h.new.file)).trans hz, hR⟩
  · intro z hz hzy
    exact (one_mem_of_ne hzy).trans (hk.files hz)
  · have hsame : (dy.fill u.disk y f.data).localCounter = dy.localCounter := rfl
    exact (one_counters hy' hsame).trans hcount

/-- The replica of the directory of a file that is there. -/
def dirReplica (z : Path) : Option Replica := some ⟨z.tail, some .dir⟩

theorem Ready.calm_parent (w : World N D s.disk) (h : Ready N D s z F)
    {o : Obj} (hn : s.disk.node z p = some o) :
    Calm (findReplicaDentry z.tail p) s (dirReplica z) s := by
  obtain ⟨dZ, hZ, hR⟩ := h.path suffix_rfl
  have hcalm := calm_findReplicaDentry (p := p) hZ
  rw [(w.parent h.file hn).slot hR] at hcalm
  exact hcalm

/-- `rename2non`, when the new name is absent. -/
theorem Scene.enter_non (h : Scene N D P s x y f none) :
    ∃ t es, Entry N D P x y f none s t ∧ (∀ d ∈ es, World N D d ∧ Clones D f.data s.disk d)
      ∧ t.counters = s.counters
      ∧ ∀ {u ds fs}, Trail (if s.disk.canTurn N y.tail f.data
          then rename2nonTurn N x y f.data f.metaId (dirReplica x)
          else rename2nonMeta N x y f.data f.metaId (dirReplica x)) t u ds fs →
        Trail (sfsRenameOther N x y) s u (es ++ ds) fs := by
  obtain ⟨t, v, es, hmade, hget, hentry, hes, hcount⟩ := h.prepare
  refine ⟨t, es, hentry, hes, hcount, fun {u ds fs} hk => ?_⟩
  obtain ⟨dx, hx, hX⟩ := h.old.shows
  obtain ⟨dy, hy, hY⟩ := h.new.shows
  have hneg : dy.positive = false := hY.positive
  have hid : dx.replicaId = some f.data := hX.replicaId
  have hmeta : dx.metaId = f.metaId := hX.metaId
  refine .calm (calm_validateFile h.old) (.calm (calm_sfsD hy) ?_)
  rw [hneg]
  refine .calm .ret (.calm (calm_sfsD hy) ?_)
  rw [hneg]
  refine .calm (calm_sfsD hx) ?_
  rw [hid, hmeta]
  refine .calm .ret (.calm (h.old.calm_parent h.world h.old.named.data_node) ?_)
  refine .calm (calm_canTurn2normal (h.new.path suffix_rfl)) ?_
  exact .made hmade (.calm hget hk)

theorem calm_findMetaParent (w : World N D s.disk) (h : Ready N D s z (some f)) :
    Calm (findMetaParent z.tail f.metaId) s (f.parted.bind (fun _ => dirReplica z)) s := by
  unfold File.metaId
  cases hp : f.parted with
  | none => exact .ret
  | some m => exact h.calm_parent w (h.named.meta_node hp).1

/-- `rename2exist`, when there is a file `g` at the new name. -/
theorem Scene.enter_exist {g : File} (h : Scene N D P s x y f (some g)) :
    ∃ t es, Entry N D P x y f (some g) s t ∧ (∀ d ∈ es, World N D d ∧ Clones D f.data s.disk d)
      ∧ ∀ {u ds fs}, Trail (
          let out := finish2exist N x y f.data f.metaId (f.parted.bind (fun _ => dirReplica x))
          if s.disk.canTurn N y.tail f.data then
            if g.data = f.data ∨ g.metaId = some f.data then
              overwriteExist x y f.data g.data g.metaId (dirReplica x) (dirReplica y) out
            else
              hideExist x y f.data g.data g.metaId (dirReplica x)
                (dirReplica y) (g.parted.bind (fun _ => dirReplica y)) out
          else reuseExist x y f.data g.data g.metaId (dirReplica x) (dirReplica y) out) t u ds fs →
        Trail (sfsRenameOther N x y) s u (es ++ ds) fs := by
  obtain ⟨t, v, es, hmade, hget, hentry, hes, -⟩ := h.prepare
  refine ⟨t, es, hentry, hes, fun {u ds fs} hk => ?_⟩
  obtain ⟨dx, hx, hX⟩ := h.old.shows
  obtain ⟨dy, hy, hY⟩ := h.new.shows
  have hpos : dy.positive = true := hY.positive
  have hid : dx.replicaId = some f.data := hX.replicaId
  have hmeta : dx.metaId = f.metaId := hX.metaId
  have hid' : dy.replicaId = some g.data := hY.replicaId
  have hmeta' : dy.metaId = g.metaId := hY.metaId
  refine .calm (calm_validateFile h.old) (.calm (calm_sfsD hy) ?_)
  rw [hpos]
  refine .calm (calm_validateFile h.new) (.calm (calm_sfsD hy) ?_)
  rw [hpos]
  refine .calm (calm_sfsD hx) ?_
  rw [hid, hmeta]
  refine .calm .ret (.calm (calm_findMetaParent h.world h.old) ?_)
  refine .calm (h.old.calm_parent h.world h.old.named.data_node) (.calm (calm_sfsD hy) ?_)
  rw [hid', hmeta']
  refine .calm .ret (.calm (h.new.calm_parent h.world h.new.named.data_node) ?_)
  refine .calm (calm_findMetaParent h.world h.new) ?_
  refine .calm (calm_canTurn2normal (h.new.path suffix_rfl)) ?_
  exact .made hmade (.calm hget hk)

/-! ## The branches -/

/-- A rename that succeeds: the state `t` in which the names are worked on, the
    columns from there on, those of the errors, and in the end the new name's
    column and the partition of its meta file. -/
structure Renames (N : Nat) (D P : Path → Prop) (x y : Path) (f : File)
    (G : Option File) (s t : Sys) (cs fs : List (Column × Column))
    (cy : Column) (om : Option Nat) : Prop where
  entry : Entry N D P x y f G s t
  run : ∃ u es ds gs, Trail (sfsRenameOther N x y) s u (es ++ ds) gs
    ∧ (∀ d ∈ es, World N D d ∧ Clones D f.data s.disk d)
    ∧ List.Forall₂ (fun c d => View N D P t.disk x y c.1 c.2 d) cs ds
    ∧ List.Forall₂ (fun c d => View N D P t.disk x y c.1 c.2 d) fs gs
    ∧ Done N D P t x y f.data noFile cy om u

theorem Renames.of_course {body : Code Int} {es : List Disk} {cs fs : List (Column × Column)}
    {cy : Column} {om : Option Nat} (hE : Entry N D P x y f G s t)
    (hes : ∀ d ∈ es, World N D d ∧ Clones D f.data s.disk d)
    (htrail : ∀ {u ds fs}, Trail body t u ds fs → Trail (sfsRenameOther N x y) s u (es ++ ds) fs)
    (hcourse : Course N D P t.disk x y body t cs fs (Done N D P t x y f.data noFile cy om)) :
    Renames N D P x y f G s t cs fs cy om := by
  obtain ⟨u, ds, gs, htr, hds, hgs, hdone⟩ := hcourse
  exact ⟨hE, u, es, ds, gs, htrail htr, hes, hds, hgs, hdone⟩

theorem Scene.apart (h : Scene N D P s x y f G) : f.Apart :=
  (h.old.named.fits f rfl).apart

theorem Scene.turn_plain (h : Scene N D P s x y f none)
    (hturn : s.disk.canTurn N y.tail f.data = true) (hp : f.parted = none) :
    ∃ t, Renames N D P x y f none s t ((turnPlain f).steps f)
      (turnPlain f).faults (turnPlain f).last none := by
  obtain ⟨t, es, hE, hes, -, htrail⟩ := h.enter_non
  rw [if_pos hturn] at htrail
  exact ⟨t, .of_course hE hes htrail
    (course_turn_plain h.ends h.apart rfl hp hE.grown.there hE.stage)⟩

theorem Scene.turn_parted {m : Nat × Nat} (h : Scene N D P s x y f none)
    (hturn : s.disk.canTurn N y.tail f.data = true) (hp : f.parted = some m) :
    ∃ t, Renames N D P x y f none s t ((turnParted f).steps f)
      (turnParted f).faults (turnParted f).last none := by
  obtain ⟨t, es, hE, hes, -, htrail⟩ := h.enter_non
  rw [if_pos hturn] at htrail
  exact ⟨t, .of_course hE hes htrail
    (course_turn_parted h.ends h.apart rfl hp hE.grown.there hE.stage)⟩

/-- Another dentry of a directory that shows the disks. -/
theorem Entry.setDir {dz : SfsDentry} (h : Entry N D P x y f G s t)
    (hE : Ends D x y) (hZ : D Z) (hR : Reflects N t.disk Z dz) :
    Entry N D P x y f G s (t.setD Z dz) := by
  obtain ⟨⟨hv, dx, dy, ht, hp⟩, hg, hs, hf, hl⟩ := h
  have hx := dir_ne hZ hE.old
  have hy := dir_ne hZ hE.new
  refine ⟨⟨hv, dx, dy, ?_, hp⟩, hg, fun {Y} hY hS => ?_, fun hz hzy => ?_, hl⟩
  · have hmx : t.mem x = some dx := by rw [ht]; exact two_left hE.ne
    have hmy : t.mem y = some dy := by rw [ht]; exact two_right
    exact eq_two ((one_mem_of_ne hx.symm).trans hmx) ((one_mem_of_ne hy.symm).trans hmy)
  · by_cases hYZ : Y = Z
    · rw [hYZ]
      exact ⟨dz, one_mem, hR⟩
    · obtain ⟨dy', hy', hR'⟩ := hs hY hS
      exact ⟨dy', (one_mem_of_ne hYZ).trans hy', hR'⟩
  · exact (one_mem_of_ne (dir_ne hZ hz).symm).trans (hf hz hzy)

/-- A slot of the new name is looked up. -/
theorem Entry.look (h : Entry N D P x y f G s t) (hE : Ends D x y) (hpo : p ≠ f.data) :
    ∃ u, Entry N D P x y f G s u ∧ u.disk = t.disk
      ∧ Calm (getReplicaDentry (dirReplica y) y p) t (t.disk.slot y p) u := by
  obtain ⟨⟨hv, dx, dy, ht, hp⟩, hg, hs, hf, hl⟩ := h
  have hmx : t.mem x = some dx := by rw [ht]; exact two_left hE.ne
  have hmy : t.mem y = some dy := by rw [ht]; exact two_right
  have hslot : t.disk.slot y p = ⟨y, (column G p).map (fun f => .file f.1)⟩ := by
    rw [hv.world.slot_eq hE.new, hv.right]
  refine ⟨t.setD y (dy.setReplica p (some (t.disk.slot y p))),
    ⟨⟨hv, dx, dy.setReplica p (some (t.disk.slot y p)), ?_, ?_⟩, hg,
      fun {Y} hY hS => ?_, fun hz hzy => ?_, hl⟩, rfl, rfl,
    fun e I G Q => ?_⟩
  · exact eq_two ((one_mem_of_ne hE.ne).trans hmx) one_mem
  · obtain ⟨r, hr⟩ := hp.target
    refine ⟨hp.positive, hp.replicaId, hp.metaId, hp.null, hp.left,
      fun {q} hq => ?_, hp.own, r, (setReplica_of_ne hpo.symm).trans hr⟩
    by_cases hqp : q = p
    · refine .inr ?_
      rw [hqp, setReplica_self, hslot]
    · rw [SfsDentry.Match, setReplica_of_ne hqp]
      exact hp.right hq
  · obtain ⟨dY, hdY, hR⟩ := hs hY hS
    exact ⟨dY, (one_mem_of_ne (dir_ne hY hE.new)).trans hdY, hR⟩
  · exact (one_mem_of_ne hzy).trans (hf hz hzy)
  · rcases hp.right hpo with ⟨hnull, -⟩ | hr
    · simp [getReplicaDentry, hmy, hnull, dirReplica, Disk.slot]
    · rw [← hslot] at hr
      have hsame : t.setD y (dy.setReplica p (some (t.disk.slot y p))) = t := by
        rw [setReplica_eq hr]
        exact (eq_one hmy).symm
      rw [hsame]
      simp [getReplicaDentry, hmy, hr]

/-- The partition in which `select_normal_dir_rr` puts a new meta file of the directory. -/
def Sys.metaPlace (s : Sys) (N : Nat) (Z : Path) : Option Nat :=
  (s.mem Z).bind (SfsDentry.nextNormal · N)

/-- The partition of a new meta file, and the columns when it is made there. -/
theorem Scene.meta_made (h : Scene N D P s x y f none)
    (hturn : s.disk.canTurn N y.tail f.data = false) :
    ∃ t p, s.metaPlace N y.tail = some p ∧ s.disk.node y.tail p = some (.dir true) ∧ p ≠ f.data ∧
      let w := metaWay f p t.disk.next
      Renames N D P x y f none s t (w.steps f) w.faults w.last (some p) := by
  obtain ⟨t, es, hE, hes, hcounters, htrail⟩ := h.enter_non
  rw [if_neg (by rw [hturn]; exact nofun)] at htrail
  obtain ⟨dZ, hZ, hR⟩ := hE.seen h.new.dir (h.new.path suffix_rfl)
  have hnorm : ∀ {Z q}, t.disk.node Z q = some (.dir true) ↔
      s.disk.node Z q = some (.dir true) := by
    intro Z q
    rw [hE.grown.normal_iff, hturn]
    simp
  have hcount : 0 < dZ.normalDirCount := by
    have hle : spanThreshold N ≤ s.disk.normals N y.tail := by
      rw [Disk.canTurn, Bool.or_eq_false_iff] at hturn
      simpa using hturn.2
    have hpos : 0 < spanThreshold N := Nat.lt_min.mpr ⟨by decide, h.pos⟩
    have hsame : t.disk.normals N y.tail = s.disk.normals N y.tail := by
      unfold Disk.normals
      exact countP_congr (fun q _ => by simp [hnorm])
    rw [hR.normals, hsame]
    omega
  obtain ⟨p, hpN, hpn, hnext, hsel⟩ := calm_selectNormalDirRr hZ hR hcount
  -- the replica that was made is no normal one, and no counter has changed
  have hplace : s.metaPlace N y.tail = some p := by
    obtain ⟨dS, hS, hRS⟩ := h.new.path suffix_rfl
    have hcounter : dS.localCounter = dZ.localCounter := by
      have hc := congrFun hcounters y.tail
      rw [Sys.counters, Sys.counters, hZ, hS] at hc
      exact (Option.some.inj hc).symm
    have hmap : dS.normalDirMap = dZ.normalDirMap := by
      funext q
      rw [Bool.eq_iff_iff, hRS.map, hR.map, hnorm]
    rw [Sys.metaPlace, hS, Option.bind_some, SfsDentry.nextNormal, hcounter, hmap]
    exact hnext
  have hpn' := hnorm.mp hpn
  have hpo : p ≠ f.data := by
    rintro rfl
    rw [Disk.canTurn, hpn'] at hturn
    simp at hturn
  have hRz := hR.withCounter (Nat.mod_lt (p + 1) h.pos)
  have hE₁ := hE.setDir h.ends h.new.dir hRz
  obtain ⟨u, hE₂, hu, hlook⟩ := hE₁.look h.ends hpo
  have hpar : Calm (findReplicaDentry y.tail p) (t.setD y.tail
      { dZ with localCounter := (p + 1) % N }) (dirReplica y) (t.setD y.tail
      { dZ with localCounter := (p + 1) % N }) := by
    have hcalm := calm_findReplicaDentry (p := p)
      (s := t.setD y.tail { dZ with localCounter := (p + 1) % N }) one_mem
    rw [hRz.dir hpn] at hcalm
    exact hcalm
  refine ⟨u, p, hplace, hpn', hpo, .of_course hE₂ hes (fun htr => htrail ?_)
    (course_meta h.ends h.apart (show (dirReplica x).bind Replica.inode = some .dir from rfl)
      (show (dirReplica y).bind Replica.inode = some .dir from rfl) hpo hE₂.grown.there
      (hE₂.grown.holds ⟨true, hpn'⟩) hE₂.stage)⟩
  exact .calm hsel (.calm .ret (.calm hpar (.calm hlook htr)))

section Exist

variable {g : File} {m : Nat × Nat}

/-- The end of `rename2exist`. -/
theorem Scene.out (h : Scene N D P s x y f G) {cy : Column} {om : Option Nat}
    {a : Option Ptrs} {u v : Sys}
    (hs : Stage N D P v x y f.data f.ino true f.rest (update cy f.data (some (f.ino, a))) om u) :
    Course N D P v.disk x y (finish2exist N x y f.data f.metaId
        (f.parted.bind (fun _ => dirReplica x))) u
      (f.drop (update cy f.data (some (f.ino, a)))) []
      (Done N D P v x y f.data noFile (update cy f.data (some (f.ino, a))) om) := by
  refine course_finish2exist (r := .dir) h.ends h.apart (fun hp => ?_) hs (update_self ..)
  obtain ⟨m, hm⟩ := Option.ne_none_iff_exists'.mp hp
  rw [hm]
  rfl

section

variable (h : Scene N D P s x y f (some g))
include h

theorem Scene.exist_data :
    (column (some g)) g.data = some (g.ino, g.attr) :=
  (h.new.named.fits g rfl).apart.colWith_data

theorem Scene.exist_meta (hm : g.parted = some m) : m.1 ≠ g.data
      ∧ (column (some g)) m.1 = some (m.2, some (pointerTo g.data)) := by
  refine ⟨(h.new.named.fits g rfl).meta_ne hm, ?_⟩
  show g.colWith g.attr m.1 = _
  rw [File.colWith_parted hm]
  exact both_left

section

variable (hturn : s.disk.canTurn N y.tail f.data = true)
include hturn

theorem Scene.overwrite_data (hgo : g.data = f.data) :
    ∃ t, Renames N D P x y f (some g) s t ((overwriteData f g.col).steps f)
      (overwriteData f g.col).faults (overwriteData f g.col).last none := by
  obtain ⟨t, es, hE, hes, htrail⟩ := h.enter_exist
  have hem : g.metaId ≠ some f.data := by
    unfold File.metaId
    cases hm : g.parted with
    | none => exact nofun
    | some m =>
      intro heq
      exact (h.exist_meta hm).1 ((Option.some.inj heq).trans hgo.symm)
  simp only [if_pos hturn, hgo, true_or, if_true] at htrail
  exact ⟨t, .of_course hE hes htrail (course_overwrite_data h.ends h.apart rfl
    hE.grown.there hem zero_finish h.out hE.stage)⟩

theorem Scene.overwrite_meta (hm : g.parted = some m) (hmo : m.1 = f.data) :
    ∃ t, let w := overwriteMeta f g.col g.data
      Renames N D P x y f (some g) s t (w.steps f) w.faults w.last none := by
  obtain ⟨t, es, hE, hes, htrail⟩ := h.enter_exist
  have hem : g.metaId = some f.data := by
    rw [File.metaId, hm, ← hmo]
    rfl
  have heo : g.data ≠ f.data := hmo ▸ (h.exist_meta hm).1.symm
  simp only [if_pos hturn, hem, or_true, if_true] at htrail
  exact ⟨t, .of_course hE hes htrail (course_overwrite_meta h.ends h.apart rfl
    hE.grown.there rfl heo h.exist_data zero_finish h.out hE.stage)⟩

theorem Scene.hide_plain (hp : g.parted = none) (heo : g.data ≠ f.data) :
    ∃ t, let w := hidePlain f g.col g.data g.ino
      Renames N D P x y f (some g) s t (w.steps f) w.faults w.last none := by
  obtain ⟨t, es, hE, hes, htrail⟩ := h.enter_exist
  have hem : g.metaId = none := by
    rw [File.metaId, hp]
    rfl
  simp only [if_pos hturn, hem, heo, reduceCtorEq, or_self, if_false] at htrail
  exact ⟨t, .of_course hE hes htrail (course_hide_plain h.ends h.apart rfl
    hE.grown.there rfl heo h.exist_data zero_finish h.out hE.stage)⟩

theorem Scene.hide_parted (hm : g.parted = some m) (hmo : m.1 ≠ f.data) (heo : g.data ≠ f.data) :
    ∃ t, let w := hideParted f g.col m.1 m.2 g.data
      Renames N D P x y f (some g) s t (w.steps f) w.faults w.last none := by
  obtain ⟨t, es, hE, hes, htrail⟩ := h.enter_exist
  have hem : g.metaId = some m.1 := by
    rw [File.metaId, hm]
    rfl
  obtain ⟨hne, hmeta⟩ := h.exist_meta hm
  simp only [if_pos hturn, hem, heo, Option.some.injEq, hmo, or_self, if_false,
    hm, Option.bind_some] at htrail
  exact ⟨t, .of_course hE hes htrail (course_hide_parted h.ends h.apart
    rfl hE.grown.there rfl rfl hmo heo hne.symm hmeta h.exist_data zero_finish
    h.out hE.stage)⟩

end

/-- Condition 2, when no file has to be deleted: `q` is the partition of the
    file that becomes the meta file. -/
theorem Scene.reuse_data {q l : Nat} {b : Option Ptrs}
    (hturn : s.disk.canTurn N y.tail f.data = false) (hem : g.metaId.getD g.data = q)
    (hsame : ¬ (g.metaId.isSome ∧ g.data ≠ f.data)) (hqo : q ≠ f.data) (hq : g.col q = some (l, b))
    :
    ∃ t, Renames N D P x y f (some g) s t ((reuseData f g.col q l).steps f)
      (reuseData f g.col q l).faults (reuseData f g.col q l).last (some q) := by
  obtain ⟨t, es, hE, hes, htrail⟩ := h.enter_exist
  simp only [hturn, Bool.false_eq_true, if_false] at htrail
  exact ⟨t, .of_course hE hes htrail (course_reuse_data h.ends h.apart rfl
    hE.grown.there hem hsame hqo hq zero_finish h.out hE.stage)⟩

theorem Scene.reuse_meta (hturn : s.disk.canTurn N y.tail f.data = false) (hm : g.parted = some m)
    (hmo : m.1 ≠ f.data) (heo : g.data ≠ f.data) :
    ∃ t, let w := reuseMeta f g.col m.1 m.2 g.data
      Renames N D P x y f (some g) s t (w.steps f) w.faults w.last (some m.1) := by
  obtain ⟨t, es, hE, hes, htrail⟩ := h.enter_exist
  have hem : g.metaId = some m.1 := by
    rw [File.metaId, hm]
    rfl
  obtain ⟨hne, hmeta⟩ := h.exist_meta hm
  simp only [hturn, Bool.false_eq_true, if_false, hem] at htrail
  exact ⟨t, .of_course hE hes htrail (course_reuse_meta h.ends h.apart rfl
    hE.grown.there rfl hmo heo hne.symm hmeta h.exist_data zero_finish h.out
    hE.stage)⟩

end

end Exist

end Scene

end Sfs
