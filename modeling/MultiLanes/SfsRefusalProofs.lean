import MultiLanes.SfsSaneProofs
import MultiLanes.SfsFirstProofs

/-! # SFS — calls that may be refused

A lookup changes no disk in a sane state.  A create and a mkdir first make the directory
above in the partition that is chosen, replica by replica and then with a mark; wherever
that ends, the state is sane, and the names that are no directories are as they were
(`Frame`).  So each of the calls leads from one sane state to another, whatever is
refused. -/

namespace Sfs

open InteractProg Option

variable {N : Nat} {D : Path → Prop} {E : Surroundings} {s t u : Sys}
  {x Y Z : Path} {dx dz : SfsDentry} {p : Nat}

theorem World.no_file {d : Disk} (w : World N D d) (hD : D x) (q i : Nat) :
    d.node x q ≠ some (.file i) := by
  intro hi
  obtain ⟨b, hb⟩ := w.dir_of hD hi
  cases hb

theorem still_find (hx : s.mem x = some dx) :
    Still (findReplicaDentry x p) s (dx.replicas p) s := by
  have h : Still (findReplicaDentry x p >>= pure) s (dx.replicas p) s :=
    still_findReplicaDentry.mpr ⟨dx, hx, .ret⟩
  exact h

/-! ## The directory above -/

section Branch

/-- A slot is looked up that was null. -/
theorem Depicts.fill {d : Disk} (h : Depicts N d Z dz) (p : Nat) :
    Depicts N d Z (dz.fill d Z p) where
  positive := h.positive
  sound := h.sound.fill p
  full {q o} hq := by
    by_cases hqp : q = p
    · rw [hqp, SfsDentry.fill, setReplica_self]
    · rw [SfsDentry.fill, setReplica_of_ne hqp]
      exact h.full hq
  map := h.map
  count := h.count
  counter := h.counter
  recorded := h.recorded
  noFile := h.noFile

/-- A replica of a directory is made. -/
theorem Sane.makeReplica (h : Sane N D s) {a : Nat} {A : Path} (hD : D (a :: A))
    (hz : s.mem (a :: A) = some dz) (hA : s.disk.Holds A p) (hn : s.disk.node (a :: A) p = none) :
    Sane N D (s.one (a :: A) (dz.setReplica p (some ⟨a :: A, some .dir⟩))
      (s.disk.addDir (a :: A) p)) :=
  h.one (h.up hz) (h.world.addDir hD hA hn) (h.plain.addDir (h.world.no_file hD) hn)
    (fun hne _ => setNode_of_ne hne)
    (fun _ => (h.dirs hD hz).addDir hn) fun hno => absurd hD hno

/-- The branch to `Y` was cloned, or a part of it. -/
structure Cloned (N : Nat) (D : Path → Prop) (Y : Path) (p : Nat) (s : Sys)
    (r : Except Int Replica) (t : Sys) : Prop where
  sane : Sane N D t
  frame : Frame D s t
  long : ∀ {z q}, Y.length < z.length → t.disk.node z q = s.disk.node z q
  ok : ∀ {rep}, r = .ok rep → rep = ⟨Y, some .dir⟩ ∧ t.disk.Holds Y p
  fail : ∀ {err}, r = .error err → err ≠ 0

/-- The replica is there. -/
theorem Sane.cloned (h : Sane N D s) (hp : s.disk.Holds Y p) :
    Cloned N D Y p s (.ok ⟨Y, some .dir⟩) s where
  sane := h
  frame := .refl D s
  long _ := rfl
  ok hr := ⟨(Except.ok.inj hr).symm, hp⟩
  fail := nofun

/-- What `sfsCloneBranch` does for `z` when the branch above it is seen to. -/
def cloneStep (p : Nat) (z : Path) : Except Int Replica → Code (Except Int Replica)
  | .error err => return .error err
  | .ok parent => do
    let r ← getReplicaDentry (some parent) z p
    if r.inode.isSome then return .ok r
    else
      let err ← mkdir z p
      if err ≠ 0 then return .error err
      else
        storeReplica z p (some ⟨z, some .dir⟩)
        return .ok ⟨z, some .dir⟩

/-- A replica of `a :: A` is made below the one of `A`. -/
theorem goes_cloneStep {a : Nat} {A : Path} (h : Sane N D s) (hD : D (a :: A))
    (hz : s.mem (a :: A) = some dz) (hA : s.disk.Holds A p) (hn : s.disk.node (a :: A) p = none) :
    Goes E (cloneStep p (a :: A) (.ok ⟨A, some .dir⟩)) s (Cloned N D (a :: A) p s) := by
  have hd := h.dirs hD hz
  have hget := still_getReplicaDentry (p := p) (r := some ⟨A, some .dir⟩) hz
    hd.sound (fun _ => ⟨.dir, rfl⟩)
  have hnone : (s.disk.slot (a :: A) p).inode = none := by
    rw [Disk.slot, hn]
    rfl
  have hlong : ∀ {z : Path} {q : Nat}, (a :: A).length < z.length →
      (s.disk.addDir (a :: A) p).node z q = s.disk.node z q := by
    intro z q hlen
    refine setNode_of_ne ?_
    rintro rfl
    exact absurd hlen (lt_irrefl _)
  refine goes_still_bind hget ?_
  simp only [hnone, isSome_none, Bool.false_eq_true, if_false]
  refine goes_mkdir hn ?_ fun err herr => ?_
  · -- made: the slot gets its dentry
    rw [if_neg (fun h => h rfl)]
    have hstore : Still (do
          storeReplica (a :: A) p (some ⟨a :: A, some .dir⟩)
          return (Except.ok ⟨a :: A, some .dir⟩ : Except Int Replica))
        ((s.setD (a :: A) (dz.fill s.disk (a :: A) p)).onDisk
          (s.disk.addDir (a :: A) p)) (.ok ⟨a :: A, some .dir⟩)
        (s.one (a :: A) (dz.setReplica p (some ⟨a :: A, some .dir⟩))
          (s.disk.addDir (a :: A) p)) := by
      simp [storeReplica, setD_eq_one, SfsDentry.fill]
    refine goes_still hstore ⟨h.makeReplica hD hz hA hn,
      frame_one hD fun hne _ => setNode_of_ne hne, hlong, fun hr => ?_,
      fun he => by cases he⟩
    exact ⟨(Except.ok.inj hr).symm, false, if_pos ⟨rfl, rfl⟩⟩
  · rw [if_pos herr]
    exact ⟨h.setDir hD hz (hd.fill p), frame_one hD fun _ _ => rfl,
      fun _ => rfl, fun hr => (by cases hr), fun he => Except.error.inj he ▸ herr⟩

/-- `sfs_clone_branch`: from the first directory that is there down, until one is refused. -/
theorem goes_sfsCloneBranch (h : Sane N D s) (hD : D Y) (hc : s.mem Y ≠ none)
    (hp : p < N) : Goes E (sfsCloneBranch p Y) s (Cloned N D Y p s) := by
  induction Y with
  | nil =>
    obtain ⟨dz, hz⟩ := ne_none_iff_exists'.mp hc
    obtain ⟨b, hb⟩ := h.world.rooted hp
    have hstill : Still (sfsCloneBranch p []) s (.ok ⟨[], some .dir⟩) s := by
      simp [sfsCloneBranch, hz, (h.dirs hD hz).toReflects.dir hb]
    exact goes_still hstill (h.cloned ⟨b, hb⟩)
  | cons a A ih =>
    obtain ⟨dz, hz⟩ := ne_none_iff_exists'.mp hc
    have hd := h.dirs hD hz
    cases hn : s.disk.node (a :: A) p with
    | some o =>
      obtain ⟨b, rfl⟩ := h.world.dir_of hD hn
      have hstill : Still (sfsCloneBranch p (a :: A)) s (.ok ⟨a :: A, some .dir⟩) s := by
        simp [sfsCloneBranch, hz, hd.toReflects.dir hn]
      exact goes_still hstill (h.cloned ⟨b, hn⟩)
    | none =>
      -- the branch above comes first; what it does is not at `a :: A`
      have habove := ih (h.world.up hD) (h.above hc)
      have hrest : Goes E (sfsCloneBranch p A >>= cloneStep p (a :: A)) s
          (Cloned N D (a :: A) p s) := by
        refine habove.bind fun r t hr => ?_
        have hlong : ∀ {z q}, (a :: A).length < z.length → t.disk.node z q = s.disk.node z q :=
          fun hlen => hr.long (Nat.lt_of_succ_lt hlen)
        cases r with
        | error err =>
          exact ⟨hr.sane, hr.frame, hlong, fun hok => (by cases hok),
            fun he => hr.fail (Except.error.inj he ▸ rfl)⟩
        | ok rep =>
          obtain ⟨rfl, hA⟩ := hr.ok rfl
          obtain ⟨dt, ht⟩ :=
            ne_none_iff_exists'.mp (hr.frame.cached hc)
          have hnt : t.disk.node (a :: A) p = none :=
            (hr.long (Nat.lt_succ_self _)).trans hn
          refine (goes_cloneStep hr.sane hD ht hA hnt).mono
            fun r u hu => ⟨hu.sane, hr.frame.trans hu.frame, ?_, hu.ok, hu.fail⟩
          exact fun hlen => (hu.long hlen).trans (hlong hlen)
      rw [sfsCloneBranch]
      refine goes_still_bind (still_find hz) ?_
      rcases bind_inode_none (hd.toReflects.lacks hn) with hr | ⟨z, hr⟩
      · rw [hr]
        exact hrest
      · rw [hr]
        exact hrest

theorem goes_replicaBranch (h : Sane N D s) (hD : D Y) (hc : s.mem Y ≠ none)
    (hp : p < N) : Goes E (replicaBranch Y p) s (Cloned N D Y p s) := by
  obtain ⟨dz, hz⟩ := ne_none_iff_exists'.mp hc
  have hd := h.dirs hD hz
  cases hn : s.disk.node Y p with
  | some o =>
    obtain ⟨b, rfl⟩ := h.world.dir_of hD hn
    have hstill : Still (replicaBranch Y p) s (.ok ⟨Y, some .dir⟩) s := by
      simp [replicaBranch, hz, hd.toReflects.dir hn]
    exact goes_still hstill (h.cloned ⟨b, hn⟩)
  | none =>
    have hclone := goes_sfsCloneBranch (E := E) h hD hc hp
    refine goes_still_bind (still_find hz) ?_
    rcases bind_inode_none (hd.toReflects.lacks hn) with hr | ⟨z, hr⟩
    · rw [hr]
      exact hclone
    · rw [hr]
      exact hclone

/-- The mark of a replica was there, was set, or was refused. -/
theorem goes_setNormalDir (h : Sane N D s) (hD : D Y)
    (hz : s.mem Y = some dz) (hp : s.disk.Holds Y p) :
    Goes E (setNormalDir Y p) s (fun err t => Sane N D t ∧ Frame D s t
      ∧ (err = 0 → t.disk.node Y p = some (.dir true))) := by
  have hd := h.dirs hD hz
  obtain ⟨b, hb⟩ := hp
  refine goes_still_bind (still_read hz) ?_
  cases b with
  | true =>
    rw [if_pos ((hd.map p).mpr hb)]
    exact ⟨h, .refl D s, fun _ => hb⟩
  | false =>
    have hmap : dz.normalDirMap p = false := by
      rw [← Bool.not_eq_true, hd.map, hb]
      exact nofun
    have hset : Sane N D (s.one Y (dz.turnNormal p) (s.disk.setNode Y p (some (.dir true)))) :=
      h.one (h.up hz) (h.world.mark ⟨_, hb⟩)
        (h.plain.setDir (h.world.no_file hD) (fun hY => h.plain.fan
          (by rw [← hY, hb]; exact nofun)) fun _ => rfl)
        (fun hne _ => setNode_of_ne hne) (fun _ => hd.turn h.world hb)
        fun hno => absurd hD hno
    rw [hmap, hd.toReflects.dir hb]
    refine goes_setNormal hb ?_ fun err herr => ?_
    · have hstore : Still (do
            onlyIf ((0 : Int) = 0) (modD Y (fun d => d.turnNormal p))
            return (0 : Int))
          (s.onDisk (s.disk.setNode Y p (some (.dir true)))) 0
          (s.one Y (dz.turnNormal p) (s.disk.setNode Y p (some (.dir true)))) := by
        simp [onlyIf, hz, setD_eq_one]
      exact goes_still hstore ⟨hset, frame_one hD
        fun hne _ => setNode_of_ne hne, fun _ => if_pos ⟨rfl, rfl⟩⟩
    · have hskip : Still (do
            onlyIf (err = 0) (modD Y (fun d => d.turnNormal p))
            return err) s err s := by
        simp [onlyIf, herr]
      exact goes_still hskip ⟨h, .refl D s, fun h0 => absurd h0 herr⟩

/-- What `create_replica_dir` has come to. -/
structure Prepared (N : Nat) (D : Path → Prop) (Y : Path) (p : Nat) (s : Sys)
    (r : Except Int Replica) (t : Sys) : Prop where
  sane : Sane N D t
  frame : Frame D s t
  ok : ∀ {rep}, r = .ok rep → rep = ⟨Y, some .dir⟩ ∧ t.disk.node Y p = some (.dir true)
  fail : ∀ {err}, r = .error err → err ≠ 0

/-- `create_replica_dir`: the replica is made and marked, or refused. -/
theorem goes_createReplicaDir (h : Sane N D s) (hD : D Y) (hc : s.mem Y ≠ none) (hp : p < N) :
    Goes E (createReplicaDir Y p true) s (Prepared N D Y p s) := by
  refine (goes_replicaBranch h hD hc hp).bind fun r t hr => ?_
  cases r with
  | error err =>
    exact ⟨hr.sane, hr.frame, nofun, fun he => hr.fail (Except.error.inj he ▸ rfl)⟩
  | ok rep =>
    obtain ⟨rfl, hY⟩ := hr.ok rfl
    obtain ⟨dt, ht⟩ := ne_none_iff_exists'.mp (hr.frame.cached hc)
    refine (goes_setNormalDir hr.sane hD ht hY).bind ?_
    rintro err u ⟨hu, hf, hmark⟩
    by_cases herr : err = 0
    · rw [if_neg (not_not.mpr herr)]
      exact ⟨hu, hr.frame.trans hf, fun he => ⟨(Except.ok.inj he).symm, hmark herr⟩, nofun⟩
    · rw [if_pos herr]
      exact ⟨hu, hr.frame.trans hf, nofun, fun he => Except.error.inj he ▸ herr⟩

end Branch

/-! ## Files and directories -/

section Make

/-- A new name: nothing has it, and its dentry is cached. -/
structure Vacant (N : Nat) (D : Path → Prop) (s : Sys) (x : Path)
    (dx : SfsDentry) : Prop where
  sane : Sane N D s
  ne : x ≠ []
  dir : D x.tail
  mem : s.mem x = some dx
  negative : dx.positive = false

theorem Vacant.not_dir (h : Vacant N D s x dx) : ¬ D x :=
  h.sane.not_dir h.mem h.negative

theorem Vacant.leaf (h : Vacant N D s x dx) : Leaf N s.disk x dx :=
  h.sane.leaves h.not_dir h.mem

theorem Vacant.none (h : Vacant N D s x dx) (q : Nat) :
    s.disk.node x q = none := (h.leaf.absent h.negative).2 q

theorem Vacant.frame (h : Vacant N D s x dx) (ht : Sane N D t)
    (hf : Frame D s t) : Vacant N D t x dx :=
  ⟨ht, h.ne, h.dir, (hf.mem h.not_dir).trans h.mem, h.negative⟩

theorem Vacant.cached (h : Vacant N D s x dx) : s.mem x.tail ≠ Option.none := by
  obtain ⟨a, A, hx⟩ := List.exists_cons_of_ne_nil h.ne
  rw [hx]
  exact h.sane.up h.mem hx

/-- The VFS makes a name that has a negative dentry. -/
theorem Sane.vacant (h : Sane N D s) (hn : s.NameIn x)
    (hx : s.Has x (·.positive = false)) : ∃ dx, Vacant N D s x dx := by
  obtain ⟨hne, dZ, hZ, hdir⟩ := hn
  obtain ⟨dx, hmem, hneg⟩ := hx
  exact ⟨dx, h, hne, (h.dir_iff hZ).mp hdir, hmem, hneg⟩

/-- The slot is looked up, and is empty. -/
theorem Vacant.get (h : Vacant N D s x dx) {r : Replica} {i : Inode} (hr : r.inode = some i) :
    Still (getReplicaDentry (some r) x p) s (s.disk.slot x p) (s.setD x (dx.fill s.disk x p))
      ∧ Vacant N D (s.setD x (dx.fill s.disk x p)) x (dx.fill s.disk x p) := by
  refine ⟨still_getReplicaDentry h.mem h.leaf.sound fun _ => ⟨i, hr⟩,
    ?_, h.ne, h.dir, Function.update_self .., h.negative⟩
  exact h.sane.setLeaf h.not_dir (h.sane.up h.mem) (h.leaf.fill p)

/-- The state after the file was made. -/
def Sys.withFile (s : Sys) (x : Path) (dx : SfsDentry) (p : Nat) : Sys :=
  s.one x (dx.setReplica p (some ⟨x, some (.file s.disk.next)⟩))
    (s.disk.addFile x p)

/-- The state after the directory was made. -/
def Sys.withDir (s : Sys) (x : Path) (dx : SfsDentry) (p : Nat) : Sys :=
  s.one x (dx.setReplica p (some ⟨x, some .dir⟩)) (s.disk.addDir x p)

variable {i : Nat}

theorem Vacant.gains {d' : Disk} (h : Vacant N D s x dx)
    (g : s.disk.Gains d' x p i) (hp : s.disk.node x.tail p = some (.dir true)) :
    Sane N D (s.one x { dx.setReplica p (some ⟨x, some (.file i)⟩) with
      positive := true
      replicaId := some p } d') := by
  have hx := h.not_dir
  have w : World N D d' := (h.sane.world.setFile hx (h.sane.world.within hp)
    ⟨true, hp⟩ i).congr (funext fun y => funext (g.node y))
  refine h.sane.one (h.sane.up h.mem) w (h.sane.plain.gains g h.ne h.none hp)
    (fun hne q => (g.node _ q).trans (if_neg fun h => hne h.1))
    (fun hD => absurd hD hx) fun _ => h.leaf.gains g

theorem Vacant.addDir (h : Vacant N D s x dx) (hp : s.disk.node x.tail p = some (.dir true)) :
    Sane N (fun z => D z ∨ z = x) (s.one x
      { dx.setReplica p (some ⟨x, some .dir⟩) with positive := true }
      (s.disk.addDir x p)) := by
  have hfile : ∀ q i, s.disk.node x q ≠ some (.file i) := by
    intro q i hi
    cases (h.none q).symm.trans hi
  exact h.sane.turn or_iff_left (h.sane.up h.mem)
    (h.sane.world.newDir h.ne h.dir h.none hp) (h.sane.plain.addDir hfile (h.none p))
    (fun hne _ => setNode_of_ne hne) (fun _ => h.leaf.newDir h.none)
    fun hno => absurd (.inr rfl) hno

/-- What has become of a new name: it is still one, after an error, or `f` of a
    state in which the directory is there and normal. -/
def Entered (N : Nat) (D : Path → Prop) (x : Path) (p : Nat)
    (f : Sys → SfsDentry → Sys) (err : Int) (t : Sys) : Prop :=
  (err ≠ 0 ∧ Sane N D t) ∨ (err = 0 ∧ ∃ u du, Vacant N D u x du
        ∧ u.disk.node x.tail p = some (.dir true) ∧ t = f u du)

/-- The directory above is made first. -/
theorem Vacant.enters {f : Sys → SfsDentry → Sys} {k : Replica → Code Int}
    (h : Vacant N D s x dx) (hp : p < N)
    (hk : ∀ t, Vacant N D t x dx → t.disk.node x.tail p = some (.dir true) →
      Goes E (k ⟨x.tail, some .dir⟩) t (Entered N D x p f)) :
    Goes E (do
        match ← createReplicaDir x.tail p true with
        | .error err => return err
        | .ok r => k r) s (Entered N D x p f) := by
  refine (goes_createReplicaDir h.sane h.dir h.cached hp).bind fun r t hr => ?_
  cases r with
  | error err => exact .inl ⟨hr.fail rfl, hr.sane⟩
  | ok rep =>
    obtain ⟨rfl, hmark⟩ := hr.ok rfl
    exact hk t (h.frame hr.sane hr.frame) hmark

theorem goes_simpleAddEntry (h : Vacant N D s x dx) (hp : p < N) :
    Goes E (simpleAddEntry x p) s (Entered N D x p fun u du => u.withFile x du p) := by
  refine h.enters hp fun t hvt hmark => ?_
  obtain ⟨hget, hv⟩ := hvt.get (p := p) (r := ⟨x.tail, some .dir⟩) rfl
  refine goes_still_bind hget ?_
  refine goes_create (hv.none p) ?_ fun err herr => ?_
  · have hstore : Still (do
          storeReplica x p (some ⟨x, some (.file t.disk.next)⟩)
          return (0 : Int))
        ((t.setD x (dx.fill t.disk x p)).onDisk (t.disk.addFile x p)) 0
        (t.withFile x dx p) := by
      simp [storeReplica, setD_eq_one, SfsDentry.fill, Sys.withFile]
    exact goes_still hstore (.inr ⟨rfl, t, dx, hvt, hmark, rfl⟩)
  · exact .inl ⟨herr, hv.sane⟩

theorem goes_simpleAddDirEntry (h : Vacant N D s x dx) (hp : p < N) :
    Goes E (simpleAddDirEntry x p) s (Entered N D x p fun u du => u.withDir x du p) := by
  refine h.enters hp fun t hvt hmark => ?_
  obtain ⟨hget, hv⟩ := hvt.get (p := p) (r := ⟨x.tail, some .dir⟩) rfl
  have hmake : Goes E (do
        let _ ← getReplicaDentry (some ⟨x.tail, some .dir⟩) x p
        let err ← mkdir x p
        onlyIf (err = 0) (storeReplica x p (some ⟨x, some .dir⟩))
        return err) t (Entered N D x p fun u du => u.withDir x du p) := by
    refine goes_still_bind hget (goes_mkdir (hv.none p) ?_ fun err herr => ?_)
    · have hstore : Still (do
            onlyIf ((0 : Int) = 0) (storeReplica x p (some ⟨x, some .dir⟩))
            return (0 : Int))
          ((t.setD x (dx.fill t.disk x p)).onDisk (t.disk.addDir x p)) 0
          (t.withDir x dx p) := by
        simp [onlyIf, storeReplica, setD_eq_one, SfsDentry.fill, Sys.withDir]
      exact goes_still hstore (.inr ⟨rfl, t, dx, hvt, hmark, rfl⟩)
    · have hskip : Still (do
            onlyIf (err = 0) (storeReplica x p (some ⟨x, some .dir⟩))
            return err) (t.setD x (dx.fill t.disk x p)) err
          (t.setD x (dx.fill t.disk x p)) := by
        simp [onlyIf, herr]
      exact goes_still hskip (.inl ⟨herr, hv.sane⟩)
  have hderef : Still (deref (some Inode.dir)) t .dir t := .ret
  refine goes_still_bind hderef (goes_still_bind (still_find hvt.mem) ?_)
  -- a slot that is not null is a negative dentry
  rcases hvt.leaf.sound p with hs | hs
  · rw [hs]
    exact hmake
  · rw [hs, Disk.slot, hvt.none p]
    exact hmake

/-! ## The choice of a partition -/

theorem Sane.withDispatch (h : Sane N D s) (l : Nat) : Sane N D { s with lastDispatch := l } :=
  ⟨h.world, h.plain, h.dirs, h.leaves, h.above⟩

theorem goes_dispatch (h : Sane N D s) (hN : 0 < N) :
    Goes E (dispatch N) s (fun r t => r < N ∧ Sane N D t ∧ Frame D s t) := by
  unfold dispatch
  split
  · exact ⟨hN, h, .refl D s⟩
  · have hadd : Still addDispatch s (s.lastDispatch + 1)
        { s with lastDispatch := s.lastDispatch + 1 } := .perform rfl rfl
    refine goes_still_bind hadd ?_
    by_cases hl : s.lastDispatch + 1 > 1024
    · have hclear : Still clearDispatch { s with lastDispatch := s.lastDispatch + 1 } ()
          { s with lastDispatch := 0 } := .perform rfl rfl
      rw [onlyIf_pos hl]
      exact goes_still_bind hclear
        ⟨Nat.mod_lt _ hN, h.withDispatch 0, ⟨fun _ => rfl, fun _ _ => rfl, id⟩⟩
    · rw [onlyIf_neg hl]
      exact ⟨Nat.mod_lt _ hN, h.withDispatch _, ⟨fun _ => rfl, fun _ _ => rfl, id⟩⟩

variable {α : Type} {Q : α → Sys → Prop} {c : Nat} {dZ : SfsDentry} {d : Disk}

theorem goes_spin : Goes E spin s Q :=
  ⟨rfl, nofun⟩

theorem goes_oops : Goes E oops s Q :=
  ⟨rfl, nofun⟩

theorem goes_dispatchFree (h : Sane N D s) (hN : 0 < N) (m : Nat → Bool) (n : Nat) :
    Goes E (dispatchFree N m n) s (fun r t => r < N ∧ Sane N D t ∧ Frame D s t) := by
  induction n generalizing s with
  | zero => exact goes_spin
  | succ n ih =>
    refine (goes_dispatch h hN).bind ?_
    rintro r t ⟨hr, ht, hf⟩
    split
    · refine (ih ht).mono ?_
      rintro r' u ⟨hr', hu, hf'⟩
      exact ⟨hr', hu, hf.trans hf'⟩
    · exact ⟨hr, ht, hf⟩

theorem goes_takeNormal (h : Sane N D s) (hD : D Z) (hz : s.mem Z = some dz) :
    Goes E (takeNormal N Z) s (fun r t => r < N ∧ Sane N D t ∧ Frame D s t) := by
  have hd := h.dirs hD hz
  refine goes_still_bind (still_read hz) ?_
  cases hr : nextNormal N dz.normalDirMap N dz.localCounter with
  | none => exact goes_spin
  | some r =>
    have hrN : r < N :=
      h.world.within ((hd.map r).mp (nextNormal_map hr))
    have hN : 0 < N := Nat.zero_lt_of_lt hrN
    have hcount : Depicts N s.disk Z { dz with localCounter := (r + 1) % N } :=
      ⟨hd.toReflects.withCounter (Nat.mod_lt _ hN), hd.recorded, hd.noFile⟩
    have hstore : Still (do
          modD Z (fun d => { d with localCounter := (r + 1) % N })
          return r) s r
        (s.setD Z { dz with localCounter := (r + 1) % N }) := by
      simp [hz]
    exact goes_still hstore ⟨hrN, h.setDir hD hz hcount, frame_one hD fun _ _ => rfl⟩

theorem goes_localDispatch (h : Sane N D s) (hN : 0 < N) (hD : D Z) (hz : s.mem Z = some dz) :
    Goes E (localDispatch N Z) s (fun r t => r < N ∧ Sane N D t ∧ Frame D s t) := by
  refine goes_still_bind (still_read hz) ?_
  split
  · exact goes_dispatchFree h hN _ _
  · exact goes_takeNormal h hD hz

/-! ## The calls -/

/-- `sfs_create`: without an error the file is there. -/
theorem goes_sfsCreate (h : Vacant N D s x dx) (hN : 0 < N) :
    Goes E (sfsCreate N x) s (fun err t => Sane N D t
      ∧ (err = 0 → ∃ p i, t.disk.node x p = some (.file i))) := by
  obtain ⟨dZ, hZ⟩ := ne_none_iff_exists'.mp h.cached
  refine (goes_localDispatch h.sane hN h.dir hZ).bind ?_
  rintro p t ⟨hp, ht, hf⟩
  refine (goes_simpleAddEntry (h.frame ht hf) hp).bind fun err u hu => ?_
  rcases hu with ⟨herr, hu⟩ | ⟨rfl, v, dv, hv, hmark, rfl⟩
  · rw [if_pos herr]
    exact ⟨hu, fun h0 => absurd h0 herr⟩
  · have hstore : Still (do
          setReplicaId x (some p)
          instantiate x true
          return (0 : Int)) (v.withFile x dv p) 0
        (v.one x { dv.setReplica p (some ⟨x, some (.file v.disk.next)⟩) with
          positive := true
          replicaId := some p } (v.disk.addFile x p)) := by
      simp [setReplicaId, instantiate, Sys.withFile]
    rw [if_neg (fun h => h rfl)]
    exact goes_still hstore ⟨hv.gains gains_addFile hmark,
      fun _ => ⟨p, v.disk.next, if_pos ⟨rfl, rfl⟩⟩⟩

/-- The scan for a file, up to the normal partition that has it. -/
theorem still_normalScan_file {ps : List Nat} (qs : List Nat) (hZ : s.mem Z = some dZ)
    (hR : Reflects N d Z dZ) (hslot : dz.replicas p = none) (hn : d.node Z p = some (.dir true))
    (hfile : d.node (c :: Z) p = some (.file i)) (h : ∀ q ∈ ps, d.node (c :: Z) q = none)
    {r : Except Int Bool}
    (hfound : Still (foundFile (c :: Z) p) (s.one (c :: Z) (dz.fill d (c :: Z) p) d) r t) :
    Still (normalScan N (c :: Z) (ps ++ p :: qs)) (s.one (c :: Z) dz d) r t :=
  normalScan_append hZ hR (fun q hq _ => h q hq) <|
    (still_probe_some hZ hR hn (.inr rfl) hslot hfile).bind hfound

/-- A file without links is its own data file. -/
theorem still_validatePlain (hi : (dx.replicas p).bind Replica.inode = some (.file i))
    (ha : d.attr p i = none) :
    Still (validatePartitionedFile x p) (s.one x dx d) 0
      (s.one x { dx with replicaId := some p } d) := by
  have hattr : Still (getxattr p i) (s.one x dx d) none (s.one x dx d) :=
    .perform rfl (by show some (d.attr p i, _) = _; rw [ha])
  have hof : Still (fileOf x p) (s.one x dx d) i (s.one x dx d) := by
    refine (still_find one_mem).bind ?_
    rw [hi]
    exact .ret
  have hget : Still (get x p) (s.one x dx d) none (s.one x dx d) :=
    hof.bind hattr
  refine hget.bind ?_
  simp [setReplicaId]

theorem still_foundFile (hi : (dx.replicas p).bind Replica.inode = some (.file i))
    (ha : d.attr p i = none) :
    Still (foundFile x p) (s.one x dx d) (.ok true)
      (s.one x { dx with replicaId := some p } d) := by
  refine (still_validatePlain hi ha).bind ?_
  simp

/-- The lookup of a file. -/
theorem still_lookup_file (w : World N D s.disk) (hplain : Plain s.disk) (hZ : s.mem Z = some dZ)
    (hR : Reflects N s.disk Z dZ) (hfile : s.disk.node (c :: Z) p = some (.file i)) :
    Still (sfsLookup N (c :: Z)) s 0
      (s.one (c :: Z) { SfsDentry.fresh.fill s.disk (c :: Z) p with
        positive := true
        replicaId := some p } s.disk) := by
  obtain ⟨qs, hqs⟩ := range_split (w.within hfile)
  have hslot : ((SfsDentry.fresh.fill s.disk (c :: Z) p).replicas p).bind
      Replica.inode = some (.file i) := by
    rw [SfsDentry.fill, setReplica_self, Disk.slot, hfile]
    rfl
  have hbefore : ∀ q ∈ List.range p, s.disk.node (c :: Z) q = none :=
    fun q hq => hplain.alone hfile q (ne_of_lt (List.mem_range.mp hq))
  have hscan := still_normalScan_file qs hZ hR rfl (hplain.normal hfile) hfile
    hbefore (still_foundFile hslot (hplain.attr hfile))
  rw [← hqs] at hscan
  rw [sfsLookup, still_setD, setD_eq_one]
  refine hscan.bind ?_
  simp [instantiate]

/-- `sfs_lookup` changes no disk, and makes a dentry that shows the name. -/
theorem Sane.lookup (h : Sane N D s) (hN : 0 < N) (hZ : s.mem Z = some dZ) (hD : D Z) :
    ∃ t, Still (sfsLookup N (c :: Z)) s 0 t ∧ Sane N D t := by
  have hup : ∀ {a A}, c :: Z = a :: A → s.mem A ≠ none := by
    rintro a A hx
    obtain ⟨-, rfl⟩ := List.cons.inj hx
    rw [hZ]
    exact some_ne_none _
  have hR := (h.dirs hD hZ).toReflects
  by_cases hx : D (c :: Z)
  · -- a directory: all partitions are looked into
    obtain ⟨dz, hRz, hrec, hid, hstill⟩ := sfsLookup_dir hN
      (h.world.dirAt hx) (h.world.shownAt hx) hZ hR
    exact ⟨_, hstill, h.one hup h.world h.plain (fun _ _ => rfl)
      (fun _ => ⟨hRz, hrec, hid⟩) fun hno => absurd hx hno⟩
  · by_cases hex : ∃ p, s.disk.node (c :: Z) p ≠ none
    · obtain ⟨p, hp⟩ := hex
      obtain ⟨o, ho⟩ := ne_none_iff_exists'.mp hp
      obtain ⟨i, rfl⟩ := h.world.file_of_not hx ho
      refine ⟨_, still_lookup_file h.world h.plain hZ hR ho, ?_⟩
      have hseen :
          (SfsDentry.fresh.fill s.disk (c :: Z) p).replicas p ≠ none := by
        rw [SfsDentry.fill, setReplica_self]
        exact some_ne_none _
      refine h.setLeaf hx hup ⟨fresh_sound.fill p, fun _ => rfl, rfl, hN, rfl,
        fun hq => Option.some.inj hq ▸ hseen, fun _ => ⟨p, i, rfl, ho⟩,
        fun hpos => by cases hpos⟩
    · have hnone : ∀ p, s.disk.node (c :: Z) p = none := by
        intro p
        by_contra hp
        exact hex ⟨p, hp⟩
      have hshown : ¬ ShownAt s.disk (c :: Z) := by
        rintro ⟨p, _, hp⟩
        exact hp (hnone p)
      exact ⟨_, sfsLookup_notShown hshown hZ hR, h.setLeaf hx hup (leaf_fresh hN hnone)⟩

/-- A mount, with an empty cache. -/
theorem sane_mount (w : World N D s.disk) (hplain : Plain s.disk) (hN : 0 < N)
    (hmem : ∀ z, s.mem z = none) :
    ∃ t, Still (mountRoot N) s (s.disk.normalAnswer [] (N - 1)) t ∧ Sane N D t := by
  obtain ⟨dz, hR, hrec, hid, hstill⟩ := still_mountRoot w.within hN
  have hone : ∀ {z dz'}, (s.one [] dz s.disk).mem z = some dz' → z = [] ∧ dz' = dz := by
    intro z dz' hz
    rcases one_some hz with h | ⟨-, hz⟩
    · exact h
    · cases (hmem z).symm.trans hz
  refine ⟨_, hstill, w, hplain, fun _ hz => ?_, fun {z dz'} hD hz => ?_, fun {a Z} hz => ?_⟩
  · obtain ⟨rfl, rfl⟩ := hone hz
    exact ⟨hR, hrec, hid⟩
  · obtain ⟨rfl, -⟩ := hone hz
    exact absurd w.root hD
  · obtain ⟨dz', hz'⟩ := ne_none_iff_exists'.mp hz
    cases (hone hz').1

/-! ## Calls that use `first_normal_dir_id` -/

/-- The surroundings of the code for directories. -/
def Surroundings.dirEnv (E : Surroundings) : Env DirSig Sys
  | .sfs q, s, a, t => E.env q s a t
  | .firstNormal x, s, v, t => s.FirstIs x v ∧ t = s
  | .shrink x, s, _, t => t = s.shrink x
  | .moveTree x y, s, _, t => t = s.moveTree x y

/-- What is legal may succeed. -/
theorem mild_of_dirHandler {q : DirReq} {a : q.Ans}
    (h : dirHandler 0 noneLost q s = some (a, t)) : mild.dirEnv q s a t := by
  cases q with
  | sfs q =>
    have hs : sysHandler q s = some (a, t) := by
      cases q <;> exact h
    exact hs
  | firstNormal x => exact dirEnv_of_dirHandler (q := .firstNormal x) h
  | shrink x => exact dirEnv_of_dirHandler (q := .shrink x) h
  | moveTree x y => exact dirEnv_of_dirHandler (q := .moveTree x y) h

theorem harsh_of_mild {r : DirReq} {b : r.Ans} (h : mild.dirEnv r s b t) :
    harsh.dirEnv r s b t := by
  cases r with
  | sfs r => exact .inl h
  | _ => exact h

theorem harsh_of_dirHandler {q : DirReq} {a : q.Ans}
    (h : dirHandler 0 noneLost q s = some (a, t)) : harsh.dirEnv q s a t :=
  harsh_of_mild (mild_of_dirHandler h)

/-- See `SfsReq.Builds`. -/
def DirReq.Builds : DirReq → Prop
  | .sfs q => q.Builds
  | .firstNormal _ => True
  | _ => False

/-- See `Goes`. -/
abbrev GoesDir {α : Type} (E : Surroundings) (c : DirCode α) (s : Sys)
    (Q : α → Sys → Prop) : Prop :=
  Minds (S := DirSig) E.dirEnv DirReq.Builds c s Q

theorem Minds.lift {c : Code α} (h : Goes E c s Q) : GoesDir E (lift c) s Q := by
  induction c generalizing s with
  | ret a => exact h
  | ask q k ih => exact ⟨h.1, fun x t hq => ih x (h.2 x t hq)⟩

/-- `sfs_mkdir`, once the partition is chosen. -/
theorem goes_enterDir (h : Vacant N D s x dx) (id : Int) :
    GoesDir E (checkedDir (lift (inRange N id (simpleAddDirEntry x))) do
        lift (instantiate x true)
        return 0) s
      (fun _ t => Sane N D t ∨ Sane N (fun z => D z ∨ z = x) t) := by
  have hentry : Goes E (inRange N id (simpleAddDirEntry x)) s (fun err t =>
      ∃ p, Entered N D x p (fun u du => u.withDir x du p) err t) := by
    unfold inRange
    split
    · next hid =>
      have hp : id.toNat < N := by omega
      exact (goes_simpleAddDirEntry h hp).mono fun _ _ ht => ⟨_, ht⟩
    · exact goes_oops
  refine (Minds.lift hentry).bind ?_
  rintro err t ⟨p, ⟨herr, ht⟩ | ⟨rfl, u, du, hu, hmark, rfl⟩⟩
  · rw [if_pos herr]
    exact .inl ht
  · have hstore : Still (instantiate x true) (u.withDir x du p) ()
        (u.one x { du.setReplica p (some ⟨x, some .dir⟩) with
          positive := true } (u.disk.addDir x p)) := by
      simp [instantiate, Sys.withDir]
    rw [if_neg (fun h => h rfl)]
    have hdone : Goes E (instantiate x true) (u.withDir x du p)
        (fun _ t => Sane N (fun z => D z ∨ z = x) t) :=
      goes_still hstore (hu.addDir hmark)
    exact (Minds.lift hdone).bind fun _ _ ht => .inr ht

/-- `sfs_mkdir`. -/
theorem goes_sfsMkdir (h : Vacant N D s x dx) (hN : 0 < N) :
    GoesDir E (sfsMkdir N x) s (fun _ t => Sane N D t ∨ Sane N (fun z => D z ∨ z = x) t) := by
  obtain ⟨dZ, hZ⟩ := ne_none_iff_exists'.mp h.cached
  have hparent : Goes E (sfsD x.tail) s (fun d t => d = dZ ∧ t = s) :=
    goes_still (still_read hZ) ⟨rfl, rfl⟩
  refine (Minds.lift hparent).bind ?_
  rintro _ _ ⟨rfl, rfl⟩
  split
  · refine Minds.bind (R := fun _ t => Vacant N D t x dx) ?_ fun id t ht => goes_enterDir ht id
    refine (Minds.lift (goes_dispatch h.sane hN)).bind ?_
    rintro r t ⟨-, ht, hf⟩
    exact h.frame ht hf
  · refine ⟨trivial, ?_⟩
    rintro v t ⟨-, rfl⟩
    exact goes_enterDir h v

end Make

end Sfs
