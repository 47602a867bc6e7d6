import MultiLanes.SfsWalkProofs

/-! # SFS — a directory in one more partition

`create_replica_dir` makes the missing replicas of a directory and of the directories
above it, and marks the last one normal if it is to be.  Nothing that a lookup sees
changes by a replica that is not marked (`Clones`), and the dentries of the directories
show the disks before and after (`Kept`). -/

namespace Sfs

open InteractProg Function List Option

/-- The disks after some directories got replicas in partition `p` that are not marked. -/
structure Clones (D : Path → Prop) (p : Nat) (d d' : Disk) : Prop where
  attr : d'.attr = d.attr
  next : d'.next = d.next
  node : ∀ z q, d'.node z q = d.node z q
    ∨ (D z ∧ q = p ∧ d.node z q = none ∧ d'.node z q = some (.dir false))

section Clones

variable {N : Nat} {D : Path → Prop} {d d' d'' : Disk} {x Z : Path} {p q : Nat}

theorem Clones.refl (D : Path → Prop) (p : Nat) (d : Disk) : Clones D p d d :=
  ⟨rfl, rfl, fun _ _ => .inl rfl⟩

theorem Clones.trans (h : Clones D p d d') (h' : Clones D p d' d'') : Clones D p d d'' := by
  refine ⟨h'.attr.trans h.attr, h'.next.trans h.next, fun z q => ?_⟩
  rcases h.node z q with hn | ⟨hD, hq, hn, hd⟩
  · rcases h'.node z q with hn' | ⟨hD', hq', hn', hd'⟩
    · exact .inl (hn'.trans hn)
    · exact .inr ⟨hD', hq', hn ▸ hn', hd'⟩
  · rcases h'.node z q with hn' | ⟨-, -, hn', -⟩
    · exact .inr ⟨hD, hq, hn, hn'.trans hd⟩
    · cases hd.symm.trans hn'

/-- The marks are the same. -/
theorem Clones.normal_iff (h : Clones D p d d') :
    d'.node Z q = some (.dir true) ↔ d.node Z q = some (.dir true) := by
  rcases h.node Z q with hn | ⟨-, -, hn, hd⟩
  · rw [hn]
  · rw [hn, hd]
    simp

theorem Clones.file (h : Clones D p d d') (hx : ¬ D x) : d'.node x q = d.node x q :=
  (h.node x q).resolve_right (fun hD => hx hD.1)

theorem Clones.other (h : Clones D p d d') (hq : q ≠ p) : d'.node Z q = d.node Z q :=
  (h.node Z q).resolve_right (fun hD => hq hD.2.1)

theorem Clones.holds (h : Clones D p d d') (hZ : d.Holds Z q) : d'.Holds Z q := by
  obtain ⟨b, hb⟩ := hZ
  rcases h.node Z q with hn | ⟨-, -, hn, -⟩
  · exact ⟨b, hn.trans hb⟩
  · cases hb.symm.trans hn

/-- One directory is made. -/
theorem clones_addDir (hZ : D Z) (hn : d.node Z p = none) : Clones D p d (d.addDir Z p) := by
  refine ⟨rfl, rfl, fun z q => ?_⟩
  by_cases h : z = Z ∧ q = p
  · obtain ⟨rfl, rfl⟩ := h
    exact .inr ⟨hZ, rfl, hn, if_pos ⟨rfl, rfl⟩⟩
  · exact .inl (if_neg h)

theorem World.addDir (w : World N D d) {a : Nat} {A : Path}
    (hD : D (a :: A)) (hp : d.Holds A p) (hn : d.node (a :: A) p = none) :
    World N D (d.addDir (a :: A) p) := by
  obtain ⟨b, hb⟩ := hp
  refine (w.setNode (x := a :: A) (p := p) (o := .dir false) (w.within hb) ?_ ?_ ?_).congr rfl
  · exact ⟨fun _ => hD, fun _ => ⟨false, rfl⟩⟩
  · rintro a' Z h
    obtain ⟨rfl, rfl⟩ := cons.inj h
    exact ⟨b, hb⟩
  · exact fun h => nomatch hn.symm.trans h

theorem World.mark (w : World N D d) (hp : d.Holds Z p) :
    World N D (d.setNode Z p (some (.dir true))) := by
  obtain ⟨b, hb⟩ := hp
  refine w.setNode (w.within hb) ?_ ?_ (fun _ => rfl)
  · exact ⟨fun _ => (w.dir_iff hb).mp ⟨b, rfl⟩, fun _ => ⟨true, rfl⟩⟩
  · rintro a A rfl
    exact w.held hb

theorem holds_mark {Y : Path} {q : Nat} (h : d.Holds Z q) :
    (d.setNode Y p (some (.dir true))).Holds Z q := by
  obtain ⟨b, hb⟩ := h
  by_cases hq : Z = Y ∧ q = p
  · exact ⟨true, if_pos hq⟩
  · exact ⟨b, (if_neg hq).trans hb⟩

end Clones

/-! ## The dentries of directories -/

section Dentries

variable {N : Nat} {D : Path → Prop} {s t u : Sys} {d d' : Disk}
  {x Z : Path} {dz : SfsDentry} {p : Nat}

theorem Reflects.congr (h : Reflects N d Z dz)
    (hn : ∀ p, d'.node Z p = d.node Z p) : Reflects N d' Z dz where
  positive := h.positive
  sound p := by
    rw [Disk.slot, hn]
    exact h.sound p
  full {p o} ho := by
    rw [Disk.slot, hn]
    exact h.full ((hn p).symm.trans ho)
  map p := by rw [hn, h.map]
  count := h.count
  counter := h.counter

/-- A replica is made, and the slot has its dentry. -/
theorem Reflects.addDir (h : Reflects N d Z dz) (hn : d.node Z p = none) :
    Reflects N (d.addDir Z p) Z (dz.setReplica p (some ⟨Z, some .dir⟩)) := by
  have hnode : ∀ {q}, q ≠ p → (d.addDir Z p).node Z q = d.node Z q :=
    fun hq => if_neg (fun h => hq h.2)
  have hself : (d.addDir Z p).node Z p = some (.dir false) :=
    if_pos ⟨rfl, rfl⟩
  refine ⟨h.positive, fun q => ?_, fun {q o} ho => ?_, fun q => ?_, h.count, h.counter⟩
  · by_cases hq : q = p
    · rw [hq, setReplica_self, Disk.slot, hself]
      exact .inr rfl
    · rw [setReplica_of_ne hq, Disk.slot, hnode hq]
      exact h.sound q
  · by_cases hq : q = p
    · rw [hq, setReplica_self, Disk.slot, hself]
      rfl
    · rw [setReplica_of_ne hq, Disk.slot, hnode hq]
      exact h.full ((hnode hq).symm.trans ho)
  · show dz.normalDirMap q = true ↔ _
    rw [h.map]
    by_cases hq : q = p
    · rw [hq, hn, hself]
      simp
    · rw [hnode hq]

/-- A replica is marked normal. -/
theorem Reflects.turn (w : World N D d) (h : Reflects N d Z dz)
    (hn : d.node Z p = some (.dir false)) :
    Reflects N (d.setNode Z p (some (.dir true))) Z (dz.turnNormal p) := by
  have hnode : ∀ {q}, q ≠ p → (d.setNode Z p (some (.dir true))).node Z q = d.node Z q :=
    setNode_of_ne_part
  have hself : (d.setNode Z p (some (.dir true))).node Z p = some (.dir true) := if_pos ⟨rfl, rfl⟩
  have hslot : ∀ q, (d.setNode Z p (some (.dir true))).slot Z q = d.slot Z q := by
    intro q
    by_cases hq : q = p
    · rw [hq, Disk.slot, Disk.slot, hself, hn]
      rfl
    · rw [Disk.slot, Disk.slot, hnode hq]
  refine ⟨h.positive, fun q => ?_, fun {q o} ho => ?_, fun q => ?_, ?_, h.counter⟩
  · rw [hslot]
    exact h.sound q
  · rw [hslot]
    by_cases hq : q = p
    · rw [hq]
      exact h.full hn
    · exact h.full ((hnode hq).symm.trans ho)
  · show update dz.normalDirMap p true q = true ↔ _
    by_cases hq : q = p
    · rw [hq, update_self, hself]
      simp
    · rw [update_of_ne hq, hnode hq, h.map]
  · show dz.normalDirCount + 1 = (range N).countP (update dz.normalDirMap p true)
    have hoff : dz.normalDirMap p = false := by
      rw [← Bool.not_eq_true, h.map, hn]
      simp
    rw [h.count, countP_update nodup_range (mem_range.mpr (w.within hn)) hoff]

/-- The counters of the cached directories. -/
def Sys.counters (s : Sys) (Z : Path) : Option Nat :=
  (s.mem Z).map SfsDentry.localCounter

theorem one_counters {dz' : SfsDentry} (hz : s.mem Z = some dz)
    (h : dz'.localCounter = dz.localCounter) :
    (s.one Z dz' d').counters = s.counters := by
  funext Y
  show Option.map _ _ = Option.map _ _
  by_cases hY : Y = Z
  · rw [hY, one_mem, hz, map_some, map_some, h]
  · rw [one_mem_of_ne hY]

/-- Code on directories has run from `s` to `t`: the dentries of directories
    still show the disks, and nothing else in memory has changed. -/
structure Kept (N : Nat) (D : Path → Prop) (s t : Sys) : Prop where
  world : World N D t.disk
  seen : ∀ {Z}, DirSeen N s Z → DirSeen N t Z
  files : ∀ {z}, ¬ D z → t.mem z = s.mem z
  lastDispatch : t.lastDispatch = s.lastDispatch

theorem Kept.trans (h : Kept N D s t) (h' : Kept N D t u) : Kept N D s u :=
  ⟨h'.world, fun hZ => h'.seen (h.seen hZ), fun hz => (h'.files hz).trans (h.files hz),
    h'.lastDispatch.trans h.lastDispatch⟩

/-- One directory's dentry and its place on the disks have changed. -/
theorem Kept.of_one (hZ : D Z) (hw : World N D d') (hR : Reflects N d' Z dz)
    (hn : ∀ {z}, z ≠ Z → ∀ p, d'.node z p = s.disk.node z p) :
    Kept N D s (s.one Z dz d') where
  world := hw
  seen {Y} hY := by
    by_cases hYZ : Y = Z
    · rw [hYZ]
      exact ⟨dz, one_mem, hR⟩
    · obtain ⟨dy, hy, hRy⟩ := hY
      exact ⟨dy, (one_mem_of_ne hYZ).trans hy, hRy.congr (hn hYZ)⟩
  files hz := one_mem_of_ne (dir_ne hZ hz).symm
  lastDispatch := rfl

end Dentries

/-! ## Cloning -/

/-- A directory and those above it are in the cache. -/
def PathSeen (N : Nat) (s : Sys) (Y : Path) : Prop :=
  ∀ {Z}, Z <:+ Y → DirSeen N s Z

section Clone

variable {N : Nat} {D : Path → Prop} {s : Sys} {p : Nat} {Y : Path}

/-- Another dentry of a directory that shows the disks. -/
theorem PathSeen.setDir {Z : Path} {dZ : SfsDentry} (h : PathSeen N s Y)
    (hR : Reflects N s.disk Z dZ) : PathSeen N (s.setD Z dZ) Y := by
  intro X hX
  by_cases hXZ : X = Z
  · rw [hXZ]
    exact ⟨dZ, one_mem, hR⟩
  · obtain ⟨dX, hdX, hRX⟩ := h hX
    exact ⟨dX, (one_mem_of_ne hXZ).trans hdX, hRX⟩

theorem World.of_suffix {d : Disk} (w : World N D d) {Z : Path} (h : Z <:+ Y) (hY : D Y) : D Z := by
  induction Y with
  | nil =>
    rw [suffix_nil.mp h]
    exact w.root
  | cons a A ih =>
    rcases suffix_cons_iff.mp h with rfl | h'
    · exact hY
    · exact ih h' (w.up hY)

/-- A slot without an inode is null or a negative dentry. -/
theorem bind_inode_none {r : Option Replica}
    (h : r.bind Replica.inode = none) : r = none ∨ ∃ z, r = some ⟨z, none⟩ := by
  match r, h with
  | none, _ => exact .inl rfl
  | some ⟨z, none⟩, _ => exact .inr ⟨z, rfl⟩

/-- A replica of `a :: A` is made below the one of `A`. -/
theorem made_mkdir {a : Nat} {A : Path} (w : World N D s.disk) (hs : DirSeen N s (a :: A))
    (hD : D (a :: A)) (hA : s.disk.Holds A p) (hn : s.disk.node (a :: A) p = none) :
    ∃ t, Made (do
          let r ← getReplicaDentry (some ⟨A, some .dir⟩) (a :: A) p
          if r.inode.isSome then return Except.ok r
          else
            let err ← mkdir (a :: A) p
            if err ≠ 0 then return Except.error err
            else
              storeReplica (a :: A) p (some ⟨a :: A, some .dir⟩)
              return Except.ok ⟨a :: A, some .dir⟩)
        s (.ok ⟨a :: A, some .dir⟩) t [s.disk]
      ∧ Kept N D s t ∧ t.disk = s.disk.addDir (a :: A) p
      ∧ t.counters = s.counters := by
  obtain ⟨dz, hz, hR⟩ := hs
  refine ⟨s.one (a :: A) (dz.setReplica p (some ⟨a :: A, some .dir⟩))
    (s.disk.addDir (a :: A) p), ?_, ?_, rfl, one_counters hz rfl⟩
  · intro e I G Q
    have hget := calm_getReplicaDentry (p := p)
      (r := some ⟨A, some .dir⟩) hz hR.sound (fun _ => ⟨.dir, rfl⟩)
    have hmk : (s.setD (a :: A) (dz.fill s.disk (a :: A) p)).disk.node (a :: A) p = none := hn
    rw [does_calm hget]
    simp only [Disk.slot, hn, map_none, isSome_none, Bool.false_eq_true, if_false]
    rw [does_mkdir hmk]
    simp [setD_eq_one, SfsDentry.fill]
  · refine .of_one hD (w.addDir hD hA hn) (hR.addDir hn) ?_
    exact fun hz p => setNode_of_ne hz

/-- The branch is climbed to the first directory that has a replica, and made from there down. -/
theorem made_sfsCloneBranch (w : World N D s.disk) (hs : PathSeen N s Y) (hp : p < N) (hY : D Y) :
    ∃ t ds, Made (sfsCloneBranch p Y) s (.ok ⟨Y, some .dir⟩) t ds
      ∧ Kept N D s t ∧ Clones D p s.disk t.disk ∧ t.disk.Holds Y p
      ∧ (∀ {z q}, ¬ z <:+ Y → t.disk.node z q = s.disk.node z q)
      ∧ (∀ d ∈ ds, World N D d ∧ Clones D p s.disk d)
      ∧ t.counters = s.counters := by
  have hkept : Kept N D s s := ⟨w, id, fun _ => rfl, rfl⟩
  induction Y with
  | nil =>
    obtain ⟨dz, hz, hR⟩ := hs suffix_rfl
    obtain ⟨b, hb⟩ := w.rooted hp
    have hcalm : Calm (sfsCloneBranch p []) s (.ok ⟨[], some .dir⟩) s :=
      ⟨rfl, fun e I G Q => by simp [sfsCloneBranch, hz, hR.dir hb]⟩
    exact ⟨s, [], hcalm.made, hkept, .refl D p _, ⟨b, hb⟩, fun _ => rfl, nofun, rfl⟩
  | cons a A ih =>
    obtain ⟨dz, hz, hR⟩ := hs suffix_rfl
    cases hn : s.disk.node (a :: A) p with
    | some o =>
      obtain ⟨b, rfl⟩ := w.dir_of hY hn
      have hcalm : Calm (sfsCloneBranch p (a :: A)) s (.ok ⟨a :: A, some .dir⟩) s :=
        ⟨rfl, fun e I G Q => by simp [sfsCloneBranch, hz, hR.dir hn]⟩
      exact ⟨s, [], hcalm.made, hkept, .refl D p _, ⟨b, hn⟩, fun _ => rfl, nofun, rfl⟩
    | none =>
      obtain ⟨t, ds, hmade, hk, hc, hh, hoff, hds, hcount⟩ := ih
        (fun h => hs (h.trans (suffix_cons a A))) (w.up hY)
      -- the climb has changed nothing at `a :: A`, which is made now
      have hnt : t.disk.node (a :: A) p = none :=
        (hoff fun h => absurd h.length_le (Nat.not_succ_le_self _)).trans hn
      obtain ⟨u, hmk, hku, hu, hcount'⟩ := made_mkdir hk.world (hk.seen (hs suffix_rfl)) hY hh hnt
      have hcu : Clones D p t.disk u.disk := hu ▸ clones_addDir hY hnt
      refine ⟨u, ds ++ [t.disk], ?_, hk.trans hku, hc.trans hcu, ?_, ?_, ?_, hcount'.trans hcount⟩
      · intro e I G Q
        rw [sfsCloneBranch, does_findReplicaDentry]
        simp only [hz, Option.some.injEq, exists_eq_left']
        rcases bind_inode_none (hR.lacks hn) with hr | ⟨z, hr⟩
        · rw [hr]
          exact hmade.bind hmk e I G Q
        · rw [hr]
          exact hmade.bind hmk e I G Q
      · exact ⟨false, by rw [hu]; exact if_pos ⟨rfl, rfl⟩⟩
      · intro z q hz
        rw [suffix_cons_iff, not_or] at hz
        rw [hu]
        exact (setNode_of_ne hz.1).trans (hoff hz.2)
      · rw [forall_mem_append, forall_mem_singleton]
        exact ⟨hds, hk.world, hc⟩

/-- The disks when directory `Y` has a replica in partition `p`; `normal` says
    whether it was to be marked. -/
structure Grown (D : Path → Prop) (Y : Path) (p : Nat) (normal : Bool)
    (d d' : Disk) : Prop where
  attr : d'.attr = d.attr
  next : d'.next = d.next
  file : ∀ {x q}, ¬ D x → d'.node x q = d.node x q
  other : ∀ {Z q}, q ≠ p → d'.node Z q = d.node Z q
  holds : ∀ {Z q}, d.Holds Z q → d'.Holds Z q
  there : d'.Holds Y p
  normal_iff : ∀ {Z q}, d'.node Z q = some (.dir true) ↔
    d.node Z q = some (.dir true) ∨ (normal = true ∧ Z = Y ∧ q = p)

theorem Clones.grown {d d' : Disk} (h : Clones D p d d')
    (hY : d'.Holds Y p) : Grown D Y p false d d' where
  attr := h.attr
  next := h.next
  file := h.file
  other := h.other
  holds := h.holds
  there := hY
  normal_iff := by
    intro Z q
    rw [h.normal_iff]
    simp

/-- The mark is set after the replica was made. -/
theorem Grown.mark {d d' : Disk} (h : Grown D Y p false d d') (hY : D Y) :
    Grown D Y p true d (d'.setNode Y p (some (.dir true))) where
  attr := h.attr
  next := h.next
  file hx := (setNode_of_ne (dir_ne hY hx).symm).trans (h.file hx)
  other hq := (setNode_of_ne_part hq).trans (h.other hq)
  holds hZ := holds_mark (h.holds hZ)
  there := ⟨true, if_pos ⟨rfl, rfl⟩⟩
  normal_iff {Z q} := by
    rw [setNode_node]
    split
    · next hq => simp [hq]
    · next hq =>
      rw [h.normal_iff]
      simp [hq]

/-- The mark was there before. -/
theorem Grown.marked {d d' : Disk} (h : Grown D Y p false d d')
    (hY : d'.node Y p = some (.dir true)) : Grown D Y p true d d' where
  attr := h.attr
  next := h.next
  file := h.file
  other := h.other
  holds := h.holds
  there := h.there
  normal_iff {Z q} := by
    rw [h.normal_iff]
    constructor
    · rintro (hn | hf)
      · exact .inl hn
      · cases hf.1
    · rintro (hn | ⟨-, rfl, rfl⟩)
      · exact .inl hn
      · exact h.normal_iff.mp hY

theorem Grown.col {d d' : Disk} {normal : Bool} {x : Path}
    (h : Grown D Y p normal d d') (hx : ¬ D x) : d'.col x = d.col x :=
  funext fun _ => col_congr (h.file hx) (fun _ _ => by rw [h.attr])

theorem Grown.priv {P : Path → Prop} {d d' : Disk} {normal : Bool}
    (w : World N D d') (h : Grown D Y p normal d d') (hd : Private P d) :
    Private P d' := by
  have hfile : ∀ {z q i}, d'.node z q = some (.file i) → d.node z q = some (.file i) := by
    intro z q i hi
    have hz : ¬ D z := fun hz => by
      obtain ⟨b, hb⟩ := w.dir_of hz hi
      cases hb
    rw [← h.file hz]
    exact hi
  exact ⟨fun hP hi => h.next ▸ hd.fresh hP (hfile hi),
    fun hP hP' hi hj => hd.single hP hP' (hfile hi) (hfile hj)⟩

/-- A slot that is there is found by `sfs_clone_branch` too. -/
theorem does_replicaBranch {e : Int} {I : Disk → Prop} {G Q : Except Int Replica → Sys → Prop}
    {dz : SfsDentry} (hz : s.mem Y = some dz) :
    Does e I G (replicaBranch Y p) s Q ↔ Does e I G (sfsCloneBranch p Y) s Q := by
  rw [replicaBranch, does_findReplicaDentry]
  simp only [hz, Option.some.injEq, exists_eq_left']
  split
  · next hr => cases Y <;> simp [sfsCloneBranch, hz, hr]
  · exact Iff.rfl

/-- `create_replica_dir`: on the way there are only replicas without a mark. -/
theorem made_createReplicaDir (w : World N D s.disk) (hs : PathSeen N s Y) (hp : p < N) (hY : D Y)
    (normal : Bool) :
    ∃ t ds, Made (createReplicaDir Y p normal) s (.ok ⟨Y, some .dir⟩) t ds
      ∧ Kept N D s t ∧ Grown D Y p normal s.disk t.disk
      ∧ (∀ d ∈ ds, World N D d ∧ Clones D p s.disk d)
      ∧ t.counters = s.counters := by
  obtain ⟨t, ds, hclone, hk, hc, hh, -, hds, hcount⟩ := made_sfsCloneBranch w hs hp hY
  obtain ⟨dY, hmem, -⟩ := hs suffix_rfl
  have hmade : Made (replicaBranch Y p) s (.ok ⟨Y, some .dir⟩) t ds :=
    fun e I G Q => (does_replicaBranch hmem).trans (hclone e I G Q)
  cases normal with
  | false =>
    refine ⟨t, ds, fun e I G Q => ?_, hk, hc.grown hh, hds, hcount⟩
    rw [createReplicaDir, does_made hmade]
    simp
  | true =>
    obtain ⟨dz, hz, hR⟩ := hk.seen (hs suffix_rfl)
    obtain ⟨b, hb⟩ := hh
    cases b with
    | true =>
      have hmap := (hR.map p).mpr hb
      refine ⟨t, ds, fun e I G Q => ?_, hk, (hc.grown ⟨_, hb⟩).marked hb, hds, hcount⟩
      rw [createReplicaDir, does_made hmade]
      simp [setNormalDir, hz, hmap, bind_bind]
    | false =>
      have hmap : dz.normalDirMap p = false := by
        rw [← Bool.not_eq_true, hR.map, hb]
        simp
      have hk' : Kept N D t (t.one Y (dz.turnNormal p) (t.disk.setNode Y p (some (.dir true)))) :=
        .of_one hY (hk.world.mark ⟨_, hb⟩) (hR.turn hk.world hb) (fun hz p => setNode_of_ne hz)
      refine ⟨_, ds ++ [t.disk], fun e I G Q => ?_, hk.trans hk',
        (hc.grown ⟨_, hb⟩).mark hY, ?_, ?_⟩
      · rw [createReplicaDir, does_made hmade, forall_mem_append, forall_mem_singleton]
        simp [setNormalDir, hz, hmap, hR.dir hb, hb, does_setNormal,
          bind_bind, onlyIf, setD_eq_one, and_assoc]
      · rw [forall_mem_append, forall_mem_singleton]
        exact ⟨hds, hk.world, hc⟩
      · rw [one_counters hz (show (dz.turnNormal p).localCounter = _ from rfl)]
        exact hcount

end Clone

end Sfs
