import MultiLanes.SfsRenameRunProofs

/-! # SFS — states that stay consistent

`Tidy` is what holds between two calls: every file name is plain or partitioned, the
dentries that are cached show it, and a directory with a partitioned file is normal in
`spanThreshold` partitions, so that no further one becomes normal and no data file comes
to lie in a normal partition.  The calls on files keep it. -/

namespace Sfs

open InteractProg Function

/-- A mount between two calls; `F` says what each file name is. -/
structure Tidy (N : Nat) (D : Path → Prop) (F : Path → Option File) (s : Sys) :
    Prop where
  world : World N D s.disk
  priv : Private (fun _ => True) s.disk
  seen : ∀ {Z}, D Z → DirSeen N s Z
  named : ∀ {z}, ¬ D z → D z.tail → Named s.disk z (F z)
  spanned : ∀ {z f}, ¬ D z → D z.tail → F z = some f → f.parted ≠ none →
    spanThreshold N ≤ s.disk.normals N z.tail
  cached : ∀ {z dz}, ¬ D z → D z.tail → s.mem z = some dz → Shows N s.disk z (F z) dz
  counter : s.lastDispatch ≤ 1024

/-! ## Lookups -/

section Lookup

variable {N : Nat} {D : Path → Prop} {s : Sys} {c : Nat} {Z : Path}
  {dZ : SfsDentry} {f : File} {F : Option File}

/-- A slot that was looked up shows the column. -/
theorem match_fill {d : Disk} {z : Path} {dz : SfsDentry} {p q : Nat}
    (w : World N D d) (hz : ¬ D z) (h : q ≠ p → dz.Match z (d.col z) q) :
    (dz.fill d z p).Match z (d.col z) q := by
  by_cases hq : q = p
  · refine .inr ?_
    rw [hq, SfsDentry.fill, setReplica_self, w.slot_eq hz]
  · rw [SfsDentry.Match, SfsDentry.fill, setReplica_of_ne hq]
    exact h hq

theorem fill_null {d : Disk} {z : Path} {dz : SfsDentry} {p q : Nat} {o : Obj} (w : World N D d)
    (hp : d.node z p = some o) (h : ∀ {q}, N ≤ q → dz.replicas q = none) (hq : N ≤ q) :
    (dz.fill d z p).replicas q = none := by
  rw [SfsDentry.fill, setReplica_of_ne]
  · exact h hq
  · rintro rfl
    exact absurd (w.within hp) (not_lt.mpr hq)

section

variable (w : World N D s.disk) (hD : ¬ D (c :: Z)) (hZ : s.mem Z = some dZ)
  (hR : Reflects N s.disk Z dZ)
include w hD hZ hR

theorem lookup_absent (hn : Named s.disk (c :: Z) none) :
    Shows N s.disk (c :: Z) none .fresh
      ∧ Calm (sfsLookup N (c :: Z)) s 0 (s.one (c :: Z) .fresh s.disk) := by
  have hcol : ∀ p, s.disk.col (c :: Z) p = none := by
    intro p
    rw [hn.col]
    rfl
  have hscan : Calm (normalScan N (c :: Z) (List.range N))
      (s.one (c :: Z) .fresh s.disk) (.ok false)
      (s.one (c :: Z) .fresh s.disk) :=
    (normalScan_none hZ hR (fun p _ _ => (w.col_none_iff hD).mp (hcol p))).calm
  refine ⟨⟨rfl, rfl, rfl, fun p => .inl ⟨rfl, hcol p⟩, fun _ => rfl⟩, rfl, fun e I G Q => ?_⟩
  rw [sfsLookup, does_setD, setD_eq_one, does_calm hscan]
  simp [instantiate, SfsDentry.fresh]

theorem lookup_plain (hn : Named s.disk (c :: Z) (some f)) (hp : f.parted = none) :
    ∃ dz, Shows N s.disk (c :: Z) (some f) dz
      ∧ Calm (sfsLookup N (c :: Z)) s 0 (s.one (c :: Z) dz s.disk) := by
  obtain ⟨hnormal, hlinks⟩ := (hn.fits f rfl).plain hp
  have hcol : s.disk.col (c :: Z) = only f.data (f.ino, f.attr) :=
    hn.col.trans (File.colWith_plain hp)
  have hfirst := First.of_only hcol hnormal
  have hspot := hfirst.spot hZ hR
  have hattr := (col_eq_some.mp hfirst.col).2
  refine ⟨{ SfsDentry.fresh.fill s.disk (c :: Z) f.data with
    positive := true, replicaId := some f.data }, ?_, rfl, fun e I G Q => ?_⟩
  · refine ⟨rfl, rfl, ?_, fun p => ?_, fun hq => ?_⟩
    · simp [File.metaId, hp, SfsDentry.fill, SfsDentry.setReplica, SfsDentry.fresh]
    · exact match_fill w hD (fun hq => .inl ⟨rfl, by
        rw [hcol]; exact only_of_ne hq⟩)
    · exact fill_null w hspot.node (fun _ => rfl) hq
  · rw [does_sfsLookup_first w hD hZ hR hfirst]
    rcases hlinks with ha | ha <;>
      simp [foundFile, validatePartitionedFile, SfsDentry.IsFile, hspot.slot,
        hattr, ha, Ptrs.unset, validateHidden, validateRename, validatePointer,
        instantiate, bind_bind]

theorem lookup_parted (hn : Named s.disk (c :: Z) (some f)) {m : Nat × Nat}
    (hp : f.parted = some m) :
    ∃ dz, Shows N s.disk (c :: Z) (some f) dz
      ∧ Calm (sfsLookup N (c :: Z)) s 0 (s.one (c :: Z) dz s.disk) := by
  have hfit := hn.fits f rfl
  obtain ⟨hmn, hgn, hlinks⟩ := hfit.split hp
  have hne := hfit.meta_ne hp
  have hcol : s.disk.col (c :: Z) = both m.1 (m.2, some (pointerTo f.data))
      f.data (f.ino, f.attr) := hn.col.trans (File.colWith_parted hp)
  have hfirst := First.of_both hcol hmn (fun h => absurd h hgn)
  have hspot := hfirst.spot hZ hR
  have hattr := (col_eq_some.mp hfirst.col).2
  have hdata := hn.data_node
  obtain ⟨b, hb⟩ := w.held hdata
  have hdattr : s.disk.attr f.data f.ino = some (pointerTo m.1) := by
    have hc : s.disk.col (c :: Z) f.data = some (f.ino, f.attr) := by
      rw [hcol]
      exact both_right hne.symm
    rw [(col_eq_some.mp hc).2, hlinks]
  have hfill : ∀ dz : SfsDentry, dz.fill s.disk (c :: Z) f.data
      = dz.setReplica f.data (some ⟨c :: Z, some (.file f.ino)⟩) := by
    intro dz
    rw [SfsDentry.fill, Disk.slot, hdata]
    rfl
  refine ⟨{ (SfsDentry.fresh.fill s.disk (c :: Z) m.1).fill s.disk (c :: Z)
      f.data with
    positive := true, replicaId := some f.data, metaId := some m.1 }, ?_, rfl,
    fun e I G Q => ?_⟩
  · refine ⟨rfl, rfl, ?_, fun p => ?_, fun hq => ?_⟩
    · simp [File.metaId, hp]
    · refine match_fill w hD (fun hq => match_fill w hD (fun hq' =>
        .inl ⟨rfl, ?_⟩))
      rw [hcol]
      exact both_of_ne hq' hq
    · exact fill_null w hdata (fun hq => fill_null w hspot.node (fun _ => rfl) hq) hq
  · rw [does_sfsLookup_first w hD hZ hR hfirst]
    simp [foundFile, validatePartitionedFile, SfsDentry.IsFile, hspot.slot,
      hattr, hdattr, pointerTo, Ptrs.unset, validateHidden, validateRename,
      validatePointer, instantiate, bind_bind, one_mem_of_ne (tail_ne c Z), hZ,
      getReplicaDentry, hspot.null hne.symm, hR.dir hb, hdata, Obj.inode,
      checked, hfill]

/-- A lookup of a name makes a dentry that shows what it is. -/
theorem lookup_named {F : Option File} (hn : Named s.disk (c :: Z) F) :
    ∃ dz, Shows N s.disk (c :: Z) F dz
      ∧ Calm (sfsLookup N (c :: Z)) s 0 (s.one (c :: Z) dz s.disk) := by
  cases F with
  | none => exact ⟨_, lookup_absent w hD hZ hR hn⟩
  | some f =>
    cases hp : f.parted with
    | none => exact lookup_plain w hD hZ hR hn hp
    | some m => exact lookup_parted w hD hZ hR hn hp

end

end Lookup

/-! ## From one state to the next -/

section Steps

variable {N : Nat} {D : Path → Prop} {F F' : Path → Option File} {s t : Sys}
  {x y z Z : Path} {f : File}

theorem normals_mono {d d' : Disk}
    (h : ∀ q, d.node Z q = some (.dir true) → d'.node Z q = some (.dir true)) :
    d.normals N Z ≤ d'.normals N Z :=
  List.countP_mono_left (fun q _ hq => by
    rw [decide_eq_true_iff] at hq ⊢
    exact h q hq)

/-- Marks that are new do not matter to a file that fits: a directory with a
    partitioned file has none. -/
theorem File.Fits.marked {d d' : Disk} (h : f.Fits d Z)
    (hmark : ∀ q, d.node Z q = some (.dir true) → d'.node Z q = some (.dir true))
    (hspan : f.parted ≠ none → ∀ q, d'.node Z q = some (.dir true) →
      d.node Z q = some (.dir true)) : f.Fits d' Z := by
  unfold File.Fits at h ⊢
  split
  · next hp =>
    rw [hp] at h
    exact ⟨hmark _ h.1, h.2⟩
  · next m hp =>
    rw [hp] at h
    exact ⟨hmark _ h.1, fun hn => h.2.1 (hspan (by rw [hp]; exact nofun) _ hn), h.2.2⟩

/-- What a name is after a call: as before, or something that was worked on. -/
structure Became (N : Nat) (F' : Path → Option File) (t : Sys) (z : Path) :
    Prop where
  named : Named t.disk z (F' z)
  spanned : ∀ {f}, F' z = some f → f.parted ≠ none → spanThreshold N ≤ t.disk.normals N z.tail
  cached : ∀ {dz}, t.mem z = some dz → Shows N t.disk z (F' z) dz

/-- A call keeps the mount tidy when it does on the directories and the names
    that it works on. -/
theorem Tidy.step (h : Tidy N D F s) (w : World N D t.disk) (hpriv : Private (fun _ => True) t.disk)
    (hseen : ∀ {Z}, D Z → DirSeen N t Z) (hl : t.lastDispatch ≤ 1024)
    (hmark : ∀ {Z} q, s.disk.node Z q = some (.dir true) → t.disk.node Z q = some (.dir true))
    (hspan : ∀ {Z}, spanThreshold N ≤ s.disk.normals N Z → ∀ q,
      t.disk.node Z q = some (.dir true) → s.disk.node Z q = some (.dir true))
    (hnames : ∀ {z}, ¬ D z → D z.tail →
      (F' z = F z ∧ t.disk.col z = s.disk.col z ∧ t.mem z = s.mem z)
        ∨ Became N F' t z) : Tidy N D F' t where
  world := w
  priv := hpriv
  seen := hseen
  named {z} hz hZ := by
    rcases hnames hz hZ with ⟨hF, hcol, -⟩ | hb
    · rw [hF]
      have hn := h.named hz hZ
      refine ⟨hcol.trans hn.col, fun f hf => ?_⟩
      exact (hn.fits f hf).marked hmark (fun hp => hspan (h.spanned hz hZ hf hp))
    · exact hb.named
  spanned {z f} hz hZ hf hp := by
    rcases hnames hz hZ with ⟨hF, -, -⟩ | hb
    · exact le_trans (h.spanned hz hZ (hF.symm.trans hf) hp) (normals_mono hmark)
    · exact hb.spanned hf hp
  cached {z dz} hz hZ hm := by
    rcases hnames hz hZ with ⟨hF, hcol, hmem⟩ | hb
    · have hs := h.cached hz hZ (hmem.symm.trans hm)
      rw [hF]
      exact ⟨hs.positive, hs.replicaId, hs.metaId, by rw [hcol]; exact hs.slots, hs.null⟩
    · exact hb.cached hm
  counter := hl

/-- A call on one name. -/
theorem Tidy.one {dz : SfsDentry} {d : Disk} {G : Option File} (h : Tidy N D F s) (hz : ¬ D z)
    (w : World N D d) (hpriv : Private (fun _ => True) d)
    (hnodes : ∀ {y}, y ≠ z → d.node y = s.disk.node y)
    (hcols : ∀ {y}, y ≠ z → d.col y = s.disk.col y) (hn : Named d z G)
    (hspan : ∀ {f}, G = some f → f.parted ≠ none → spanThreshold N ≤ d.normals N z.tail)
    (hS : Shows N d z G dz) : Tidy N D (update F z G) (s.one z dz d) := by
  refine h.step w hpriv (fun {Y} hY => ?_) h.counter (fun {Y} q hq => ?_)
    (fun {Y} _ q hq => ?_) (fun {y} hy hY => ?_)
  · obtain ⟨dY, hdY, hRY⟩ := h.seen hY
    exact ⟨dY, (one_mem_of_ne (dir_ne hY hz)).trans hdY,
      hRY.congr (congrFun (hnodes (dir_ne hY hz)))⟩
  · have hY := (h.world.dir_iff hq).mp ⟨true, rfl⟩
    exact (congrFun (hnodes (dir_ne hY hz)) q).trans hq
  · have hY := (w.dir_iff hq).mp ⟨true, rfl⟩
    exact (congrFun (hnodes (dir_ne hY hz)) q).symm.trans hq
  · by_cases hyz : y = z
    · subst hyz
      refine .inr ⟨?_, fun hf => ?_, fun {dy} hdy => ?_⟩
      · rw [update_self]
        exact hn
      · rw [update_self] at hf
        exact hspan hf
      · obtain rfl : dz = dy := Option.mem_unique one_mem hdy
        rw [update_self]
        exact hS
    · exact .inl ⟨update_of_ne hyz .., hcols hyz, one_mem_of_ne hyz⟩

/-- A name is looked up, or is in the cache. -/
theorem Tidy.lookup (h : Tidy N D F s) (hz : ¬ D z) (hZ : D z.tail) :
    ∃ dz, Shows N s.disk z (F z) dz ∧ Tidy N D F (s.setD z dz)
      ∧ Calm (sfsLookup N z) s 0 (s.setD z dz) := by
  obtain ⟨dZ, hmem, hR⟩ := h.seen hZ
  have hlook : ∃ dz, Shows N s.disk z (F z) dz ∧ Calm (sfsLookup N z) s 0 (s.one z dz s.disk) := by
    cases z with
    | nil => exact absurd h.world.root hz
    | cons c Z => exact lookup_named h.world hz hmem hR (h.named hz hZ)
  obtain ⟨dz, hS, hcalm⟩ := hlook
  have hone := h.one hz h.world h.priv (fun _ => rfl) (fun _ => rfl) (h.named hz hZ)
    (h.spanned hz hZ) hS
  rw [update_eq_self] at hone
  exact ⟨dz, hS, hone, hcalm⟩

/-! ## `sfs_create` -/

theorem Runs.run {c : Code Int} {b : Int} (h : Runs c s (fun a u => a = b ∧ u = t)) :
    InteractProg.run sysHandler c s = some (b, t) := by
  obtain ⟨a, u, hrun, rfl, rfl⟩ := runs_iff.mp h
  exact hrun

/-- The dentry of a file that was made in partition `r`. -/
def SfsDentry.made (dz : SfsDentry) (z : Path) (r i : Nat) : SfsDentry :=
  { dz.setReplica r (some ⟨z, some (.file i)⟩) with
    positive := true, replicaId := some r }

variable {dz : SfsDentry}

section

variable (h : Tidy N D F s) (hN : 0 < N) (hN' : N ≤ 1025) (hz : ¬ D z) (hZ : D z.tail)
  (hF : F z = none) (hmem : s.mem z = some dz)
include h hN hN' hz hZ hF hmem

/-- What is done for a new file: a partition is chosen, its directory is made
    there, and a file of the name is free to be made in it. -/
theorem Tidy.place :
    ∃ r s₁ s₂ es, Calm (localDispatch N z.tail) s r s₁
      ∧ Made (createReplicaDir z.tail r true) s₁ (.ok ⟨z.tail, some .dir⟩) s₂ es
      ∧ Calm (getReplicaDentry (some ⟨z.tail, some .dir⟩) z r) s₂
          (s₂.disk.slot z r) (s₂.setD z (dz.fill s₂.disk z r))
      ∧ s₂.disk.node z r = none ∧ s₂.disk.next = s.disk.next
      ∧ Tidy N D (update F z (some ⟨r, s.disk.next, none, none⟩))
          (s₂.one z (dz.made z r s₂.disk.next) (s₂.disk.addFile z r)) := by
  obtain ⟨dZ, hdZ, hR⟩ := h.seen hZ
  obtain ⟨r, l, dZ', hr, hl, hR', hchoice, hdisp⟩ :=
    calm_localDispatch hN hN' h.counter hdZ hR
  -- the state after the choice
  let s₁ : Sys := { s.setD z.tail dZ' with lastDispatch := l }
  have hseen₁ : ∀ {Y}, D Y → DirSeen N s₁ Y := by
    intro Y hY
    by_cases hYZ : Y = z.tail
    · rw [hYZ]
      exact ⟨dZ', update_self .., hR'⟩
    · obtain ⟨dY, hdY, hRY⟩ := h.seen hY
      exact ⟨dY, (update_of_ne hYZ ..).trans hdY, hRY⟩
  obtain ⟨s₂, es, hmade, hk, hg, -⟩ := made_createReplicaDir (s := s₁) h.world
    (fun hY => hseen₁ (World.of_suffix h.world hY hZ)) hr hZ true
  have hmem₂ : s₂.mem z = some dz :=
    (hk.files hz).trans ((update_of_ne (dir_ne hZ hz).symm ..).trans hmem)
  have hS := h.cached hz hZ hmem
  rw [hF] at hS
  have hnone : s.disk.col z = noFile := by
    have hn := h.named hz hZ
    rw [hF] at hn
    exact hn.col
  have hcol₂ : s₂.disk.col z = noFile := (hg.col hz).trans hnone
  have hsound : Sound s₂.disk z dz := by
    intro p
    rw [hk.world.slot_eq hz, hcol₂, ← hnone]
    exact (hS.slots p).imp And.left id
  have hget := calm_getReplicaDentry (p := r)
    (r := some ⟨z.tail, some .dir⟩) hmem₂ hsound (fun _ => ⟨.dir, rfl⟩)
  have hfree : s₂.disk.node z r = none :=
    (hk.world.col_none_iff hz).mp (congrFun hcol₂ r)
  obtain ⟨b, hb⟩ := hg.there
  have hw := hk.world.addFile hz hr ⟨b, hb⟩
  have hnext : s₂.disk.next = s.disk.next := hg.next
  have hcol : (s₂.disk.addFile z r).col z = only r (s.disk.next, none) := by
    rw [col_addFile, hcol₂, hnext]
    rfl
  -- the directory is made, where it may be normal or is, and then the file
  have hpriv := hg.priv hk.world h.priv
  have h₂ : Tidy N D F s₂ := by
    refine h.step hk.world hpriv (fun hY => hk.seen (hseen₁ hY))
      (le_trans (Nat.le_of_eq hk.lastDispatch) hl) (fun q hq => hg.normal_iff.mpr (.inl hq))
      (fun {Y} hspan q hq => ?_) fun hy _ => .inl ⟨rfl, hg.col hy,
        (hk.files hy).trans (update_of_ne (dir_ne hZ hy).symm ..)⟩
    rcases hg.normal_iff.mp hq with hq | ⟨-, rfl, rfl⟩
    · exact hq
    · rcases hchoice with hlt | hmap
      · rw [hR.normals] at hlt
        exact absurd hlt (not_lt.mpr hspan)
      · exact (hR.map q).mp hmap
  refine ⟨r, s₁, s₂, es, hdisp, hmade, hget, hfree, hnext,
    h₂.one hz hw hpriv.addFile addFile_node_of_ne (hpriv.col_addFile_of_ne trivial)
      ⟨hcol, ?_⟩ (fun hf hp => ?_) ⟨rfl, rfl, hS.metaId, fun p => ?_, fun {p} hp => ?_⟩⟩
  · rintro _ ⟨⟩
    refine ⟨?_, .inl rfl⟩
    rw [addFile_node_of_ne (dir_ne hZ hz)]
    exact hg.normal_iff.mpr (.inr ⟨rfl, rfl, rfl⟩)
  · cases hf
    exact absurd rfl hp
  · rw [hcol, ← hnext]
    show (dz.setReplica r _).Match z (only r (s₂.disk.next, none)) p
    refine match_store (f := some (s₂.disk.next, none)) (fun _ => ?_)
    rw [← hnone]
    exact hS.slots p
  · show (dz.setReplica r _).replicas p = none
    rw [setReplica_of_ne]
    · exact hS.null hp
    · rintro rfl
      exact absurd hr (not_lt.mpr hp)

/-- A file is created in the partition that was chosen, in which its directory is normal then. -/
theorem Tidy.create :
    ∃ t r, run sysHandler (sfsCreate N z) s = some (0, t) ∧ Tidy N D
        (update F z (some ⟨r, s.disk.next, none, none⟩)) t := by
  obtain ⟨r, s₁, s₂, es, hdisp, hmade, hget, hfree, -, ht⟩ :=
    h.place hN hN' hz hZ hF hmem
  have hrun : Runs (sfsCreate N z) s (fun a u => a = 0
      ∧ u = s₂.one z (dz.made z r s₂.disk.next) (s₂.disk.addFile z r)) := by
    rw [sfsCreate, Runs, does_calm hdisp, checked, simpleAddEntry, bind_bind, does_made hmade]
    refine ⟨fun _ _ => trivial, ?_⟩
    show Does _ _ _ ((getReplicaDentry (some ⟨z.tail, some .dir⟩) z r >>= _) >>= _) s₂ _
    rw [bind_bind, does_calm hget, setD_eq_one, SfsDentry.fill]
    have hfree' : (s₂.one z (dz.setReplica r (some (s₂.disk.slot z r)))
        s₂.disk).disk.node z r = none := hfree
    simp [createReplica, does_create hfree', instantiate, bind_bind, SfsDentry.made]
  exact ⟨_, r, hrun.run, ht⟩

end

/-! ## `sfs_unlink` -/

/-- `d_delete` of the VFS, after the file system has deleted a name. -/
def dDelete (z : Path) : Code Unit := modD z (fun d => { d with positive := false })

/-- The disks without any file of a name. -/
structure Cleared (N : Nat) (D : Path → Prop) (z : Path) (d d' : Disk) :
    Prop where
  world : World N D d'
  priv : Private (fun _ => True) d'
  col : d'.col z = noFile
  nodes : ∀ {w}, w ≠ z → d'.node w = d.node w
  cols : ∀ {w}, w ≠ z → d'.col w = d.col w

/-- The data file goes first, then the meta file. -/
theorem made_delete (w : World N D s.disk) (hpriv : Private (fun _ => True) s.disk) (hz : ¬ D z)
    (hn : Named s.disk z (some f)) (hmem : s.mem z = some dz) (hS : Shows N s.disk z (some f) dz) :
    ∃ dz' d' ds, Made (match f.metaId with
        | some metaId => deletePartitionedFile z f.data metaId
        | none => unlinkSlot z f.data) s 0 (s.one z dz' d') ds
      ∧ Cleared N D z s.disk d' := by
  have hA := (hn.fits f rfl).apart
  have hdata := hn.data_node
  have hcol : s.disk.col z = f.colWith f.attr := hn.col
  have hslot : dz.replicas f.data = some ⟨z, some (.file f.ino)⟩ :=
    (hS.slots f.data).slot (by rw [hcol]; exact hA.colWith_data)
  have hone := made_unlinkSlot hmem hslot hdata
  rw [File.metaId]
  cases hp : f.parted with
  | none =>
    refine ⟨_, s.disk.setNode z f.data none, _, hone, w.clear hz, hpriv.clear,
      ?_, fun hw => funext fun _ => setNode_of_ne hw,
      fun hw => col_setNode_of_ne hw⟩
    rw [col_clear, hcol, hA.leave, File.rest, hp]
  | some m =>
    have hne : m.1 ≠ f.data := hA m hp
    have hmcol : s.disk.col z m.1 = some (m.2, some (pointerTo f.data)) := by
      rw [hcol, File.colWith_parted hp]
      exact both_left
    have hmslot := (hS.slots m.1).slot hmcol
    have htwo := made_unlinkSlot (s := s.one z (dz.setReplica f.data (some ⟨z, none⟩))
        (s.disk.setNode z f.data none)) (p := m.1) (i := m.2) one_mem
      ((setReplica_of_ne hne).trans hmslot)
      ((setNode_of_ne_part hne).trans (col_eq_some.mp hmcol).1)
    rw [one_onDisk, one_setD] at htwo
    refine ⟨_, _, _, Made.bind hone htwo, (w.clear hz).clear hz,
      hpriv.clear.clear, ?_, fun hw => ?_, fun hw => ?_⟩
    · show ((s.disk.setNode z f.data none).setNode z m.1 none).col z = noFile
      rw [col_clear, col_clear, hcol, hA.leave, File.rest, hp, only_clear]
    · exact funext fun _ => (setNode_of_ne hw).trans (setNode_of_ne hw)
    · exact (col_setNode_of_ne hw).trans (col_setNode_of_ne hw)

/-- A file is deleted. -/
theorem Tidy.unlink (h : Tidy N D F s) (hz : ¬ D z) (hZ : D z.tail)
    (hF : F z = some f) (hmem : s.mem z = some dz) :
    ∃ t, run sysHandler (checked (sfsUnlink z) do
        dDelete z
        return 0) s = some (0, t)
      ∧ Tidy N D (update F z none) t := by
  have hn := h.named hz hZ
  have hS := h.cached hz hZ hmem
  rw [hF] at hn hS
  have hready : Ready N D s z (some f) :=
    ⟨hz, hZ, fun hY => h.seen (h.world.of_suffix hY hZ), hn, dz, hmem, hS⟩
  have hid : dz.replicaId = some f.data := hS.replicaId
  have hmeta : dz.metaId = f.metaId := hS.metaId
  obtain ⟨dz₁, d', ds, hmade, hc⟩ := made_delete h.world h.priv hz hn hmem hS
  let dz' : SfsDentry := { dz₁.clean with positive := false }
  have hrun : Runs (checked (sfsUnlink z) do
      dDelete z
      return 0) s (fun a u => a = 0 ∧ u = s.one z dz' d') := by
    rw [checked, sfsUnlink, checked, bind_bind, Runs, does_calm (calm_validateFile hready)]
    simp only [hmem, hid, hmeta, deref_some, does_sfsD, bind_bind, ret_bind,
      ne_eq, not_true_eq_false, if_false, Option.some.injEq, exists_eq_left',
      checked]
    refine (does_made hmade).mpr ⟨fun _ _ => trivial, ?_⟩
    simp [cleanDentry, dDelete, bind_bind, dz']
  exact ⟨_, hrun.run, h.one hz hc.world hc.priv hc.nodes hc.cols
    ⟨hc.col, fun _ hf => by cases hf⟩ (fun hf => by cases hf)
    ⟨rfl, rfl, rfl, fun p => .inl ⟨rfl, congrFun hc.col p⟩, fun _ => rfl⟩⟩

/-! ## `sfs_rename` -/

variable {P : Path → Prop} {G : Option File} {cs fs : List (Column × Column)} {cy : Column}
  {om : Option Nat}

/-- A rename has ended, and the VFS has moved the dentry: `f'` is what the new name is then. -/
theorem Tidy.renamed {g : File} (h : Tidy N D F s) (hP : ∀ z, P z) (hscene : Scene N D P s x y f G)
    (hR : Renames N D P x y f G s t cs fs cy om) (hcol : cy = g.col) (hom : om = g.metaId)
    (hdata : g.data = f.data) (hfits : g.Fits t.disk y.tail)
    (hspan : g.parted ≠ none → spanThreshold N ≤ t.disk.normals N y.tail) :
    ∃ v, run sysHandler (checked (sfsRenameOther N x y) do
        moveD x y
        return 0) s = some (0, v)
      ∧ Tidy N D (update (update F x none) y (some g)) v := by
  obtain ⟨u, es, ds, gs, htr, -, -, -, hdone⟩ := hR.run
  obtain ⟨hv, dx, dy, hu, hpos, hid, hmeta, hslots, hnull⟩ := hdone
  have hE := hscene.ends
  have hrun : run sysHandler (checked (sfsRenameOther N x y) do
      moveD x y
      return 0) s = some (0, u.moveD x y) := by
    rw [checked, run_bind_some htr.run]
    rfl
  have hg := hR.entry.grown
  have hmy : (u.moveD x y).mem y = some dx := by
    show update (update u.mem y (u.mem x)) x none y = _
    rw [update_of_ne hE.ne.symm, update_self, hu]
    exact two_left hE.ne
  have hmx : (u.moveD x y).mem x = none := update_self ..
  have hmz : ∀ {z}, z ≠ x → z ≠ y → (u.moveD x y).mem z = t.mem z := by
    intro z hzx hzy
    show update (update u.mem y (u.mem x)) x none z = _
    rw [update_of_ne hzx, update_of_ne hzy, hu]
    exact two_of_ne hzx hzy
  refine ⟨_, hrun, h.step hv.world ⟨fun _ => hv.priv.fresh (hP _),
    fun _ _ => hv.priv.single (hP _) (hP _)⟩ (fun {Y} hY => ?_) ?_
    (fun {Y} q hq => ?_) (fun {Y} hfull q hq => ?_) (fun {z} hz hZ => ?_)⟩
  · obtain ⟨dY, hdY, hRY⟩ := hR.entry.seen hY (h.seen hY)
    exact ⟨dY, (hmz (dir_ne hY hE.old) (dir_ne hY hE.new)).trans hdY,
      hRY.congr (congrFun (hv.dirs hY))⟩
  · show u.lastDispatch ≤ 1024
    rw [hu]
    show t.lastDispatch ≤ 1024
    rw [hR.entry.lastDispatch]
    exact h.counter
  · show u.disk.node Y q = _
    rw [hv.dirs ((h.world.dir_iff hq).mp ⟨true, rfl⟩)]
    exact hg.normal_iff.mpr (.inl hq)
  · rw [show (u.moveD x y).disk.node Y q = u.disk.node Y q from rfl,
      hv.dirs ((hv.world.dir_iff hq).mp ⟨true, rfl⟩)] at hq
    rcases hg.normal_iff.mp hq with hq | ⟨hturn, rfl, rfl⟩
    · exact hq
    · -- the mark is new only below the threshold
      rw [Disk.canTurn, Bool.or_eq_true, decide_eq_true_iff, decide_eq_true_iff] at hturn
      exact hturn.resolve_right (not_lt.mpr hfull)
  · by_cases hzy : z = y
    · subst hzy
      refine .inr ⟨⟨?_, ?_⟩, fun hf hp => ?_, fun {dz} hdz => ?_⟩
      · rw [update_self]
        exact hv.right.trans hcol
      · rw [update_self]
        rintro _ ⟨⟩
        refine hfits.congr (fun q => ?_)
        rw [show (u.moveD x z).disk.node z.tail q = u.disk.node z.tail q from rfl, hv.dirs hZ]
      · rw [update_self] at hf
        cases hf
        refine le_trans (hspan hp) (normals_mono (fun q hq => ?_))
        show u.disk.node z.tail q = _
        rw [hv.dirs hZ]
        exact hq
      · obtain rfl : dx = dz := Option.mem_unique hmy hdz
        rw [update_self]
        refine ⟨hpos, hid.trans (congrArg some hdata.symm), hmeta.trans hom, fun p => ?_, hnull⟩
        show dx.Match z (u.disk.col z) p
        rw [hv.right]
        exact hslots p
    · by_cases hzx : z = x
      · subst hzx
        refine .inr ⟨⟨?_, ?_⟩, fun hf => ?_, fun {dz} hdz => ?_⟩
        · rw [update_of_ne hzy, update_self]
          exact hv.left
        · rw [update_of_ne hzy, update_self]
          intro _ hf
          cases hf
        · rw [update_of_ne hzy, update_self] at hf
          cases hf
        · cases hmx.symm.trans hdz
      · refine .inl ⟨?_, ?_, ?_⟩
        · rw [update_of_ne hzy, update_of_ne hzx]
        · exact (hv.others (hP z) hzx hzy).trans (hg.col hz)
        · exact (hmz hzx hzy).trans (hR.entry.files hz hzy)

/-- The source as a plain file at its new name. -/
theorem Renames.fits_plain {a : Option Ptrs} (hR : Renames N D P x y f G s t cs fs cy om)
    (hturn : s.disk.canTurn N y.tail f.data = true) (ha : NoLinks a) :
    (File.mk f.data f.ino a none).Fits t.disk y.tail :=
  ⟨hR.entry.grown.normal_iff.mpr (.inr ⟨hturn, rfl, rfl⟩), ha⟩

/-- The source as a partitioned file, with its meta file in partition `q`. -/
theorem Renames.fits_parted {q l : Nat} (hR : Renames N D P x y f G s t cs fs cy om)
    (hturn : s.disk.canTurn N y.tail f.data = false) (hq : s.disk.node y.tail q = some (.dir true))
    :
    (File.mk f.data f.ino (some (pointerTo q)) (some (q, l))).Fits t.disk y.tail
      ∧ spanThreshold N ≤ t.disk.normals N y.tail := by
  obtain ⟨hno, hfull⟩ := canTurn_false hturn
  refine ⟨⟨hR.entry.grown.normal_iff.mpr (.inl hq), fun hn => ?_, rfl⟩, ?_⟩
  · rcases hR.entry.grown.normal_iff.mp hn with hn | hn
    · exact hno hn
    · cases hturn.symm.trans hn.1
  · exact le_trans hfull (normals_mono (fun _ hn =>
      hR.entry.grown.normal_iff.mpr (.inl hn)))

/-- What a rename leaves is the source, at the new name. -/
def Moved (N : Nat) (D : Path → Prop) (F : Path → Option File) (s : Sys)
    (x y : Path) (f : File) : Prop :=
  ∃ t f', run sysHandler (checked (sfsRenameOther N x y) do
      moveD x y
      return 0) s = some (0, t)
    ∧ f'.at = f.at
    ∧ Tidy N D (update (update F x none) y (some f')) t

section

variable (h : Tidy N D F s) (hP : ∀ z, P z)
include h hP

theorem Tidy.moved_plain {a : Option Ptrs} (hscene : Scene N D P s x y f G)
    (hturn : s.disk.canTurn N y.tail f.data = true) (hR : Renames N D P x y f G s t cs fs cy none)
    (hcol : cy = only f.data (f.ino, a)) (ha : NoLinks a) :
    Moved N D F s x y f := by
  obtain ⟨v, hrun, hv⟩ := h.renamed (g := ⟨f.data, f.ino, a, none⟩) hP hscene
    hR hcol rfl rfl (hR.fits_plain hturn ha) (fun hp => absurd rfl hp)
  exact ⟨v, ⟨f.data, f.ino, a, none⟩, hrun, rfl, hv⟩

theorem Tidy.moved_parted {q l : Nat} (hscene : Scene N D P s x y f G)
    (hturn : s.disk.canTurn N y.tail f.data = false) (hq : s.disk.node y.tail q = some (.dir true))
    (hR : Renames N D P x y f G s t cs fs cy (some q))
    (hcol : cy = both q (l, some (pointerTo f.data)) f.data (f.ino, some (pointerTo q))) :
    Moved N D F s x y f := by
  obtain ⟨hfit, hspan⟩ := hR.fits_parted (l := l) hturn hq
  obtain ⟨v, hrun, hv⟩ := h.renamed
    (g := ⟨f.data, f.ino, some (pointerTo q), some (q, l)⟩) hP hscene hR hcol
    rfl rfl hfit (fun _ => hspan)
  exact ⟨v, ⟨f.data, f.ino, some (pointerTo q), some (q, l)⟩, hrun, rfl, hv⟩

theorem Tidy.rename_non (hscene : Scene N D P s x y f none) : Moved N D F s x y f := by
  cases hturn : s.disk.canTurn N y.tail f.data with
  | true =>
    cases hp : f.parted with
    | none =>
      obtain ⟨t, hR⟩ := hscene.turn_plain hturn hp
      exact h.moved_plain hP hscene hturn hR rfl ((hscene.old.named.fits f rfl).plain hp).2
    | some m =>
      obtain ⟨t, hR⟩ := hscene.turn_parted hturn hp
      exact h.moved_plain hP hscene hturn hR rfl (.inr rfl)
  | false =>
    obtain ⟨t, p, -, hpn, hpo, hR⟩ := hscene.meta_made hturn
    exact h.moved_parted hP hscene hturn hpn hR (both_comm hpo.symm)

theorem Tidy.rename_exist {g : File} (hscene : Scene N D P s x y f (some g))
    (hspan : g.parted ≠ none → spanThreshold N ≤ s.disk.normals N y.tail) :
    Moved N D F s x y f := by
  have hfit := hscene.new.named.fits g rfl
  cases hm : g.parted with
  | none =>
    have hg : g.col = only g.data (g.ino, g.attr) := File.colWith_plain hm
    have hmeta : g.metaId = none := by rw [File.metaId, hm]; rfl
    cases hturn : s.disk.canTurn N y.tail f.data with
    | true =>
      by_cases hgo : g.data = f.data
      · obtain ⟨t, hR⟩ := hscene.overwrite_data hturn hgo
        refine h.moved_plain hP hscene hturn hR ?_ (.inr rfl)
        simp only [overwriteData, overwriteWay, File.into, hg, hgo, only_set]
      · obtain ⟨t, hR⟩ := hscene.hide_plain hturn hm hgo
        refine h.moved_plain hP hscene hturn hR ?_ (.inr rfl)
        simp only [hidePlain, hideWay, File.into, hg, only_clear, noFile_add]
    | false =>
      have hgo := shadow_ne hturn (hfit.plain hm).1
      obtain ⟨t, hR⟩ := hscene.reuse_data (q := g.data) hturn
        (by rw [hmeta]; rfl) (by rw [hmeta]; simp) hgo hscene.exist_data
      refine h.moved_parted (l := g.ino) hP hscene hturn (hfit.plain hm).1 hR ?_
      simp only [reuseData, reuseWay, File.into, hg, only_set, only_add]
      exact both_comm hgo.symm
  | some m =>
    have hg : g.col = both m.1 (m.2, some (pointerTo g.data)) g.data
        (g.ino, g.attr) := File.colWith_parted hm
    have hmeta : g.metaId = some m.1 := by rw [File.metaId, hm]; rfl
    have hmg : m.1 ≠ g.data := hfit.meta_ne hm
    obtain ⟨hmn, hgn, -⟩ := hfit.split hm
    cases hturn : s.disk.canTurn N y.tail f.data with
    | true =>
      -- the directory is full, so the source is in a normal partition
      have hfn : s.disk.node y.tail f.data = some (.dir true) := by
        rw [Disk.canTurn, Bool.or_eq_true, decide_eq_true_iff, decide_eq_true_iff] at hturn
        exact hturn.resolve_right (not_lt.mpr (hspan (by rw [hm]; exact Option.some_ne_none _)))
      have hgo : g.data ≠ f.data := fun he => hgn (he ▸ hfn)
      by_cases hmo : m.1 = f.data
      · obtain ⟨t, hR⟩ := hscene.overwrite_meta hturn hm hmo
        refine h.moved_plain hP hscene hturn hR ?_ (.inr rfl)
        dsimp only [overwriteMeta, overwriteWay, File.into]
        rw [hg, both_clear_right hmg.symm, hmo, only_set]
      · obtain ⟨t, hR⟩ := hscene.hide_parted hturn hm hmo hgo
        refine h.moved_plain hP hscene hturn hR ?_ (.inr rfl)
        simp only [hideParted, hideWay, File.into, hg, both_clear hmg, only_clear, noFile_add]
    | false =>
      have hmo := shadow_ne hturn hmn
      by_cases hgo : g.data = f.data
      · obtain ⟨t, hR⟩ := hscene.reuse_data (q := m.1) hturn
          (by rw [hmeta]; rfl) (by simp [hgo]) hmo
          (hscene.exist_meta hm).2
        refine h.moved_parted (l := m.2) hP hscene hturn hmn hR ?_
        simp only [reuseData, reuseWay, File.into, hg, hgo, both_set, both_set_right hmo.symm]
      · obtain ⟨t, hR⟩ := hscene.reuse_meta hturn hm hmo hgo
        refine h.moved_parted (l := m.2) hP hscene hturn hmn hR ?_
        simp only [reuseMeta, reuseWay, File.into, hg,
          both_clear_right hmg.symm, only_set, only_add]
        exact both_comm hmo.symm

end

theorem Tidy.ready (h : Tidy N D F s) (hz : ¬ D z) (hZ : D z.tail)
    (hmem : s.mem z = some dz) : Ready N D s z (F z) where
  file := hz
  dir := hZ
  path hY := h.seen (World.of_suffix h.world hY hZ)
  named := h.named hz hZ
  shows := ⟨dz, hmem, h.cached hz hZ hmem⟩

/-- A file is renamed, over whatever the new name was. -/
theorem Tidy.rename (h : Tidy N D F s) (hN : 0 < N) (hx : ¬ D x) (hX : D x.tail) (hy : ¬ D y)
    (hY : D y.tail) (hxy : x ≠ y) (hF : F x = some f) {dx dy : SfsDentry} (hmx : s.mem x = some dx)
    (hmy : s.mem y = some dy) : Moved N D F s x y f := by
  have hscene : ∀ {G}, F y = G →
      Scene N D (fun _ => True) s x y f G := fun hG => {
    pos := hN
    world := h.world
    priv := h.priv
    mine := ⟨trivial, trivial⟩
    ne := hxy
    old := hF ▸ h.ready hx hX hmx
    new := hG ▸ h.ready hy hY hmy }
  cases hG : F y with
  | none => exact h.rename_non (fun _ => trivial) (hscene hG)
  | some g =>
    exact h.rename_exist (fun _ => trivial) (hscene hG) (h.spanned hy hY hG)

end Steps

end Sfs
