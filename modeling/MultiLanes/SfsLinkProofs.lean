import MultiLanes.SfsTidyProofs
import MultiLanes.SfsRenameCrashProofs

/-! # SFS — hard links

The names of a hard link share one inode, and so the one attribute in which a file's
links are stored.  `Linked` is what is wanted after `sfs_link`: fresh lookups of the two
names, in any order, delete nothing and reach the same file.  It holds when the new name
is of the same kind as the old one, plain or partitioned, and in no other case
(`link_valid_iff`). -/

namespace Sfs

open InteractProg Function

/-! ## What is wanted -/

/-- The disks after fresh lookups of the two names, in any order. -/
inductive Looked (N : Nat) (x y : Path) (d : Disk) : Disk → Prop
  | refl : Looked N x y d d
  | step {d' : Disk} {t : Sys} {err : Int} {z : Path} (h : Looked N x y d d')
      (hz : z = x ∨ z = y)
      (hrun : run sysHandler (walk N z) (booted d') = some (err, t)) :
      Looked N x y d t.disk

/-- The two names are found, as the same file, and nothing is deleted. -/
def Linked (N : Nat) (x y : Path) (d : Disk) : Prop :=
  ∀ d', Looked N x y d d' → d'.node = d.node
    ∧ ∃ f, seenAt N d' x = some (some f) ∧ seenAt N d' y = some (some f)

/-! ## The call -/

section Run

variable {N : Nat} {D P : Path → Prop} {s t : Sys} {x y : Path} {f : File}

/-- The new name is plain. -/
theorem Scene.link_plain (h : Scene N D P s x y f none)
    (hturn : s.disk.canTurn N y.tail f.data = true) :
    ∃ t d, run sysHandler (sfsLink N x y) s = some (0, t) ∧ View N D P d x y f.col noFile d
      ∧ Grown D y.tail f.data true s.disk d
      ∧ t.disk = d.addLink x y f.data := by
  obtain ⟨t, u, es, hmade, hget, hentry, -⟩ := h.prepare
  rw [hturn] at hmade
  obtain ⟨⟨hv, dx, dy, ht, hp⟩, hg, -⟩ := hentry
  rw [hturn] at hg
  have hmx : t.mem x = some dx := by rw [ht]; exact two_left h.ne
  have hmy : t.mem y = some dy := by rw [ht]; exact two_right
  have hown : dx.replicas f.data = some ⟨x, some (.file f.ino)⟩ := hp.own
  obtain ⟨r, htarget⟩ := hp.target
  obtain ⟨dx₀, hx, hX⟩ := h.old.shows
  have hid : dx₀.replicaId = some f.data := hX.replicaId
  have hfile : ∃ i, t.disk.node x f.data = some (.file i) := by
    have hcol : t.disk.col x f.data = some (f.ino, f.attr) := by
      rw [hv.left]
      exact h.apart.colWith_data
    exact ⟨_, (col_eq_some.mp hcol).1⟩
  have hfree : t.disk.node y f.data = none :=
    (hv.world.col_none_iff h.new.file).mp (by rw [hv.right]; rfl)
  have hcan := calm_canTurn2normal (p := f.data) (h.new.path List.suffix_rfl)
  rw [hturn] at hcan
  have hrun : Runs (sfsLink N x y) s (fun a v => a = 0 ∧ v.disk = t.disk.addLink x y f.data) := by
    rw [sfsLink, Runs, does_sfsD]
    refine ⟨dx₀, hx, ?_⟩
    rw [hid, deref_some, ret_bind, does_calm hcan]
    simp only [if_true, pure_eq_ret, ret_bind, checked, simpleAddLink, bind_bind]
    refine (does_made hmade).mpr ⟨fun _ _ => trivial, ?_⟩
    show Does _ _ _ ((getReplicaDentry (some ⟨y.tail, some .dir⟩) y f.data >>= _) >>= _) u _
    rw [bind_bind, does_calm hget]
    simp [linkReplica, hmx, hown, does_link hfile hfree, onlyIf, hmy,
      instantiate, bind_bind, setD_eq_one]
  obtain ⟨a, v, hv', rfl, hd⟩ := runs_iff.mp hrun
  exact ⟨v, t.disk, hv', hv, hg, hd⟩

/-- The disks after a link with a meta file in partition `q`. -/
def Disk.linkMeta (d : Disk) (x y : Path) (o i q : Nat) : Disk :=
  ((((d.addFile y q).setAttr q d.next (some (pointerTo o))).addLink x y o)
    |>.setAttr o i (some (pointerTo q)))

/-- The new name is partitioned. -/
theorem Scene.link_parted (h : Scene N D P s x y f none)
    (hturn : s.disk.canTurn N y.tail f.data = false) :
    ∃ t d q, run sysHandler (sfsLink N x y) s = some (0, t) ∧ View N D P d x y f.col noFile d
      ∧ (∀ {Z p}, d.node Z p = some (.dir true) ↔ s.disk.node Z p = some (.dir true))
      ∧ s.disk.node y.tail q = some (.dir true) ∧ q ≠ f.data
      ∧ d.Holds y.tail q ∧ d.Holds y.tail f.data
      ∧ t.disk = d.linkMeta x y f.data f.ino q := by
  obtain ⟨dx, hx, hX⟩ := h.old.shows
  obtain ⟨dy, hy, hY⟩ := h.new.shows
  have hid : dx.replicaId = some f.data := hX.replicaId
  have hcan := calm_canTurn2normal (p := f.data) (h.new.path List.suffix_rfl)
  rw [hturn] at hcan
  obtain ⟨dZ, hZ, hR⟩ := h.new.path List.suffix_rfl
  have hcount : 0 < dZ.normalDirCount := by
    have hpos : 0 < spanThreshold N := Nat.lt_min.mpr ⟨by decide, h.pos⟩
    rw [hR.normals]
    exact lt_of_lt_of_le hpos (canTurn_false hturn).2
  obtain ⟨q, hqN, hq, -, hsel⟩ := calm_selectNormalDirRr hZ hR hcount
  have hqo := shadow_ne hturn hq
  -- the two replicas of the directory
  have hseen : PathSeen N (s.setD y.tail { dZ with localCounter := (q + 1) % N }) y.tail :=
    PathSeen.setDir h.new.path (hR.withCounter (Nat.mod_lt (q + 1) h.pos))
  obtain ⟨t, es, hmade, hk, hg, -⟩ := made_createReplicaDir
    (s := s.setD y.tail { dZ with localCounter := (q + 1) % N }) h.world hseen
    hqN h.new.dir true
  obtain ⟨u, es', hmade', hk', hg', -⟩ := made_createReplicaDir hk.world
    (fun hY => hk.seen (hseen hY)) h.data_lt h.new.dir false
  have hmem : ∀ {z}, ¬ D z → u.mem z = s.mem z := fun hz =>
    (hk'.files hz).trans ((hk.files hz).trans (one_mem_of_ne (dir_ne h.new.dir hz).symm))
  have hcol : ∀ {z}, ¬ D z → u.disk.col z = s.disk.col z := fun hz =>
    (hg'.col hz).trans (hg.col hz)
  have hmark : ∀ {Z p}, u.disk.node Z p = some (.dir true) ↔
      s.disk.node Z p = some (.dir true) := by
    intro Z p
    rw [hg'.normal_iff, hg.normal_iff]
    constructor
    · rintro ((hn | ⟨-, rfl, rfl⟩) | ⟨hno, -⟩)
      · exact hn
      · exact hq
      · cases hno
    · exact fun hn => .inl (.inl hn)
  have hcx : u.disk.col x = f.col := (hcol h.old.file).trans h.old.named.col
  have hcy : u.disk.col y = noFile := (hcol h.new.file).trans h.new.named.col
  have hfree : ∀ p, u.disk.node y p = none := fun p =>
    (hk'.world.col_none_iff h.new.file).mp (by rw [hcy]; rfl)
  have hfile : u.disk.node x f.data = some (.file f.ino) := by
    have hc : u.disk.col x f.data = some (f.ino, f.attr) := by
      rw [hcx]
      exact h.apart.colWith_data
    exact (col_eq_some.mp hc).1
  have hsound : Sound u.disk y dy := by
    intro p
    rw [hk'.world.slot_eq h.new.file, hcol h.new.file]
    exact (hY.slots p).imp And.left id
  -- the replica dentries of the new name, both negative
  have hget := calm_getReplicaDentry (p := q)
    (r := some ⟨y.tail, some .dir⟩) ((hmem h.new.file).trans hy) hsound
    (fun _ => ⟨.dir, rfl⟩)
  have hget' := calm_getReplicaDentry (p := f.data) (r := some ⟨y.tail, some .dir⟩)
    (s := u.setD y (dy.fill u.disk y q)) one_mem (hsound.fill q)
    (fun _ => ⟨.dir, rfl⟩)
  have hslotx : dx.replicas f.data = some ⟨x, some (.file f.ino)⟩ :=
    (hX.slots f.data).slot (by
      rw [h.old.named.col]
      exact h.apart.colWith_data)
  have hrun : Runs (sfsLink N x y) s (fun a v => a = 0
      ∧ v.disk = u.disk.linkMeta x y f.data f.ino q) := by
    rw [sfsLink, Runs, does_sfsD]
    refine ⟨dx, hx, ?_⟩
    rw [hid, deref_some, ret_bind, does_calm hcan]
    simp only [Bool.false_eq_true, if_false]
    rw [does_calm hsel]
    simp only [checked, simpleAddPartitionedLink, bind_bind]
    refine (does_made hmade).mpr ⟨fun _ _ => trivial, ?_⟩
    show Does _ _ _ ((createReplicaDir y.tail f.data false >>= _) >>= _) t _
    rw [bind_bind]
    refine (does_made hmade').mpr ⟨fun _ _ => trivial, ?_⟩
    show Does _ _ _ ((getReplicaDentry (some ⟨y.tail, some .dir⟩) y q >>= _) >>= _) u _
    rw [bind_bind, does_calm hget, bind_bind, does_calm hget']
    rw [setD_eq_one, setD_eq_one, one_one, one_disk]
    generalize ((dy.fill u.disk y q).fill u.disk y f.data) = dy'
    have hfree' : (u.one y dy' u.disk).disk.node y q = none := hfree q
    have hmx : ∀ {dz d}, (u.one y dz d).mem x = some dx := fun {dz d} =>
      (one_mem_of_ne h.ne).trans ((hmem h.old.file).trans hx)
    -- the disks at the link, where the data file is and the new name is free
    have hx' : ∃ i, ((u.disk.addFile y q).setAttr q u.disk.next
        (some (pointerTo f.data))).node x f.data = some (.file i) :=
      ⟨f.ino, (congrFun (addFile_node_of_ne h.ne) f.data).trans hfile⟩
    have hy' : ((u.disk.addFile y q).setAttr q u.disk.next
        (some (pointerTo f.data))).node y f.data = none :=
      (setNode_of_ne_part hqo.symm).trans (hfree f.data)
    have hlink : ∀ {dz f'} {Q : Int → Sys → Prop},
        Does 0 (fun _ => True) (fun _ _ => True) (link x y f.data >>= f')
          (u.one y dz ((u.disk.addFile y q).setAttr q u.disk.next
            (some (pointerTo f.data)))) Q ↔
        Does 0 (fun _ => True) (fun _ _ => True) (f' 0)
          (u.one y dz (((u.disk.addFile y q).setAttr q u.disk.next
            (some (pointerTo f.data))).addLink x y f.data)) Q := by
      intro dz f' Q
      rw [does_link hx' hy', one_onDisk, one_disk, true_and]
    simp [createReplica, does_create hfree', hmx, linkReplica, hslotx, hlink,
      SfsDentry.IsFile, instantiate, bind_bind, onlyIf, Disk.linkMeta]
  obtain ⟨a, v, hv, rfl, hd⟩ := runs_iff.mp hrun
  refine ⟨v, u.disk, q, hv, ?_, hmark, hq, hqo, hg'.holds hg.there, hg'.there, hd⟩
  exact ⟨hk'.world, hg'.priv hk'.world (hg.priv hk.world h.priv), fun _ => rfl,
    h.mine, fun _ _ _ => rfl, hcx, hcy⟩

end Run

/-! ## The disks after it -/

section Ends

variable {N : Nat} {D P : Path → Prop} {s : Sys} {d d₀ : Disk} {x y Z : Path}
  {f : File} {cx cy : Column} {o i p q : Nat}

theorem col_addLink_right : (d.addLink x y p).col y = update (d.col y) p (d.col x p) := by
  funext r
  by_cases hr : r = p
  · subst hr
    rw [update_self]
    show ((d.setNode y r (d.node x r)).grow y).col y r = d.col x r
    rw [col_grow]
    unfold Disk.col
    rw [show (d.setNode y r (d.node x r)).node y r = d.node x r from if_pos ⟨rfl, rfl⟩]
    rfl
  · rw [update_of_ne hr]
    exact col_congr (setNode_of_ne_part hr) (fun _ _ => rfl)

theorem col_addLink_of_ne (h : Z ≠ y) : (d.addLink x y p).col Z = d.col Z := col_setNode_of_ne h

theorem World.addLink (w : World N D d) (hy : ¬ D y)
    (hfile : d.node x p = some (.file i)) (hheld : d.Holds y.tail p) :
    World N D (d.addLink x y p) := by
  refine (w.setFile hy (w.within hfile) hheld i).congr ?_
  rw [Disk.addLink, hfile]
  rfl

/-- The two names after the link, when the directories are as in `d₀`. -/
structure LinkedAs (N : Nat) (D : Path → Prop) (x y : Path) (cx cy : Column)
    (d₀ d : Disk) : Prop where
  world : World N D d
  left : d.col x = cx
  right : d.col y = cy
  dirs : ∀ {Z}, D Z → d.node Z = d₀.node Z

theorem View.addLink (h : View N D P d₀ x y cx cy d) (hE : Ends D x y)
    {a : Option Ptrs} (hx : cx o = some (i, a)) (hh : d.Holds y.tail o) :
    LinkedAs N D x y cx (update cy o (some (i, a))) d₀ (d.addLink x y o) where
  world := h.world.addLink hE.new (col_eq_some.mp ((congrFun h.left o).trans hx)).1 hh
  left := (col_addLink_of_ne hE.ne).trans h.left
  right := by rw [col_addLink_right, h.left, h.right, hx]
  dirs hZ := (funext fun _ => setNode_of_ne (dir_ne hZ hE.new)).trans (h.dirs hZ)

/-- The attribute of the shared inode: both names have it. -/
theorem LinkedAs.put (h : LinkedAs N D x y cx cy d₀ d) {a b c : Option Ptrs}
    (hx : cx o = some (i, a)) (hy : cy o = some (i, b)) :
    LinkedAs N D x y (update cx o (some (i, c)))
      (update cy o (some (i, c))) d₀ (d.setAttr o i c) where
  world := h.world.setAttr
  left := by
    rw [col_setAttr (col_eq_some.mp ((congrFun h.left o).trans hx)).1, h.left]
  right := by
    rw [col_setAttr (col_eq_some.mp ((congrFun h.right o).trans hy)).1, h.right]
  dirs := h.dirs

/-- A plain name is made. -/
theorem Scene.linked_plain (h : Scene N D P s x y f none)
    (hv : View N D P d x y f.col noFile d) (hh : d.Holds y.tail f.data) :
    LinkedAs N D x y f.col (only f.data (f.ino, f.attr)) d (d.addLink x y f.data) :=
  hv.addLink h.ends h.apart.colWith_data hh

/-- A partitioned name is made. -/
theorem Scene.linked_parted (h : Scene N D P s x y f none) (hv : View N D P d x y f.col noFile d)
    (hqo : q ≠ f.data) (hq : d.Holds y.tail q) (hh : d.Holds y.tail f.data) :
    LinkedAs N D x y (f.colWith (some (pointerTo q)))
      (both q (d.next, some (pointerTo f.data)) f.data
        (f.ino, some (pointerTo q))) d
      (d.linkMeta x y f.data f.ino q) := by
  have h₁ := hv.create_right h.ne h.new.file hq
  have h₂ := h₁.put_right (a := some (pointerTo f.data)) h.ne (update_self ..)
  have h₃ := h₂.addLink h.ends h.apart.colWith_data ((h₂.holds h.new.dir).mpr hh)
  have h₄ := h₃.put (c := some (pointerTo q)) h.apart.colWith_data (update_self ..)
  rw [File.col, h.apart.set, update_idem, update_idem,
    noFile_add, only_add, both_comm hqo.symm] at h₄
  exact h₄

end Ends

/-! ## Fresh lookups of the two names -/

section Lookups

variable {N : Nat} {D P : Path → Prop} {d d' : Disk} {x y z : Path}
  {F : Option File} {p q l i : Nat}

/-- What holds of the disks after every lookup holds after a walk. -/
theorem walk_ends (w : World N D d) (hN : 0 < N) (hz : ¬ D z) (hZ : D z.tail)
    {I : Disk → Prop} (h : ∀ {c Z s dZ}, z = c :: Z → s.disk = d →
      s.mem Z = some dZ → Reflects N d Z dZ →
      Runs (sfsLookup N (c :: Z)) s (fun _ t => I t.disk)) {err : Int} {t : Sys}
    (hrun : run sysHandler (walk N z) (booted d) = some (err, t)) :
    I t.disk := by
  cases z with
  | nil => exact absurd w.root hz
  | cons c Z =>
    obtain ⟨s, dZ, hs, hZ', hR, hwalk⟩ := walk_file (c := c) w hN hZ
    obtain ⟨err', t', hrun', hI⟩ :=
      runs_iff.mp ((hwalk _).mpr (h rfl hs hZ' hR))
    cases hrun.symm.trans hrun'
    exact hI

/-- A lookup of a consistent name stores nothing. -/
theorem Named.walk_disk (hn : Named d z F) (w : World N D d) (hN : 0 < N)
    (hz : ¬ D z) (hZ : D z.tail) {err : Int} {t : Sys}
    (hrun : run sysHandler (walk N z) (booted d) = some (err, t)) :
    t.disk = d := by
  refine walk_ends w hN hz hZ (I := (· = d)) (fun {c Z s dZ} hc hs hm hR => ?_) hrun
  subst hc hs
  cases F with
  | none => exact (lookup_absent w hz hm hR hn).2.runs rfl
  | some f =>
    cases hp : f.parted with
    | none =>
      obtain ⟨dz, -, hcalm⟩ := lookup_plain w hz hm hR hn hp
      exact hcalm.runs rfl
    | some m =>
      obtain ⟨dz, -, hcalm⟩ := lookup_parted w hz hm hR hn hp
      exact hcalm.runs rfl

/-- The name is met at a meta file, and its data file is there. -/
structure Points (d : Disk) (z : Path) (p l q i : Nat) : Prop where
  first : First d z p l (some (pointerTo q))
  ne : q ≠ p
  data : d.node z q = some (.file i)

/-- Such a lookup stores at most the attribute of the data file. -/
theorem Points.walk_disk (h : Points d z p l q i) (w : World N D d)
    (hN : 0 < N) (hz : ¬ D z) (hZ : D z.tail) {err : Int} {t : Sys}
    (hrun : run sysHandler (walk N z) (booted d) = some (err, t)) :
    t.disk = d ∨ ∃ a, t.disk = d.setAttr q i a := by
  refine walk_ends w hN hz hZ (I := fun u => u = d ∨ ∃ a, u = d.setAttr q i a)
    (fun {c Z s dZ} hc hs hm hR => ?_) hrun
  subst hc hs
  have hspot := h.first.spot hm hR
  have hattr := (col_eq_some.mp h.first.col).2
  obtain ⟨b, hb⟩ := w.held h.data
  rw [Runs, does_sfsLookup_first w hz hm hR h.first]
  by_cases hback : (s.disk.attr q i).bind Ptrs.pointer = some p <;>
    simp [foundFile, validatePartitionedFile, SfsDentry.IsFile, hspot.slot,
      hattr, pointerTo, Ptrs.unset, validateHidden, validateRename,
      validatePointer, instantiate, bind_bind, one_mem_of_ne (tail_ne c Z), hm,
      getReplicaDentry, hspot.null h.ne, hR.dir hb, h.data, Obj.inode, checked,
      hback]

/-- Only the attribute of the inode `i` in partition `q` may differ. -/
structure ButFor (q i : Nat) (d d' : Disk) : Prop where
  node : d'.node = d.node
  attr : ∀ {r j}, ¬ (r = q ∧ j = i) → d'.attr r j = d.attr r j

theorem ButFor.setAttr {a : Option Ptrs} (h : ButFor q i d d') :
    ButFor q i d (d'.setAttr q i a) where
  node := h.node
  attr hr := (if_neg hr).trans (h.attr hr)

/-- The attribute of the data file does not matter. -/
theorem Points.butFor (h : Points d z p l q i) (hd : ButFor q i d d') : Points d' z p l q i where
  first := {
    normal := by
      rw [hd.node]
      exact h.first.normal
    col := by
      obtain ⟨hn, ha⟩ := col_eq_some.mp h.first.col
      refine col_eq_some.mpr ⟨by rw [hd.node]; exact hn, ?_⟩
      exact (hd.attr (fun he => h.ne he.1.symm)).trans ha
    before := by
      intro r hr hn
      rw [hd.node] at hn
      have hnone := h.first.before hr hn
      unfold Disk.col at hnone ⊢
      rw [hd.node]
      cases ho : d.node z r with
      | none => rfl
      | some o =>
        cases o with
        | dir b => rfl
        | file j =>
          rw [ho] at hnone
          exact nomatch hnone }
  ne := h.ne
  data := by
    rw [hd.node]
    exact h.data

theorem Points.finds (h : Points d z p l q i) : Finds d z (some (q, i)) :=
  .pointed (b := d.attr q i) h.first h.ne (col_eq_some.mpr ⟨h.data, rfl⟩)

/-- Two meta files that lead to one inode: each lookup may turn its attribute
    to the other name, and that is all. -/
theorem linked_points {p' l' : Nat} (w : World N D d) (hN : 0 < N) (hE : Ends D x y)
    (hx : Points d x p l q i) (hy : Points d y p' l' q i) : Linked N x y d := by
  have key : ∀ {d'}, Looked N x y d d' → ButFor q i d d' := by
    intro d' h
    induction h with
    | refl => exact ⟨rfl, fun _ => rfl⟩
    | step _ hz hrun ih =>
      have w' := w.congr ih.node
      have hdisk : ∀ {t u}, t = u ∨ (∃ a, t = u.setAttr q i a) →
          ButFor q i d u → ButFor q i d t := by
        rintro t u (rfl | ⟨a, rfl⟩) hu
        · exact hu
        · exact hu.setAttr
      rcases hz with rfl | rfl
      · exact hdisk ((hx.butFor ih).walk_disk w' hN hE.old hE.oldDir hrun) ih
      · exact hdisk ((hy.butFor ih).walk_disk w' hN hE.new hE.newDir hrun) ih
  intro d' h
  have hb := key h
  have w' := w.congr hb.node
  exact ⟨hb.node, (q, i), (hx.butFor hb).finds.sees w' hN hE.oldDir hE.old,
    (hy.butFor hb).finds.sees w' hN hE.newDir hE.new⟩

/-- Two names of one file, both consistent: lookups store nothing. -/
theorem linked_named {f g : File} (w : World N D d) (hN : 0 < N) (hE : Ends D x y)
    (hx : Named d x (some f)) (hy : Named d y (some g)) (hat : g.at = f.at) : Linked N x y d := by
  intro d' h
  have hd : d' = d := by
    induction h with
    | refl => rfl
    | step _ hz hrun ih =>
      subst ih
      rcases hz with rfl | rfl
      · exact hx.walk_disk w hN hE.old hE.oldDir hrun
      · exact hy.walk_disk w hN hE.new hE.newDir hrun
  subst hd
  refine ⟨rfl, f.at, hx.finds.sees w hN hE.oldDir hE.old, ?_⟩
  rw [← hat]
  exact hy.finds.sees w hN hE.newDir hE.new

/-- A pointer to where there is nothing: the name is deleted, or the lookup stumbles. -/
theorem First.lost (h : First d z p i (some (pointerTo q))) (hq : q ≠ p)
    (hn : d.col z q = none) (w : World N D d) (hN : 0 < N) (hz : ¬ D z)
    (hZ : D z.tail) (r : Nat × Nat) : seenAt N d z ≠ some (some r) := by
  rcases w.holds_or hZ (p := q) with hh | hno
  · rw [(Finds.dangling h hq hh hn).sees w hN hZ hz]
    exact nofun
  · rw [Stumbles.sees w hN hZ hz ⟨p, i, q, hq, hno, .inr (.inr h)⟩]
    exact nofun

end Lookups

/-! ## The verdict -/

section Verdict

variable {N : Nat} {D P : Path → Prop} {s : Sys} {d d₀ : Disk} {x y : Path}
  {f : File} {q n : Nat}

/-- A plain name is made. -/
theorem Scene.plain_verdict (h : Scene N D P s x y f none)
    (hold : ∀ {p}, s.disk.node x.tail p = some (.dir true) → d₀.node x.tail p = some (.dir true))
    (hnew : d₀.node y.tail f.data = some (.dir true))
    (hd : LinkedAs N D x y f.col (only f.data (f.ino, f.attr)) d₀ d) :
    Linked N x y d ↔ f.parted = none := by
  have hE := h.ends
  have hfit := h.old.named.fits f rfl
  have hnew' : d.node y.tail f.data = some (.dir true) := by
    rw [hd.dirs hE.newDir]
    exact hnew
  cases hp : f.parted with
  | none =>
    obtain ⟨hn, ha⟩ := hfit.plain hp
    refine iff_of_true (linked_named (f := f) (g := ⟨f.data, f.ino, f.attr,
      none⟩) hd.world h.pos hE ⟨hd.left, ?_⟩ ⟨hd.right, ?_⟩ rfl) rfl
    · rintro _ ⟨⟩
      rw [File.Fits, hp]
      refine ⟨?_, ha⟩
      rw [hd.dirs hE.oldDir]
      exact hold hn
    · rintro _ ⟨⟩
      exact ⟨hnew', ha⟩
  | some m =>
    -- the new name has the pointer of the old one
    obtain ⟨-, -, ha⟩ := hfit.split hp
    have hmo := hfit.meta_ne hp
    have hcol := hd.right
    rw [ha] at hcol
    refine iff_of_false (fun hl => ?_) (Option.some_ne_none m)
    obtain ⟨-, r, -, hr⟩ := hl d .refl
    exact (First.of_only hcol hnew').lost hmo
      (by rw [hcol]; exact only_of_ne hmo) hd.world h.pos hE.new hE.newDir r hr

/-- A partitioned name is made, with its meta file in partition `q`. -/
theorem Scene.parted_verdict (h : Scene N D P s x y f none)
    (hmark : ∀ {Z p}, d₀.node Z p = some (.dir true) ↔ s.disk.node Z p = some (.dir true))
    (hturn : s.disk.canTurn N y.tail f.data = false)
    (hq : s.disk.node y.tail q = some (.dir true)) (hqo : q ≠ f.data)
    (hd : LinkedAs N D x y (f.colWith (some (pointerTo q)))
      (both q (n, some (pointerTo f.data)) f.data (f.ino, some (pointerTo q))) d₀ d) :
    Linked N x y d ↔ f.parted ≠ none := by
  have hE := h.ends
  have hfit := h.old.named.fits f rfl
  have hX : ∀ {p}, d.node x.tail p = some (.dir true) ↔
      s.disk.node x.tail p = some (.dir true) := by
    intro p
    rw [hd.dirs hE.oldDir, hmark]
  have hY : ∀ {p}, d.node y.tail p = some (.dir true) ↔
      s.disk.node y.tail p = some (.dir true) := by
    intro p
    rw [hd.dirs hE.newDir, hmark]
  cases hp : f.parted with
  | none =>
    -- the old name has got a pointer to where only the new one is
    obtain ⟨hn, -⟩ := hfit.plain hp
    have hcol := hd.left
    rw [File.colWith_plain hp] at hcol
    refine iff_of_false (fun hl => ?_) (fun hne => hne rfl)
    obtain ⟨-, r, hr, -⟩ := hl d .refl
    exact (First.of_only hcol (hX.mpr hn)).lost hqo
      (by rw [hcol]; exact only_of_ne hqo) hd.world h.pos hE.old hE.oldDir r hr
  | some m =>
    obtain ⟨hmn, hon, -⟩ := hfit.split hp
    have hmo := hfit.meta_ne hp
    have hleft := hd.left
    rw [File.colWith_parted hp] at hleft
    have hdata : ∀ {z a}, d.col z f.data = some (f.ino, a) →
        d.node z f.data = some (.file f.ino) := fun hc =>
      (col_eq_some.mp hc).1
    have hx : Points d x m.1 m.2 f.data f.ino :=
      ⟨.of_both hleft (hX.mpr hmn) (fun hn => absurd (hX.mp hn) hon),
        hmo.symm, hdata (by rw [hleft]; exact both_right hmo.symm)⟩
    have hy : Points d y q n f.data f.ino :=
      ⟨.of_both hd.right (hY.mpr hq) (fun hn => absurd (hY.mp hn) (canTurn_false hturn).1),
        hqo.symm, hdata (by rw [hd.right]; exact both_right hqo.symm)⟩
    exact iff_of_true (linked_points hd.world h.pos hE hx hy) nofun

theorem Scene.link_verdict (h : Scene N D P s x y f none) :
    ∃ t, run sysHandler (sfsLink N x y) s = some (0, t) ∧ (Linked N x y t.disk ↔
        (s.disk.canTurn N y.tail f.data = true ↔ f.parted = none)) := by
  cases hturn : s.disk.canTurn N y.tail f.data with
  | true =>
    obtain ⟨t, d, hrun, hv, hg, ht⟩ := h.link_plain hturn
    refine ⟨t, hrun, ?_⟩
    rw [ht, h.plain_verdict (fun hn => hg.normal_iff.mpr (.inl hn))
      (hg.normal_iff.mpr (.inr ⟨rfl, rfl, rfl⟩)) (h.linked_plain hv hg.there)]
    simp
  | false =>
    obtain ⟨t, d, q, hrun, hv, hmark, hq, hqo, hhq, hho, ht⟩ :=
      h.link_parted hturn
    refine ⟨t, hrun, ?_⟩
    rw [ht, h.parted_verdict hmark hturn hq hqo (h.linked_parted hv hqo hhq hho)]
    simp

end Verdict

/-! ## A wide directory

Of 21 partitions the root is normal in 20, as many as a directory can be normal in.  The
directory `[0]` has a file in the last partition. -/

def wideDirs : List Path := [[], [0]]

def wideEntries : List (Path × Nat × Obj) :=
  (List.range 21).map (fun p => ([], p, .dir (decide (p < 20))))
    ++ [([0], 0, .dir true), ([0], 20, .dir true), ([0, 0], 20, .file 0)]

def wide : Disk := .ofList wideEntries [] 1 1

def wideFiles (z : Path) : Option File :=
  if z = [0, 0] then some ⟨20, 0, none, none⟩ else none

def wideSys : Sys := cachedSys wide 21 wideDirs wideFiles

theorem wide_world : World 21 (· ∈ wideDirs) wide :=
  world_ofList (by decide +kernel)

/-- The file is linked into the root. -/
theorem wide_across : Scene 21 (· ∈ wideDirs) (fun _ => True) wideSys [0, 0] [1]
    ⟨20, 0, none, none⟩ none where
  pos := by decide
  world := wide_world
  priv := private_ofList (by decide +kernel)
  mine := ⟨trivial, trivial⟩
  ne := by decide
  old := cachedSys_ready wide_world (by decide) (by decide) (by decide)
    (named_plain wide_world (by decide) (by decide +kernel) (by decide)
      (by decide +kernel) (.inl rfl))
  new := cachedSys_ready wide_world (by decide) (by decide) (by decide)
    (named_absent wide_world (by decide) (by decide +kernel))

/-- **HARD LINKS** are valid EXACTLY when the new name can be of the kind that
    the old one is: plain, where the directory can be normal in the partition of
    the file, or partitioned, where it can not. -/
theorem link_valid_iff {N : Nat} {D P : Path → Prop} {s : Sys} {x y : Path}
    {f : File} (h : Scene N D P s x y f none) :
    ∃ t, run sysHandler (sfsLink N x y) s = some (0, t) ∧ (Linked N x y t.disk ↔
        (s.disk.canTurn N y.tail f.data = true ↔ f.parted = none)) :=
  h.link_verdict

theorem duo_link_valid : ∃ t, run sysHandler (sfsLink 2 [0, 0] [2]) duoSys = some (0, t)
      ∧ Linked 2 [0, 0] [2] t.disk := by
  obtain ⟨t, hrun, hiff⟩ := link_valid_iff duo_away
  exact ⟨t, hrun, hiff.mpr (by decide)⟩

/-- The file of `[0]` is lost: its attribute is that of the new name. -/
theorem wide_link_broken : ∃ t, run sysHandler (sfsLink 21 [0, 0] [1]) wideSys = some (0, t)
      ∧ ¬ Linked 21 [0, 0] [1] t.disk := by
  obtain ⟨t, hrun, hiff⟩ := wide_across.link_verdict
  exact ⟨t, hrun, fun hl => absurd (hiff.mp hl) (by decide +kernel)⟩

end Sfs
