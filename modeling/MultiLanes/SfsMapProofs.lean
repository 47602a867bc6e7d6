import MultiLanes.SfsAtomicProofs
import MultiLanes.SfsRenameRunProofs

/-! # SFS — `normal_dir_map` and the marks on the disks

`normal_dir_map` says in which partitions a directory is normal, and new files go where
its bits are set, or where one is set first.  `MapMatches` is that the bits of every
cached directory are the marks on the disks; then every file is where a lookup looks for
it.

Whatever is refused, the calls that make names keep it, and so do an unlink and a rmdir
that does not stop half-way.  A link and a rename do when the file stays a plain one.  A
rmdir that finds a replica with entries has removed others by then, and their bits stay.
-/

namespace SfsMap

open InteractProg Sfs Function Option

variable {N : Nat} {D : Path → Prop} {E : Surroundings} {s t u : Sys}
  {x y z : Path} {dx dy : SfsDentry} {p i : Nat} {d : Disk}

/-! ## Rules -/

section Rules

variable {α β : Type} {Q : β → Sys → Prop}

theorem sure_still_bind {c : Code α} {f : α → Code β} {a : α}
    (h : Still c s a t) (hf : Sure E.env (f a) t Q) :
    Sure E.env (c >>= f) s Q :=
  sure_bind.mpr (goes_still h hf).sure

theorem sure_lift {c : Code β} (h : Sure E.env c s Q) : Sure E.dirEnv (lift c) s Q := by
  induction c generalizing s with
  | ret a => exact h
  | ask q k ih =>
    exact sure_ask.mpr fun a t ha => ih a (sure_ask.mp h a t ha)

/-- A change of the disks is made, or refused. -/
theorem sure_change {q : SfsReq} {f : q.Ans → Code β} {a : q.Ans} (hd : q.durable = true)
    (hq : sysHandler q s = some (a, t)) (hdone : Sure E.env (f a) t Q)
    (hrefused : ∀ a, q.Refused a → Sure E.env (f a) s Q) :
    Sure E.env (perform (S := SfsSig) q >>= f) s Q := by
  refine sure_ask.mpr fun b u hb => ?_
  rcases E.durable hd hb with hs | ⟨hr, rfl⟩
  · cases hq.symm.trans hs
    exact hdone
  · exact hrefused b hr

end Rules

/-! ## A further name for a file -/

/-- The plain file `i` at `x`, and a free name `y`. -/
structure Aim (N : Nat) (D : Path → Prop) (s : Sys) (x y : Path)
    (dx dy : SfsDentry) (p i : Nat) : Prop where
  new : Vacant N D s y dy
  mem : s.mem x = some dx
  plain : ¬ D x
  positive : dx.positive = true
  id : dx.replicaId = some p
  node : s.disk.node x p = some (.file i)
  slots : ∀ q, N ≤ q → dx.replicas q = none

/-- The directory of `y` is normal in the partition of the file, or may become so. -/
def Turns (N : Nat) (d : Disk) (x y : Path) : Prop :=
  ∀ p i, d.node x p = some (.file i) → d.canTurn N y.tail p = true

section Aim

theorem aim (h : Sane N D s) (hh : AllHonest N s) (hfile : s.Has x SfsDentry.OfFile)
    (hy : s.NameIn y) (hneg : s.Has y (·.positive = false)) :
    ∃ dx dy p i, Aim N D s x y dx dy p i := by
  obtain ⟨dy, hv⟩ := h.vacant hy hneg
  obtain ⟨dx, hx, hof⟩ := hfile
  have hD : ¬ D x := fun hD => hof.2 ((h.dir_iff hx).mpr hD).2
  obtain ⟨p, i, hid, hn⟩ := (h.leaves hD hx).file hof.1
  exact ⟨dx, dy, p, i, hv, hx, hD, hof.1, hid, hn, (hh x dx hx).slots⟩

section

variable (h : Aim N D s x y dx dy p i)
include h

theorem Aim.leaf : Leaf N s.disk x dx :=
  h.new.sane.leaves h.plain h.mem

theorem Aim.within : p < N :=
  h.new.sane.world.within h.node

theorem Aim.slot :
    dx.replicas p = some ⟨x, some (.file i)⟩ := h.leaf.slot h.id h.node

theorem Aim.ne : x ≠ y := by
  rintro rfl
  cases (h.new.none p).symm.trans h.node

/-- The new name is in a directory. -/
theorem Aim.ne_below (a : Nat) : a :: x ≠ y := by
  rintro rfl
  exact h.plain h.new.dir

theorem Aim.frame (ht : Sane N D t) (hf : Frame D s t) : Aim N D t x y dx dy p i :=
  ⟨h.new.frame ht hf, (hf.mem h.plain).trans h.mem, h.plain, h.positive, h.id,
    (hf.node h.plain p).trans h.node, h.slots⟩

/-- The slot of the new name is looked up. -/
theorem Aim.get {r : Replica} {j : Inode} (hr : r.inode = some j) :
    Still (getReplicaDentry (some r) y p) s (s.disk.slot y p) (s.setD y (dy.fill s.disk y p))
      ∧ Aim N D (s.setD y (dy.fill s.disk y p)) x y dx (dy.fill s.disk y p) p i := by
  obtain ⟨hget, hv⟩ := h.new.get (p := p) hr
  exact ⟨hget, hv, (update_of_ne h.ne ..).trans h.mem, h.plain, h.positive, h.id, h.node, h.slots⟩

theorem Aim.still_canTurn (hturns : Turns N s.disk x y) :
    Still (canTurn2normal N y.tail p) s true s := by
  obtain ⟨dY, hY⟩ := ne_none_iff_exists'.mp h.new.cached
  have hR := (h.new.sane.dirs h.new.dir hY).toReflects
  have hcan := hturns p i h.node
  rw [← hR.canTurn] at hcan
  refine still_sfsD.mpr ⟨dY, hY, ?_⟩
  rw [hcan]
  exact .ret

end

/-! ### `sfs_link` -/

theorem gains_addLink (hn : d.node x p = some (.file i))
    (ha : d.attr p i = none) : d.Gains (d.addLink x y p) y p i where
  node z q := by
    show (if z = y ∧ q = p then d.node x p else d.node z q) = _
    rw [hn]
  own := ha
  attr h := h
  fan := le_refl _

/-- The new name is a file. -/
theorem Aim.linked (h : Aim N D s x y dx dy p i) (hmark : s.disk.node y.tail p = some (.dir true)) :
    Sane N D (s.one y { dy.setReplica p (some ⟨y, some (.file i)⟩) with
      positive := true
      replicaId := some p } (s.disk.addLink x y p)) :=
  h.new.gains (gains_addLink h.node (h.new.sane.plain.attr h.node)) hmark

/-- The link in the partition is made, or refused. -/
theorem sure_linkReplica (h : Aim N D s x y dx dy p i) {Q : Int → Sys → Prop}
    (hdone : Q 0 (s.one y (dy.setReplica p (some ⟨y, some (.file i)⟩)) (s.disk.addLink x y p)))
    (hfail : ∀ err, err ≠ 0 → Q err s) :
    Sure E.env (linkReplica (some ⟨y.tail, some .dir⟩) x y p) s Q := by
  refine sure_still_bind (still_find h.mem) ?_
  rw [h.slot]
  have hlink : sysHandler (.link x y p) s = some ((0 : Int), s.onDisk (s.disk.addLink x y p)) := by
    simp only [sysHandler, Disk.step, h.node, h.new.none p, map_some]
  refine sure_change rfl hlink ?_ fun err (herr : err ≠ 0) => ?_
  · refine (goes_still (a := 0) ?_ hdone).sure
    simp [onlyIf, storeReplica, h.new.mem, setD_eq_one]
  · refine (goes_still (a := err) (t := s) ?_ (hfail err herr)).sure
    simp [onlyIf, herr]

/-- `sfs_link` of a file that stays plain. -/
theorem sure_sfsLink (h : Aim N D s x y dx dy p i) (hturns : Turns N s.disk x y) :
    Sure E.env (sfsLink N x y) s (fun _ t => Sane N D t) := by
  refine sure_still_bind (still_read h.mem) ?_
  rw [h.id]
  refine sure_still_bind .ret (sure_still_bind (h.still_canTurn hturns) ?_)
  show Sure E.env (checked (simpleAddLink x y p) _) s _
  refine sure_bind.mpr (sure_bind.mpr ((goes_createReplicaDir h.new.sane
    h.new.dir h.new.cached h.within).sure.mono fun r t hr => ?_))
  cases r with
  | error err =>
    refine sure_ret.mpr ?_
    rw [if_pos (hr.fail rfl)]
    exact sure_ret.mpr hr.sane
  | ok rep =>
    obtain ⟨rfl, hmark⟩ := hr.ok rfl
    obtain ⟨hget, hu⟩ := (h.frame hr.sane hr.frame).get (r := ⟨y.tail, some .dir⟩) rfl
    refine sure_still_bind hget (sure_linkReplica hu ?_ fun err herr => ?_)
    · rw [if_neg fun h => h rfl]
      refine (goes_still (a := 0) ?_ (hu.linked hmark)).sure
      simp [instantiate, setReplicaId, onlyIf]
    · rw [if_pos herr]
      exact sure_ret.mpr hu.new.sane

/-! ### `sfs_rename` to a free name -/

/-- A move is a link, and the old name removed. -/
theorem addLink_clear (hxy : x ≠ y) : (d.addLink x y p).setNode x p none = d.moveFile x y p := by
  simp only [Disk.addLink, Disk.moveFile, Disk.setNode, Disk.grow, Disk.mk.injEq, and_true]
  funext z q
  by_cases hz : z = x ∧ q = p
  · rw [if_pos hz, if_neg fun hy => hxy (hz.1.symm.trans hy.1), if_pos hz]
  · rw [if_neg hz, if_neg hz]

/-- The dentry that had the old name, with the slots of the new one. -/
def moved (dx dy : SfsDentry) (N p : Nat) (y : Path) (i : Nat) : SfsDentry :=
  ({ dx.setReplica p (some ⟨y, some (.file i)⟩) with metaId := none }).take
    (dy.setReplica p (some ⟨y, none⟩)) p (List.range N)

theorem Aim.node_moved (h : Aim N D s x y dx dy p i) :
    (s.disk.moveFile x y p).node y p = some (.file i) :=
  (if_pos ⟨rfl, rfl⟩).trans h.node

theorem Aim.leaf_moved (h : Aim N D s x y dx dy p i) :
    Leaf N (s.disk.moveFile x y p) y (moved dx dy N p y i) where
  sound q := by
    by_cases hq : q = p
    · refine .inr ?_
      rw [hq, Disk.slot, h.node_moved]
      simp [moved, SfsDentry.take, Obj.inode]
    · have hsame : (s.disk.moveFile x y p).node y q = s.disk.node y q :=
        (setNode_of_ne_part hq).trans (setNode_of_ne_part hq)
      rw [Disk.slot, hsame]
      by_cases hN : q < N
      · simpa [moved, SfsDentry.take, setReplica_of_ne, hq, hN, Disk.slot] using h.new.leaf.sound q
      · refine .inl ?_
        simpa [moved, SfsDentry.take, setReplica_of_ne, hq, hN] using h.slots q (not_lt.mp hN)
  map := h.leaf.map
  count := h.leaf.count
  counter := h.leaf.counter
  metaId := rfl
  seen {q} hq := by
    obtain rfl : p = q := mem_unique h.id hq
    simp [moved, SfsDentry.take]
  file _ := ⟨p, i, h.id, h.node_moved⟩
  absent hneg := by cases h.positive.symm.trans hneg

theorem moveD_eq (hxy : x ≠ y) {dx' dy' : SfsDentry} {d' : Disk} :
    (s.two x dx y dy d).moveD x y = (((s.one y dy' d').one x dx' d).forget x).setD y dx := by
  simp only [Sys.moveD, two_left hxy]
  simp only [Sys.two, Sys.one, Sys.forget, Sys.setD, update_idem]
  rw [update_comm hxy, update_idem, update_comm hxy, update_idem]

/-- The dentry has moved; nothing was cached below the file. -/
theorem Aim.sane_moved (h : Aim N D s x y dx dy p i) (hbelow : ∀ a, s.mem (a :: x) = none)
    (hmark : s.disk.node y.tail p = some (.dir true)) {dy' : SfsDentry} :
    Sane N D ((s.two x (moved dx dy N p y i) y dy' (s.disk.moveFile x y p)).moveD x y) := by
  -- the file is linked, the old name removed and its dentry forgotten
  have hgone := ((h.linked hmark).unlinked (Nat.zero_lt_of_lt h.within) h.plain
    ((one_mem_of_ne h.ne).trans h.mem)
    ((setNode_of_ne h.ne).trans h.node)).forget fun a => by
      rw [one_mem_of_ne (List.cons_ne_self a x), one_mem_of_ne (h.ne_below a)]
      exact hbelow a
  rw [moveD_eq h.ne, ← addLink_clear h.ne]
  refine hgone.setLeaf h.new.not_dir (hgone.up ((update_of_ne h.ne.symm ..).trans
      ((one_mem_of_ne h.ne.symm).trans one_mem))) ?_
  exact (addLink_clear (d := s.disk) (p := p) h.ne) ▸ h.leaf_moved

/-- The rename in the partition is made, or refused. -/
theorem sure_renameReplica (h : Aim N D s x y dx dy p i)
    (hy : dy.replicas p = some ⟨y, none⟩) {r : Replica} {j : Inode}
    (hr : r.inode = some j) {Q : Int → Sys → Prop}
    (hdone : Q 0 (s.two x (dx.setReplica p (some ⟨y, some (.file i)⟩)) y
      (dy.setReplica p (some ⟨y, none⟩)) (s.disk.moveFile x y p)))
    (hfail : ∀ err, err ≠ 0 → Q err s) :
    Sure E.env (renameReplica (some r) x y p) s Q := by
  have hderef : Still (deref ((some r).bind Replica.inode)) s j s := by
    rw [bind_some, hr]
    exact .ret
  refine sure_still_bind hderef (sure_still_bind (still_find h.mem) ?_)
  rw [h.slot]
  refine sure_still_bind .ret (sure_still_bind (still_find h.new.mem) ?_)
  rw [hy]
  refine sure_still_bind .ret ?_
  have hmove : sysHandler (.rename x y p) s
      = some ((0 : Int), s.onDisk (s.disk.moveFile x y p)) := by
    simp only [sysHandler, Disk.step, h.node, h.new.none p, map_some]
  refine sure_change rfl hmove ?_ fun err herr => ?_
  · have htwo : s.onDisk (s.disk.moveFile x y p) = s.two x dx y dy (s.disk.moveFile x y p) :=
      congrArg (Sys.onDisk · _) (eq_two h.mem h.new.mem)
    refine (goes_still (a := 0) ?_ hdone).sure
    rw [htwo]
    simp [onlyIf, storeReplica, two_left h.ne, two_setD_left h.ne, bind_bind]
  · have hne : err ≠ 0 := herr
    refine (goes_still (a := err) (t := s) ?_ (hfail err herr)).sure
    simp [onlyIf, hne]

/-- The slots are exchanged; then the dentry can move. -/
theorem Aim.goes_moved (h : Aim N D s x y dx dy p i) (hbelow : ∀ a, s.mem (a :: x) = none)
    (hmark : s.disk.node y.tail p = some (.dir true)) :
    Goes E (do
        setMetaId x none
        sfsDMove x y p (List.range N)
        return (0 : Int))
      (s.two x (dx.setReplica p (some ⟨y, some (.file i)⟩)) y
        (dy.setReplica p (some ⟨y, none⟩)) (s.disk.moveFile x y p))
      (fun err t => err = 0 ∧ Sane N D (t.moveD x y)) := by
  have hset : Still (setMetaId x none) (s.two x (dx.setReplica p (some ⟨y, some (.file i)⟩)) y
        (dy.setReplica p (some ⟨y, none⟩)) (s.disk.moveFile x y p)) ()
      (s.two x { dx.setReplica p (some ⟨y, some (.file i)⟩) with metaId := none } y
        (dy.setReplica p (some ⟨y, none⟩)) (s.disk.moveFile x y p)) := by
    simp [setMetaId, two_left h.ne, two_setD_left h.ne]
  refine goes_still_bind hset (goes_still_bind (still_sfsDMove h.ne List.nodup_range) ?_)
  exact ⟨rfl, h.sane_moved hbelow hmark⟩

/-- The rename of a file to a free name, when it stays plain. -/
theorem sure_renameOther (h : Aim N D s x y dx dy p i)
    {dX : SfsDentry} (hX : s.mem x.tail = some dX) (hD : D x.tail)
    (hturns : Turns N s.disk x y) (hbelow : ∀ a, s.mem (a :: x) = none) :
    Sure E.env (checked (sfsRenameOther N x y) do
        moveD x y
        return 0) s (fun _ t => Sane N D t) := by
  have hs := h.new.sane
  have hpar : dX.replicas p = some ⟨x.tail, some .dir⟩ :=
    (hs.world.parent h.plain h.node).slot (hs.dirs hD hX).toReflects
  -- the new name is free
  refine sure_bind.mpr (sure_still_bind (h.leaf.still_validateFile h.mem h.id
    h.node (hs.plain.attr h.node)) ?_)
  rw [if_neg fun h => h rfl]
  refine sure_still_bind (still_read h.new.mem) ?_
  rw [h.new.negative]
  refine sure_still_bind .ret ?_
  rw [if_neg fun h => h rfl]
  refine sure_still_bind (still_read h.new.mem) ?_
  rw [h.new.negative]
  show Sure E.env (rename2non N x y) s _
  -- where the file is, and its new directory there
  refine sure_still_bind (still_read h.mem) ?_
  rw [h.id, h.leaf.metaId]
  refine sure_still_bind .ret (sure_still_bind (still_find hX)
    (sure_still_bind (h.still_canTurn hturns) ?_))
  rw [hpar]
  refine sure_bind.mpr ((goes_createReplicaDir hs h.new.dir h.new.cached
    h.within).sure.mono fun r t hr => ?_)
  cases r with
  | error err =>
    refine sure_ret.mpr ?_
    rw [if_pos (hr.fail rfl)]
    exact sure_ret.mpr hr.sane
  | ok rep =>
    obtain ⟨rfl, hmark⟩ := hr.ok rfl
    have ht := h.frame hr.sane hr.frame
    obtain ⟨hget, hu⟩ := ht.get (r := ⟨y.tail, some .dir⟩) rfl
    have hslot : (dy.fill t.disk y p).replicas p = some ⟨y, none⟩ := by
      rw [SfsDentry.fill, setReplica_self, Disk.slot, ht.new.none p]
      rfl
    have hbelow' : ∀ a, (t.setD y (dy.fill t.disk y p)).mem (a :: x) = none := by
      intro a
      exact (update_of_ne (h.ne_below a) ..).trans
        ((hr.frame.mem fun hD => h.plain (hs.world.up hD)).trans (hbelow a))
    refine sure_still_bind hget (sure_still_bind .ret ?_)
    rw [if_neg fun h => h rfl]
    refine sure_bind.mpr (sure_renameReplica hu hslot rfl ?_ fun err herr => ?_)
    · rw [if_neg fun h => h rfl]
      refine (hu.goes_moved hbelow' hmark).sure.mono ?_
      rintro _ v ⟨rfl, hv⟩
      rw [if_neg fun h => h rfl]
      have hmove : Still (do moveD x y; return (0 : Int)) v 0 (v.moveD x y) :=
        Still.bind (.perform rfl rfl) .ret
      exact (goes_still hmove hv).sure
    · rw [if_pos herr]
      refine sure_ret.mpr ?_
      rw [if_pos herr]
      exact sure_ret.mpr hu.new.sane

end Aim

/-! ## Runs -/

/-- The states that calls for which `fair` holds lead to, from a mount of fresh partitions,
    with remounts and dentries taken from the cache.  Each call has its own surroundings;
    `fair` is about them and the state before the call. -/
inductive Reached (fair : Surroundings → Op → Sys → Prop) (N : Nat) : Sys → Prop
  | mount {t : Sys} {a : Int} :
      Outcome harsh.dirEnv (lift (mountRoot N)) (booted (blank N)) a t →
      Reached fair N t
  | remount {s t : Sys} {a : Int} : Reached fair N s →
      Outcome harsh.dirEnv (lift (mountRoot N))
        { s with mem := fun _ => none } a t → Reached fair N t
  | call {s t : Sys} {E : Surroundings} {o : Op} {a : Int} : Reached fair N s → o.Ready s →
      Outcome E.dirEnv (o.code N) s a t → fair E o s → Reached fair N t
  | forget {s : Sys} (x : Path) : Reached fair N s →
      (∀ a, s.mem (a :: x) = none) → Reached fair N (s.forget x)

/-- A rmdir does not stop half-way.  The first replica that it would remove has entries; or
    the one to be removed last is there, and it is the only one, or all of them are empty
    and no partition refuses to remove one. -/
def Uncut (E : Surroundings) (d : Disk) (z : Path) (f : Nat) : Prop :=
  (∃ q, q ≠ f ∧ d.Holds z q ∧ d.emptyDir z q = false ∧ ∀ p < q, p ≠ f → ¬ d.Holds z p)
    ∨ d.Holds z f ∧ ((∀ p, d.Holds z p → p = f)
      ∨ ∀ p, d.emptyDir z p = true ∧ E.Obeys (.rmdir z p))

/-- A rmdir does not stop half-way.  A link and a rename need no meta file, and
    a rename is one of a file, with no dentry below it, to a free name. -/
def Steady (N : Nat) (E : Surroundings) : Op → Sys → Prop
  | .rmdir z, s => s.Has z.tail fun dZ => ∃ f, dZ.firstNormalDirId = some f ∧ Uncut E s.disk z f
  | .link x y, s => Turns N s.disk x y
  | .rename x y, s => Turns N s.disk x y
      ∧ s.Has y (·.positive = false) ∧ ∀ a, s.mem (a :: x) = none
  | .renameDir _ _, _ => False
  | _, _ => True

section Runs

variable {fair : Surroundings → Op → Sys → Prop} {o : Op} {err : Int} {f : Nat}
  {dz dend : SfsDentry}

theorem harsh_of_dirEnv {r : DirReq} {b : r.Ans} (h : E.dirEnv r s b t) : harsh.dirEnv r s b t := by
  cases r with
  | sfs r =>
    cases hr : r.durable with
    | false => exact .inl ((E.quiet hr).mp h)
    | true => exact E.durable hr h
  | _ => exact h

theorem dirEnv_of_harsh {r : DirReq} {b : r.Ans} (h : harsh.dirEnv r s b t) : dirEnv r s b t := by
  cases r with
  | sfs r =>
    refine Or.imp_right (And.imp_left fun hr => ?_) h
    cases r <;> first | exact hr | exact hr.elim
  | _ => exact h

/-- They are states of a machine. -/
theorem Reached.reach (h : Reached fair N s) : Sfs.Reach N s := by
  induction h with
  | mount ho =>
    exact .mount (.boot (blank N)) (ho.widen fun _ _ _ _ => dirEnv_of_harsh)
  | remount _ ho ih => exact .mount ih (ho.widen fun _ _ _ _ => dirEnv_of_harsh)
  | call _ hr ho _ ih =>
    exact .call ih hr (ho.widen fun _ _ _ _ h => dirEnv_of_harsh (harsh_of_dirEnv h))
  | forget x _ _ ih => exact .forget x ih

theorem Reached.of_reach (h : SfsAtomic.Reach (fun o _ s _ => fair harsh o s) N s) :
    Reached fair N s := by
  induction h with
  | mount ho => exact .mount ho
  | remount _ ho ih => exact .remount ih ho
  | call _ _ hr ho hf ih => exact .call ih hr ho hf
  | forget x _ hx ih => exact .forget x ih hx

/-- Then all replicas are removed, or none. -/
theorem rmdired_uncut (hr : Rmdired E N s z dz f dend err t) (w : World N D s.disk)
    (h : Uncut E s.disk z f) : err = 0 ∨ t.disk = s.disk := by
  -- nothing was removed before `m`, unless something without entries was
  have hnone : ∀ {m S}, Upto s z f m S → (∀ p < m, p ≠ f → ¬ s.disk.Holds z p) →
      (s.drop z dz S).disk = s.disk := by
    intro m S hS hno
    obtain rfl : S = [] := List.eq_nil_iff_forall_not_mem.mpr fun p hp => by
      obtain ⟨hlt, hne, hheld⟩ := (hS.mem_iff p).mp hp
      exact hno p hlt hne hheld
    rfl
  rcases h with ⟨q, hqf, hq, hfull, hfirst⟩ | ⟨hf, honly | hall⟩
  · have hm : ∀ {m S}, Upto s z f m S → m ≤ q := by
      intro m S hS
      by_contra hlt
      have hmem := (hS.mem_iff q).mpr ⟨Nat.lt_of_not_le hlt, hqf, hq⟩
      cases hfull.symm.trans (hS.empty q hmem)
    obtain ⟨b, hb⟩ := hq
    cases hr with
    | done _ _ _ => exact .inl rfl
    | stopped _ hS _ _ _ =>
      exact .inr (hnone hS fun p hp => hfirst p (lt_of_lt_of_le hp (hm hS)))
    | kept _ hS _ _ => exact absurd (w.within hb) (not_lt.mpr (hm hS))
    | lost hS _ => exact absurd (w.within hb) (not_lt.mpr (hm hS))
  · have hno : ∀ p, p ≠ f → ¬ s.disk.Holds z p := fun p hp hheld => hp (honly p hheld)
    cases hr with
    | done _ _ _ => exact .inl rfl
    | stopped _ _ hne hheld _ => exact absurd hheld (hno _ hne)
    | kept _ hS _ _ => exact .inr (hnone hS fun p _ => hno p)
    | lost _ hnf => exact absurd hf hnf
  · have hbalk : ∀ p, ¬ E.Balks s.disk z p := by
      rintro p (he | hobey)
      · cases he.symm.trans (hall p).1
      · exact hobey (hall p).2
    cases hr with
    | done _ _ _ => exact .inl rfl
    | stopped _ _ _ _ hb => exact absurd hb (hbalk _)
    | kept _ _ _ hb => exact absurd hb (hbalk _)
    | lost _ hnf => exact absurd hf hnf

theorem whole_of_uncut (h : Sane N D s) (hr : (Op.rmdir z).Ready s)
    (ho : Outcome E.dirEnv ((Op.rmdir z).code N) s err t) (hs : Steady N E (.rmdir z) s) :
    err = 0 ∨ t.disk = s.disk := by
  obtain ⟨⟨hne, -⟩, dz, hz, hdir⟩ := hr
  obtain ⟨a, Z, rfl⟩ := List.exists_cons_of_ne_nil hne
  obtain ⟨dZ, hZ, f, hf, huncut⟩ := hs
  have hrm := (must_rmdirCall h ((h.dir_iff hz).mp hdir) hz hZ hf).sure err t ho
  have hw := (h.shrink (a :: Z)).world
  exact rmdired_uncut (s := s.shrink (a :: Z)) hrm hw huncut

/-- A steady call leads from a sane state to a sane state. -/
theorem sane_of_steady (h : Sane N D s) (hh : AllHonest N s) (hN : 0 < N) (hr : o.Ready s)
    (ho : Outcome E.dirEnv (o.code N) s err t) (hs : Steady N E o s) : ∃ D, Sane N D t := by
  have ho' := ho.widen fun _ _ _ _ => harsh_of_dirEnv
  cases o with
  | link x y =>
    obtain ⟨dx, dy, p, i, ha⟩ := aim h hh hr.1 hr.2.1 hr.2.2
    exact ⟨D, sure_lift (sure_sfsLink ha hs) err t ho⟩
  | rename x y =>
    obtain ⟨-, ⟨-, dX, hX, hdir⟩, hy, hx, -⟩ := hr
    obtain ⟨dx, dy, p, i, ha⟩ := aim h hh hx hy hs.2.1
    exact ⟨D, sure_lift (sure_renameOther ha hX ((h.dir_iff hX).mp hdir) hs.1 hs.2.2) err t ho⟩
  | renameDir x y => exact hs.elim
  | rmdir z =>
    refine SfsAtomic.sane_of_call h hN ?_ hr ho' (whole_of_uncut h hr ho hs)
    trivial
  | _ =>
    refine SfsAtomic.sane_of_call h hN ?_ hr ho' ?_ <;> trivial

theorem Reached.sane (hN : 0 < N) (h : Reached (Steady N) N s) : ∃ D, Sane N D s := by
  induction h with
  | mount ho =>
    exact ⟨_, SfsAtomic.sane_of_mount world_blank plain_blank hN (fun _ => rfl) ho⟩
  | @remount s _ _ _ ho ih =>
    obtain ⟨D, hD⟩ := ih
    exact ⟨D, SfsAtomic.sane_of_mount (s := { s with mem := fun _ => none })
      hD.world hD.plain hN (fun _ => rfl) ho⟩
  | call hs hr ho hfair ih =>
    obtain ⟨D, hD⟩ := ih
    exact sane_of_steady hD (hs.reach.honest hN) hN hr ho hfair
  | forget x _ hx ih =>
    obtain ⟨D, hD⟩ := ih
    exact ⟨D, hD.forget hx⟩

end Runs

/-! ## The result -/

/-- The mount of these disks succeeds. -/
def Mounts (N : Nat) (d : Disk) : Prop :=
  (run sysHandler (mountRoot N) (booted d)).map Prod.fst = some 0

/-- The file is found by a lookup after a remount. -/
def FoundAgain (N : Nat) (d : Disk) (z : Path) (p i : Nat) : Prop :=
  Mounts N d ∧ SfsAtomic.look N d z = some (.file p i)

/-- The bits are the marks, and files are found again, if the remount is in `ok`.  The last
    part is about a file that is created next. -/
structure MapMatches (N : Nat) (ok : Disk → Prop) (s : Sys) : Prop where
  bits : ∀ {x dx}, s.mem x = some dx → dx.OfDir → ∀ p,
    dx.normalDirMap p = true ↔ s.disk.node x p = some (.dir true)
  found : ∀ {z p i}, ok s.disk → s.disk.node z p = some (.file i) → FoundAgain N s.disk z p i
  created : ∀ {z t}, (Op.create z).Ready s →
    Outcome harsh.dirEnv ((Op.create z).code N) s 0 t → ok t.disk →
    ∃ p i, FoundAgain N t.disk z p i

/-- The root is not normal in the last partition, whose `check_normal_dir` is what
    `sfs_opts_parse` returns. -/
def Remountable (N : Nat) (d : Disk) : Prop := d.node [] (N - 1) ≠ some (.dir true)

instance : Decidable (Remountable N d) := inferInstanceAs (Decidable (¬ _))

instance : Decidable (Mounts N d) := inferInstanceAs (Decidable (_ = _))

theorem look_of_sane (h : Sane N D s) (hN : 0 < N) (hn : s.disk.node z p = some (.file i)) :
    SfsAtomic.look N s.disk z = some (.file p i) := by
  have hz : ¬ D z := fun hD => h.world.no_file hD p i hn
  obtain ⟨c, Z, rfl⟩ : ∃ c Z, z = c :: Z := by
    refine List.exists_cons_of_ne_nil ?_
    rintro rfl
    exact hz h.world.root
  have hZ : D Z := (h.world.dir_iff (h.plain.normal hn)).mp ⟨true, rfl⟩
  exact SfsAtomic.look_file h.world h.plain hN hZ hn

theorem mounts_of_sane (h : Sane N D s) (hN : 0 < N) (hr : Remountable N s.disk) :
    Mounts N s.disk := by
  obtain ⟨dz, -, -, -, hstill⟩ := still_mountRoot (s := booted s.disk) h.world.within hN
  rw [Mounts, still_run hstill]
  exact congrArg some (if_neg hr)

/-- In every run whose calls are steady the bits are the marks, and what is created is found
    after a remount, unless the root is normal in the last partition by then. -/
theorem map_matches (hN : 0 < N) (h : Reached (Steady N) N s) : MapMatches N (Remountable N) s := by
  obtain ⟨D, hD⟩ := h.sane hN
  refine ⟨fun hx hdir => (hD.dirs ((hD.dir_iff hx).mp hdir) hx).map,
    fun hok hn => ⟨mounts_of_sane hD hN hok, look_of_sane hD hN hn⟩, fun {z t} hr ho hok => ?_⟩
  obtain ⟨dz, hv⟩ := hD.vacant hr.1 hr.2
  obtain ⟨ht, hfile⟩ :=
    (Minds.lift (goes_sfsCreate (E := harsh) hv hN)).sure 0 t ho
  obtain ⟨p, i, hi⟩ := hfile rfl
  exact ⟨p, i, mounts_of_sane ht hN hok, look_of_sane ht hN hi⟩

/-- The directory `[1, 0]` is removed again: its only replica is the one to be removed last. -/
def felled : Sys := SfsAtomic.grown.after 3 noneLost (.rmdir [1, 0])

theorem felled_reached : Reached (Steady 3) 3 felled := by
  have hgrown : Reached (Steady 3) 3 SfsAtomic.grown :=
    .of_reach (SfsAtomic.started_reach.afterAll (by decide)
      (by simp [SfsAtomic.Plants]) (by simp [Steady]))
  have hfirst : (SfsAtomic.grown.mem [0]).bind SfsDentry.firstNormalDirId = some 1 := by decide
  obtain ⟨dZ, hZ, hf⟩ := Option.bind_eq_some_iff.mp hfirst
  have honly : ∀ p, SfsAtomic.grown.disk.Holds [1, 0] p → p = 1 := by
    rintro p ⟨b, hb⟩
    obtain ⟨D, hD⟩ := hgrown.sane (by decide)
    have h0 : SfsAtomic.grown.disk.node [1, 0] 0 = none := by decide
    have h2 : SfsAtomic.grown.disk.node [1, 0] 2 = none := by decide
    have hp := hD.world.within hb
    obtain rfl | rfl | rfl : p = 0 ∨ p = 1 ∨ p = 2 := by omega
    · cases h0.symm.trans hb
    · rfl
    · cases h2.symm.trans hb
  rw [felled, Sys.after]
  cases hr : run (dirHandler 0 noneLost) ((Op.rmdir [1, 0]).code 3) SfsAtomic.grown with
  | none => exact hgrown
  | some r =>
    exact hgrown.call (by decide) (SfsAtomic.harsh_of_run hr)
      ⟨dZ, hZ, 1, hf, .inr ⟨⟨false, by decide⟩, .inl honly⟩⟩

theorem felled_matches : Reached (Steady 3) 3 felled ∧ MapMatches 3 (Remountable 3) felled
      ∧ Remountable 3 felled.disk ∧ FoundAgain 3 felled.disk [2, 0] 2 0 := by
  have h := map_matches (by decide) felled_reached
  exact ⟨felled_reached, h, by decide, h.found (by decide) (by decide)⟩

/-- What the partitions have, and what of it is cached. -/
structure WellFormed (s : Sys) : Prop where
  single : ∀ {z p q i o}, s.disk.node z p = some (.file i) → s.disk.node z q = some o → q = p
  placed : ∀ {a z p o}, s.disk.node (a :: z) p = some o → ∃ b, s.disk.node z p = some (.dir b)
  shown : ∀ {a z p o}, s.disk.node (a :: z) p = some o →
    ∃ q, s.disk.node z q = some (.dir true) ∧ s.disk.node (a :: z) q ≠ none
  slots : ∀ {z d}, s.mem z = some d → Sound s.disk z d
  positive : ∀ {z d}, s.mem z = some d → (d.positive = true ↔ ∃ p, s.disk.node z p ≠ none)

/-- In every run whose calls are steady: a file is in one partition and its name nowhere
    else, replicas lie in replicas, every name is in a normal replica of its directory, and
    dentries show what the partitions have. -/
theorem wellFormed (hN : 0 < N) (h : Reached (Steady N) N s) : WellFormed s := by
  obtain ⟨D, hD⟩ := h.sane hN
  have hdir : ∀ {z}, D z → ∃ p, s.disk.node z p ≠ none := by
    intro z hz
    cases z with
    | nil =>
      obtain ⟨b, hb⟩ := hD.world.rooted hN
      exact ⟨0, hb ▸ some_ne_none _⟩
    | cons a z =>
      obtain ⟨p, -, o, ho⟩ := hD.world.shown hz
      exact ⟨p, ho ▸ some_ne_none o⟩
  refine ⟨fun {z p q i o} hp hq => ?_, hD.world.held, fun {a z p o} ho => ?_,
    fun {z d} hd => ?_, fun {z d} hd => ?_⟩
  · by_contra hne
    cases (hD.plain.alone hp q hne).symm.trans hq
  · by_cases hz : D (a :: z)
    · obtain ⟨q, hq, o', ho'⟩ := hD.world.shown hz
      exact ⟨q, hq, ho' ▸ some_ne_none o'⟩
    · cases o with
      | dir b => exact absurd ((hD.world.dir_iff ho).mp ⟨b, rfl⟩) hz
      | file i => exact ⟨p, hD.plain.normal ho, ho ▸ some_ne_none _⟩
  · by_cases hz : D z
    · exact (hD.dirs hz hd).sound
    · exact (hD.leaves hz hd).sound
  · by_cases hz : D z
    · exact iff_of_true (hD.dirs hz hd).positive (hdir hz)
    · have hl := hD.leaves hz hd
      cases hpos : d.positive with
      | true =>
        obtain ⟨p, i, -, hi⟩ := hl.file hpos
        exact iff_of_true rfl ⟨p, hi ▸ some_ne_none _⟩
      | false => exact iff_of_false Bool.false_ne_true fun ⟨p, hp⟩ => hp ((hl.absent hpos).2 p)

theorem felled_wellFormed : Reached (Steady 3) 3 felled ∧ WellFormed felled :=
  ⟨felled_reached, wellFormed (by decide) felled_reached⟩

/-! ## A rmdir that fails half-way

The directory `[0]` is normal in the partitions 1 and 2, with the file `[2, 0]` in the
partition 2.  The rmdir removes the replica in the partition 1 and then finds the file.
-/

def torn : Sys :=
  [Op.lookup [0], .mkdir [0], .lookup [1, 0], .create [1, 0], .lookup [2, 0],
    .create [2, 0], .unlink [1, 0], .rmdir [0]].foldl
    (fun s o => s.after 3 noneLost o) SfsAtomic.started

/-- The third file that is made then goes to the partition 1, where `[0]` is
    cloned and not marked, since the bit is set. -/
def lost : Sys :=
  [Op.lookup [3, 0], .create [3, 0], .lookup [4, 0], .create [4, 0],
    .lookup [5, 0], .create [5, 0]].foldl (fun s o => s.after 3 noneLost o) torn

theorem torn_reach {fair : Op → Int → Sys → Sys → Prop}
    (hf : ∀ o a s t, fair o a s t) : SfsAtomic.Reach fair 3 torn :=
  SfsAtomic.started_reach.afterAll (by decide) (by simp [SfsAtomic.Plants]) fun o _ => hf o

/-- The map does not match, and the file in the partition 1 is not found after a remount. -/
theorem torn_fails : Reached (fun _ _ _ => True) 3 torn
      ∧ torn.Has [0] (fun d => d.OfDir ∧ d.normalDirMap 1 = true)
      ∧ torn.disk.node [0] 1 = none ∧ ¬ MapMatches 3 (fun _ => True) torn
      ∧ Reached (fun _ _ _ => True) 3 lost
      ∧ lost.disk.node [5, 0] 1 = some (.file 4) ∧ Mounts 3 lost.disk
      ∧ SfsAtomic.look 3 lost.disk [5, 0] = some .nothing := by
  have hbit : torn.Has [0] (fun d => d.OfDir ∧ d.normalDirMap 1 = true) := by
    decide
  have hnone : torn.disk.node [0] 1 = none := by decide
  refine ⟨.of_reach (torn_reach fun _ _ _ _ => trivial), hbit, hnone, fun h => ?_,
    .of_reach ((torn_reach fun _ _ _ _ => trivial).afterAll (by decide)
      (by simp [SfsAtomic.Plants]) (by simp)), by decide, by decide, by decide⟩
  obtain ⟨d, hd, hdir, hmap⟩ := hbit
  cases hnone.symm.trans ((h.bits hd hdir 1).mp hmap)

end SfsMap
