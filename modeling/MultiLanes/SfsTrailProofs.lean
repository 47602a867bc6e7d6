import MultiLanes.SfsFileProofs
import MultiLanes.SfsRenameProofs

/-! # SFS — following a rename

A rename works on the dentries of two names and on the disks (`Sys.two`). `Trail` says
all there is to say about a run of it that succeeds: its end, the disks it leaves
behind, at which a crash may find it, and the disks in which it ends when one of its
operations fails and it returns the error. There is one rule for each step of
`rename.c`. -/

namespace Sfs

open InteractProg Function

/-! ## The dentries of two names -/

/-- The state with other dentries for `x` and `y` and other disks. -/
def Sys.two (s : Sys) (x : Path) (dx : SfsDentry) (y : Path) (dy : SfsDentry)
    (d : Disk) : Sys := (s.one x dx d).one y dy d

section Two

variable {s : Sys} {x y z : Path} {dx dx' dy dy' dz : SfsDentry} {d d' : Disk}

theorem two_left (h : x ≠ y) : (s.two x dx y dy d).mem x = some dx :=
  (one_mem_of_ne h).trans one_mem

@[simp] theorem two_right : (s.two x dx y dy d).mem y = some dy := one_mem

theorem two_of_ne (hx : z ≠ x) (hy : z ≠ y) : (s.two x dx y dy d).mem z = s.mem z :=
  (one_mem_of_ne hy).trans (one_mem_of_ne hx)

@[simp] theorem two_disk : (s.two x dx y dy d).disk = d := rfl

@[simp] theorem two_onDisk : (s.two x dx y dy d).onDisk d' = s.two x dx y dy d' := rfl

theorem two_setD_left (h : x ≠ y) : (s.two x dx y dy d).setD x dx' = s.two x dx' y dy d := by
  simp only [Sys.two, Sys.one, Sys.setD]
  rw [update_comm h, update_idem, update_comm h]

@[simp] theorem two_setD_right : (s.two x dx y dy d).setD y dy' = s.two x dx y dy' d := one_setD

theorem eq_two (hx : s.mem x = some dx) (hy : s.mem y = some dy) : s = s.two x dx y dy s.disk := by
  rw [Sys.two, ← eq_one hx]
  exact eq_one hy

end Two

/-! ## Trails -/

/-- The code runs from `s` to `t` and returns 0.  The disks `ds` are those it leaves behind;
    `fs` are those in which it ends when an operation fails and it returns the error. -/
def Trail (c : Code Int) (s t : Sys) (ds fs : List Disk) : Prop :=
  ∀ e I (P : Int → Disk → Prop) Q, e ≠ 0 → (∀ d, P 0 d) →
    (Does e I (fun b u => P b u.disk) c s Q ↔
      (∀ d ∈ ds, I d) ∧ I t.disk ∧ (∀ d ∈ fs, P e d) ∧ Q 0 t)

/-- The code returns 0 whatever happens. -/
abbrev Zero (c : Code Int) : Prop := Leaves (fun err => err = 0) c

section Trail

variable {α : Type} {s t u : Sys} {ds es fs : List Disk} {k : Code Int}
  {x y : Path} {dx dy : SfsDentry} {p i : Nat} {v : Ptrs}

/-- Every moment of the run is at one of the disks. -/
theorem Trail.passes {c : Code Int} (h : Trail c s t ds fs)
    {I : Disk → Prop} : (∀ u, Passes sysHandler c s u → I u.disk) ↔ (∀ d ∈ ds, I d) ∧ I t.disk := by
  have hrun := weathers_iff.mp ((h 1 (fun _ => True) (fun _ _ => True)
    (fun _ _ => True) (by decide) (fun _ => trivial)).mpr
      ⟨fun _ _ => trivial, trivial, fun _ _ => trivial, trivial⟩)
  have hiff := h 1 I (fun _ _ => True) (fun _ _ => True) (by decide) (fun _ => trivial)
  rw [Does, weathers_iff] at hiff
  constructor
  · intro hI
    obtain ⟨hds, ht, -⟩ := hiff.mp ⟨hrun.1, hI, hrun.2.2⟩
    exact ⟨hds, ht⟩
  · rintro ⟨hds, ht⟩
    exact (hiff.mpr ⟨hds, ht, fun _ _ => trivial, trivial⟩).2.1

/-- Every run in which an operation fails and that returns an error ends at one of the disks. -/
theorem Trail.faults {c : Code Int} (h : Trail c s t ds fs) {e : Int}
    (he : e ≠ 0) {P : Disk → Prop} :
    (∀ n b u, runFault sysHandler (failing e) n c s = some (b, u) →
      b ≠ 0 → P u.disk) ↔ ∀ d ∈ fs, P d := by
  have hrun := weathers_iff.mp ((h e (fun _ => True) (fun _ _ => True)
    (fun _ _ => True) he (fun _ => trivial)).mpr
      ⟨fun _ _ => trivial, trivial, fun _ _ => trivial, trivial⟩)
  have hiff := h e (fun _ => True) (fun b d => b ≠ 0 → P d) (fun _ _ => True) he
    (fun _ h0 => absurd rfl h0)
  rw [Does, weathers_iff] at hiff
  constructor
  · intro hP d hd
    obtain ⟨-, -, hfs, -⟩ := hiff.mp ⟨hrun.1, fun _ _ => trivial, hP⟩
    exact hfs d hd he
  · intro hfs
    exact (hiff.mpr ⟨fun _ _ => trivial, trivial, fun d hd _ => hfs d hd, trivial⟩).2.2

theorem Trail.run {c : Code Int} (h : Trail c s t ds fs) :
    InteractProg.run sysHandler c s = some (0, t) := by
  obtain ⟨⟨a, u, hrun, rfl, rfl⟩, -⟩ := weathers_iff.mp
    ((h 1 (fun _ => True) (fun _ _ => True) (fun a u => a = 0 ∧ u = t)
      (by decide) (fun _ => trivial)).mpr
        ⟨fun _ _ => trivial, trivial, fun _ _ => trivial, rfl, rfl⟩)
  exact hrun

theorem Trail.ret : Trail (.ret 0) s s [] [] := by
  intro e I P Q he hP
  simp

/-- A part that leaves the disks alone. -/
theorem Trail.calm {c : Code α} {f : α → Code Int} {a : α} (hc : Calm c s a u)
    (h : Trail (f a) u t ds fs) : Trail (c >>= f) s t ds fs := by
  intro e I P Q he hP
  rw [does_calm hc]
  exact h e I P Q he hP

/-- A part without an operation that could fail. -/
theorem Trail.made {c : Code α} {f : α → Code Int} {a : α}
    (hc : Made c s a u es) (h : Trail (f a) u t ds fs) :
    Trail (c >>= f) s t (es ++ ds) fs := by
  intro e I P Q he hP
  rw [does_made hc, h e I P Q he hP, List.forall_mem_append, and_assoc]

theorem isFile_unique (hi : dx.IsFile p i) {j : Nat} : dx.IsFile p j ↔ j = i := by
  rw [SfsDentry.IsFile, hi]
  simp [eq_comm]

/-- `put`, after which an error is returned. -/
theorem Trail.put (hx : s.mem x = some dx) (hi : dx.IsFile p i)
    (h : Trail k (s.onDisk (s.disk.setAttr p i (some v))) t ds fs) :
    Trail (checked (put x p v) k) s t (s.disk :: ds) (s.disk :: fs) := by
  intro e I P Q he hP
  rw [checked, does_put]
  simp [hx, isFile_unique hi, he, h e I P Q he hP, and_assoc, and_left_comm]

/-- `put`, after which an error is dropped. -/
theorem Trail.putAnyway (hx : s.mem x = some dx) (hi : dx.IsFile p i) (hk : Zero k)
    (h : Trail k (s.onDisk (s.disk.setAttr p i (some v))) t ds fs) :
    Trail (Sfs.put x p v >>= fun _ => k) s t (s.disk :: ds) fs := by
  intro e I P Q he hP
  have hfail : ∀ b u, InteractProg.run sysHandler k s = some (b, u) →
      P b u.disk := fun b u hr => (hk.run hr).symm ▸ hP u.disk
  rw [does_put]
  simp only [hx, isFile_unique hi, Option.some.injEq, exists_eq_left',
    exists_eq_left, h e I P Q he hP, List.forall_mem_cons, and_assoc]
  exact and_congr_right fun _ => and_iff_right hfail

/-- The file is created, and the slot gets its inode. -/
theorem Trail.create {parent : Option Replica} {j : Inode}
    (hpar : parent.bind Replica.inode = some j) (hx : s.mem x = some dx)
    (hn : s.disk.node x p = none)
    (h : Trail k ((s.onDisk (s.disk.addFile x p)).setD x
      (dx.setReplica p (some ⟨x, some (.file s.disk.next)⟩))) t ds fs) :
    Trail (checked (createReplica parent x p) k) s t (s.disk :: ds) (s.disk :: fs) := by
  intro e I P Q he hP
  rw [checked, createReplica, hpar]
  simp [bind_bind, does_create hn, hx, he, h e I P Q he hP, and_assoc, and_left_comm]

/-- `simple_unlink_not_put`. -/
theorem made_simpleUnlinkNotPut {parent : Option Replica} {j : Inode}
    (hpar : parent.bind Replica.inode = some j) (hx : s.mem x = some dx)
    (hslot : dx.replicas p = some ⟨x, some (.file i)⟩) (hn : s.disk.node x p = some (.file i)) :
    Made (simpleUnlinkNotPut parent x p) s 0 ((s.onDisk (s.disk.setNode x p none)).setD x
        (dx.setReplica p (some ⟨x, none⟩))) [s.disk] := by
  intro e I G Q
  have hn' : ∃ i, s.disk.node x p = some (.file i) := ⟨i, hn⟩
  simp [simpleUnlinkNotPut, hpar, hx, hslot, does_unlink hn', onlyIf]

theorem made_unlinkSlot (hx : s.mem x = some dx) (hslot : dx.replicas p = some ⟨x, some (.file i)⟩)
    (hn : s.disk.node x p = some (.file i)) :
    Made (unlinkSlot x p) s 0 ((s.onDisk (s.disk.setNode x p none)).setD x
        (dx.setReplica p (some ⟨x, none⟩))) [s.disk] := by
  intro e I G Q
  have h := made_simpleUnlinkNotPut (show (some (Replica.mk x.tail
    (some .dir))).bind Replica.inode = some .dir from rfl) hx
    hslot hn e I G Q
  rw [← h, unlinkSlot, does_findReplicaDentry]
  simp [hx, hslot]

/-- The rename in the partition and the `d_move`, after which `x` has the
    dentry of the file and `y` a negative one. -/
theorem Trail.rename {parent : Option Replica} {j : Inode} {d : Disk}
    {r : Option Inode} {f : Int → Code Int} {du : Disk} (hxy : x ≠ y)
    (hpar : parent.bind Replica.inode = some j)
    (hx : dx.replicas p = some ⟨x, some (.file i)⟩)
    (hy : dy.replicas p = some ⟨y, r⟩)
    (hn : d.node x p = some (.file i)) (hny : ∀ b, d.node y p ≠ some (.dir b))
    (hf : ∀ e, e ≠ 0 → ∃ u, InteractProg.run sysHandler (f e)
      (s.two x dx y dy d) = some (e, u) ∧ u.disk = du)
    (h : Trail (f 0) (s.two x (dx.setReplica p (some ⟨y, some (.file i)⟩))
      y (dy.setReplica p (some ⟨y, none⟩)) (d.moveFile x y p)) t ds fs) :
    Trail (renameReplica parent x y p >>= f) (s.two x dx y dy d) t (d :: ds) (du :: fs) := by
  intro e I P Q he hP
  obtain ⟨u, hu, rfl⟩ := hf e he
  have hn' : ∃ i, (s.two x dx y dy d).disk.node x p = some (.file i) := ⟨i, hn⟩
  simp [renameReplica, hpar, hx, hy, two_left hxy, bind_bind, he,
    does_rename hn' hny, onlyIf, two_setD_left hxy, hu, h e I P Q he hP,
    and_assoc, and_left_comm]

/-! ## `sfs_d_move` -/

/-- The slots of `dx` in the partitions of `ps` but `o` are those of `dy`. -/
def SfsDentry.take (dx dy : SfsDentry) (o : Nat) (ps : List Nat) : SfsDentry :=
  { dx with replicas := fun p =>
      if p ≠ o ∧ p ∈ ps then dy.replicas p else dx.replicas p }

theorem still_sfsDMove {o : Nat} {ps : List Nat} {d : Disk} (hxy : x ≠ y) (hps : ps.Nodup) :
    Still (sfsDMove x y o ps) (s.two x dx y dy d) ()
      (s.two x (dx.take dy o ps) y (dy.take dx o ps) d) := by
  induction ps generalizing dx dy with
  | nil =>
    have h : ∀ dz dw : SfsDentry, dz.take dw o [] = dz := by
      intro dz dw
      simp [SfsDentry.take]
    rw [h, h]
    exact .ret
  | cons p ps ih =>
    obtain ⟨hp, hps'⟩ := List.nodup_cons.mp hps
    by_cases hpo : p = o
    · have h : ∀ dz dw : SfsDentry, dz.take dw o (p :: ps) = dz.take dw o ps := by
        intro dz dw
        simp only [SfsDentry.take, SfsDentry.mk.injEq, true_and, and_true]
        funext q
        by_cases hq : q = p
        · simp [hq, hpo]
        · simp [hq]
      rw [sfsDMove, h, h]
      simpa [onlyIf, hpo] using ih hps'
    · have h : ∀ dz dw : SfsDentry, (dz.setReplica p (dw.replicas p)).take
          (dw.setReplica p (dz.replicas p)) o ps = dz.take dw o (p :: ps) := by
        intro dz dw
        simp only [SfsDentry.take, SfsDentry.setReplica, SfsDentry.mk.injEq, true_and, and_true]
        funext q
        by_cases hq : q = p
        · simp [hq, hpo, hp]
        · simp [hq]
      have hih : Still (sfsDMove x y o ps) (s.two x (dx.setReplica p (dy.replicas p)) y
          (dy.setReplica p (dx.replicas p)) d) () _ := ih hps'
      rw [h, h dy dx] at hih
      rw [sfsDMove]
      simpa [onlyIf, hpo, storeReplica, two_left hxy, two_setD_left hxy, bind_bind] using hih

end Trail

end Sfs
