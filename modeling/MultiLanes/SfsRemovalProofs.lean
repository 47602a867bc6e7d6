import MultiLanes.SfsRefusalProofs

/-! # SFS — what a rmdir removes, replica by replica

`sfs_rmdir` removes the replicas of a directory one by one, the one in the partition
that the parent has recorded as its first normal one last. `Disk.drop` are the disks on
the way.  A replica is removed only when it is empty, so while one is left under a
normal parent the directory is seen with all that it had (`World.drop`), and when none
is left it is gone (`World.without`).

`Rmdired` is what the call can come to in surroundings that may refuse.  The loop is
followed once (`must_rmdirOthers`), for every order in which the partitions became
normal and every answer of their file systems. -/

namespace Sfs

open InteractProg List Option

variable {N : Nat} {D : Path → Prop} {E : Surroundings} {s t u : Sys}
  {x y z Z : Path} {dx dz dZ : SfsDentry} {a p q f : Nat} {d : Disk}
  {S : List Nat}

/-! ## Disks without some replicas -/

/-- The replicas of `z` in the partitions `S` are gone. -/
def Disk.drop (d : Disk) (z : Path) (S : List Nat) : Disk :=
  S.foldr (fun p d => d.setNode z p none) d

/-- Their dentries are negative. -/
def SfsDentry.drop (dz : SfsDentry) (z : Path) (S : List Nat) : SfsDentry :=
  S.foldr (fun p dz => dz.setReplica p (some ⟨z, none⟩)) dz

/-- The state of a rmdir of `z` when the partitions `S` are done. -/
def Sys.drop (s : Sys) (z : Path) (dz : SfsDentry) (S : List Nat) : Sys :=
  s.one z (dz.drop z S) (s.disk.drop z S)

theorem drop_mem : (s.drop z dz S).mem z = some (dz.drop z S) := one_mem

theorem Disk.drop_node : (d.drop z S).node y q = if y = z ∧ q ∈ S then none else d.node y q := by
  induction S with
  | nil => simp [Disk.drop]
  | cons p S ih =>
    show ((d.drop z S).setNode z p none).node y q = _
    rw [setNode_node, ih]
    by_cases hy : y = z <;> by_cases hq : q = p <;> simp [hy, hq]

theorem Disk.drop_of_ne (h : y ≠ z) : (d.drop z S).node y q = d.node y q := by
  rw [Disk.drop_node, if_neg fun hy => h hy.1]

theorem Disk.drop_of_not_mem (h : q ∉ S) : (d.drop z S).node y q = d.node y q := by
  rw [Disk.drop_node, if_neg fun hy => h hy.2]

theorem Disk.drop_some {o : Obj} (h : (d.drop z S).node y q = some o) :
    d.node y q = some o ∧ ¬ (y = z ∧ q ∈ S) := by
  rw [Disk.drop_node] at h
  split at h
  · cases h
  · next hne => exact ⟨h, hne⟩

@[simp] theorem Disk.drop_attr : (d.drop z S).attr = d.attr := by
  induction S with
  | nil => rfl
  | cons p S ih => exact ih

@[simp] theorem Disk.drop_fan : (d.drop z S).fan = d.fan := by
  induction S with
  | nil => rfl
  | cons p S ih => exact ih

theorem SfsDentry.drop_of_not_mem (h : q ∉ S) : (dz.drop z S).replicas q = dz.replicas q := by
  induction S with
  | nil => rfl
  | cons p S ih =>
    obtain ⟨hq, hS⟩ := not_or.mp (mt mem_cons.mpr h)
    show ((dz.drop z S).setReplica p _).replicas q = _
    rw [setReplica_of_ne hq, ih hS]

@[simp] theorem setReplica_clean {r : Option Replica} : (dz.setReplica p r).clean = dz.clean := rfl

theorem SfsDentry.drop_clean : (dz.drop z S).clean = dz.clean := by
  induction S with
  | nil => rfl
  | cons p S ih => exact ih

/-- The entries of the directory itself are not touched. -/
theorem Disk.drop_emptyDir : (d.drop z S).emptyDir z p = d.emptyDir z p := by
  have hnode : ∀ c, (d.drop z S).node (c :: z) p = d.node (c :: z) p :=
    fun c => Disk.drop_of_ne (tail_ne c z).symm
  simp only [Disk.emptyDir, Disk.drop_fan, hnode]

/-- An empty directory has no entries, as the names in use are known. -/
theorem Plain.no_entry (h : Plain d) (he : d.emptyDir z p = true) (c : Nat) :
    d.node (c :: z) p = none := by
  by_contra hn
  have hc := all_eq_true.mp he c (mem_range.mpr (h.fan hn))
  exact hn (isNone_iff_eq_none.mp hc)

theorem Plain.drop (h : Plain d)
    (hS : ∀ p ∈ S, ∀ c, d.node (c :: z) p = none) : Plain (d.drop z S) where
  attr hn := by
    rw [Disk.drop_attr]
    exact h.attr (Disk.drop_some hn).1
  normal {x p i} hn := by
    obtain ⟨hx, -⟩ := Disk.drop_some hn
    have hdir := h.normal hx
    rw [Disk.drop_node, if_neg]
    · exact hdir
    · -- a replica that was removed had no entries
      rintro ⟨hxz, hp⟩
      cases x with
      | nil => cases hx.symm.trans hdir
      | cons c A =>
        obtain rfl : A = z := hxz
        cases (hS p hp c).symm.trans hx
  alone {x p i} hn q hq := by
    rw [Disk.drop_node]
    split
    · rfl
    · exact h.alone (Disk.drop_some hn).1 q hq
  fan {c Z p} hn := by
    rw [Disk.drop_fan]
    obtain ⟨o, ho⟩ := ne_none_iff_exists'.mp hn
    exact h.fan (by rw [(Disk.drop_some ho).1]; exact nofun)

/-- What is in a directory is still in it. -/
theorem World.held_drop (w : World N D d) (hS : ∀ p ∈ S, ∀ c, d.node (c :: z) p = none) {o : Obj}
    (hn : (d.drop z S).node (a :: Z) p = some o) : (d.drop z S).Holds Z p := by
  obtain ⟨hn', -⟩ := Disk.drop_some hn
  obtain ⟨b, hb⟩ := w.held hn'
  refine ⟨b, ?_⟩
  rw [Disk.drop_node, if_neg]
  · exact hb
  · rintro ⟨rfl, hp⟩
    cases (hS p hp a).symm.trans hn'

/-- What is seen in a directory is still seen in it. -/
theorem World.shown_drop (w : World N D d) (hS : ∀ p ∈ S, ∀ c, d.node (c :: z) p = none)
    (hD : D (a :: Z)) (hne : a :: Z ≠ z) : ∃ p, (d.drop z S).node Z p = some (.dir true)
      ∧ ∃ o, (d.drop z S).node (a :: Z) p = some o := by
  obtain ⟨p, hp, o, ho⟩ := w.shown hD
  refine ⟨p, ?_, o, by rw [Disk.drop_of_ne hne]; exact ho⟩
  rw [Disk.drop_node, if_neg]
  · exact hp
  · rintro ⟨rfl, hp'⟩
    cases (hS p hp' a).symm.trans ho

theorem World.rooted_drop (w : World N D d) (hz : z ≠ []) (hp : p < N) :
    (d.drop z S).Holds [] p := by
  obtain ⟨b, hb⟩ := w.rooted hp
  exact ⟨b, by rw [Disk.drop_of_ne hz.symm]; exact hb⟩

/-- Empty replicas are removed, and one is left where the parent is normal: the
    directories are the same. -/
theorem World.drop (w : World N D d) (hS : ∀ p ∈ S, ∀ c, d.node (c :: a :: Z) p = none) (hf : f ∉ S)
    (hn : d.node Z f = some (.dir true)) (hz : d.Holds (a :: Z) f) :
    World N D (d.drop (a :: Z) S) where
  root := w.root
  up := w.up
  within hn := w.within (Disk.drop_some hn).1
  rooted hp := w.rooted_drop nofun hp
  dir_iff hn := w.dir_iff (Disk.drop_some hn).1
  held hn := w.held_drop hS hn
  shown {b Y} hD := by
    by_cases hY : b :: Y = a :: Z
    · obtain ⟨rfl, rfl⟩ := cons.inj hY
      obtain ⟨c, hc⟩ := hz
      exact ⟨f, by rw [Disk.drop_of_not_mem hf]; exact hn, .dir c,
        by rw [Disk.drop_of_not_mem hf]; exact hc⟩
    · exact w.shown_drop hS hD hY

/-- All replicas are removed. -/
theorem World.drop_gone (w : World N D d) (hD : D z) (hall : ∀ p, d.Holds z p → p ∈ S)
    (p : Nat) : (d.drop z S).node z p = none := by
  by_contra hn
  obtain ⟨o, ho⟩ := ne_none_iff_exists'.mp hn
  obtain ⟨ho', hne⟩ := Disk.drop_some ho
  obtain ⟨b, rfl⟩ := w.dir_of hD ho'
  exact hne ⟨rfl, hall p ⟨b, ho'⟩⟩

/-- All replicas are removed: the directory is gone. -/
theorem World.without (w : World N D d) (hz : z ≠ []) (hS : ∀ p ∈ S, ∀ c, d.node (c :: z) p = none)
    (hall : ∀ p, d.Holds z p → p ∈ S) :
    World N (fun y => D y ∧ y ≠ z) (d.drop z S) := by
  have hbelow : ∀ c, ¬ D (c :: z) := by
    intro c hD
    obtain ⟨p, hp, o, ho⟩ := w.shown hD
    exact nomatch (hS p (hall p ⟨true, hp⟩) c).symm.trans ho
  refine ⟨⟨w.root, hz.symm⟩, fun {b Y} hY => ⟨w.up hY.1, ?_⟩,
    fun hn => w.within (Disk.drop_some hn).1, fun hp => w.rooted_drop hz hp,
    fun {y p o} hn => ?_, fun hn => w.held_drop hS hn,
    fun hY => w.shown_drop hS hY.1 hY.2⟩
  · rintro rfl
    exact hbelow b hY.1
  · obtain ⟨hn', hne⟩ := Disk.drop_some hn
    rw [w.dir_iff hn']
    refine ⟨fun hD => ⟨hD, ?_⟩, fun h => h.1⟩
    rintro rfl
    obtain ⟨b, rfl⟩ := w.dir_of hD hn'
    exact hne ⟨rfl, hall p ⟨b, hn'⟩⟩

/-! ## The calls, followed to their end -/

section Follow

variable {α β : Type} {Q : Int → Sys → Prop}

theorem must_lift {c : Code α} {R : α → Sys → Prop} :
    Must E.dirEnv (lift c) s R ↔ Must E.env c s R := by
  induction c generalizing s with
  | ret a => exact Iff.rfl
  | ask q k ih =>
    refine and_congr_right fun _ => forall_congr' fun r => ?_
    exact forall_congr' fun t => imp_congr_right fun _ => ih r

/-- The replica is not empty, or its file system need not remove it. -/
def Surroundings.Balks (E : Surroundings) (d : Disk) (z : Path) (p : Nat) :
    Prop := d.emptyDir z p = false ∨ ¬ E.Obeys (.rmdir z p)

/-- `i_op->rmdir` of a directory: it was empty and is gone, or there is an error. -/
theorem must_rmdir {k : Int → Code β} {R : β → Sys → Prop} (hn : s.disk.Holds z p)
    (hdone : s.disk.emptyDir z p = true → Must E.env (k 0) (s.onDisk (s.disk.setNode z p none)) R)
    (hfail : ∀ err, err ≠ 0 → E.Balks s.disk z p → Must E.env (k err) s R) :
    Must E.env (rmdir z p >>= k) s R := by
  obtain ⟨b, hb⟩ := hn
  have hstep : sysHandler (.rmdir z p) s = if s.disk.emptyDir z p then
          some ((0 : Int), s.onDisk (s.disk.setNode z p none))
        else some (enotempty, s) := by
    simp only [sysHandler, Disk.step, hb]
    split <;> rfl
  refine ⟨E.answers s rfl, fun err u hr => ?_⟩
  cases he : s.disk.emptyDir z p with
  | true =>
    rw [he, if_pos rfl] at hstep
    rcases E.durable rfl hr with hs | ⟨herr, rfl⟩
    · cases hstep.symm.trans hs
      exact hdone he
    · refine hfail err herr (.inr fun hobey => ?_)
      obtain ⟨rfl, -⟩ :=
        answer_inj (hstep.symm.trans (hobey hr))
      exact herr rfl
  | false =>
    have hbalk : E.Balks s.disk z p := .inl he
    rw [he, if_neg Bool.false_ne_true] at hstep
    rcases E.durable rfl hr with hs | ⟨herr, rfl⟩
    · cases hstep.symm.trans hs
      exact hfail _ (by decide) hbalk
    · exact hfail err herr hbalk

/-- One replica more is removed, or there is an error. -/
theorem must_rmdirReplica {k : Int → Code β} {R : β → Sys → Prop} (hn : s.disk.Holds z p)
    (hp : p ∉ S) (hdone : s.disk.emptyDir z p = true → Must E.env (k 0) (s.drop z dz (p :: S)) R)
    (hfail : ∀ err, err ≠ 0 → E.Balks s.disk z p → Must E.env (k err) (s.drop z dz S) R) :
    Must E.env (rmdirReplica z p ⟨z, some .dir⟩ >>= k) (s.drop z dz S) R := by
  have hheld : (s.drop z dz S).disk.Holds z p := by
    obtain ⟨b, hb⟩ := hn
    exact ⟨b, (Disk.drop_of_not_mem hp).trans hb⟩
  rw [rmdirReplica, bind_bind]
  refine must_rmdir hheld (fun he => ?_) fun err herr hwhy => ?_
  · have hstore : Still (do
          onlyIf ((0 : Int) = 0) (storeReplica z p (some ⟨z, none⟩))
          return (0 : Int))
        ((s.drop z dz S).onDisk ((s.drop z dz S).disk.setNode z p none)) 0
        (s.drop z dz (p :: S)) := by
      simp [onlyIf, storeReplica, Sys.drop, Disk.drop, SfsDentry.drop]
    rw [must_still_bind hstore]
    exact hdone (Disk.drop_emptyDir.symm.trans he)
  · have hskip : Still (do
          onlyIf (err = 0) (storeReplica z p (some ⟨z, none⟩))
          return err) (s.drop z dz S) err (s.drop z dz S) := by
      simp [onlyIf, herr]
    rw [must_still_bind hskip]
    refine hfail err herr (hwhy.imp_left fun he => ?_)
    exact Disk.drop_emptyDir.symm.trans he

/-- The partitions before `m` are done but for `keep`: `S` are those that had a
    replica, which was empty. -/
structure Upto (s : Sys) (z : Path) (keep m : Nat) (S : List Nat) : Prop where
  mem_iff : ∀ p, p ∈ S ↔ p < m ∧ p ≠ keep ∧ s.disk.Holds z p
  empty : ∀ p ∈ S, s.disk.emptyDir z p = true

section Upto

variable {keep m : Nat}

theorem upto_zero : Upto s z keep 0 [] :=
  ⟨fun p => ⟨nofun, fun h => absurd h.1 (Nat.not_lt_zero p)⟩, nofun⟩

theorem Upto.not_mem (h : Upto s z keep m S) (hp : m ≤ p) : p ∉ S :=
  fun hS => absurd ((h.mem_iff p).mp hS).1 (not_lt.mpr hp)

theorem Upto.keep_not_mem (h : Upto s z keep m S) : keep ∉ S :=
  fun hS => ((h.mem_iff keep).mp hS).2.1 rfl

/-- A partition that is passed over. -/
theorem Upto.skip (h : Upto s z keep m S)
    (hm : m = keep ∨ ¬ s.disk.Holds z m) : Upto s z keep (m + 1) S where
  mem_iff p := by
    rw [h.mem_iff, Nat.lt_succ_iff_lt_or_eq]
    constructor
    · exact fun hp => ⟨.inl hp.1, hp.2⟩
    · rintro ⟨hp | rfl, hk, hn⟩
      · exact ⟨hp, hk, hn⟩
      · exact (hm.elim hk fun hno => hno hn).elim
  empty := h.empty

/-- One more is done. -/
theorem Upto.cons (h : Upto s z keep m S) (hm : m ≠ keep)
    (hn : s.disk.Holds z m) (he : s.disk.emptyDir z m = true) :
    Upto s z keep (m + 1) (m :: S) where
  mem_iff p := by
    rw [mem_cons, h.mem_iff, Nat.lt_succ_iff_lt_or_eq]
    constructor
    · rintro (rfl | hp)
      · exact ⟨.inr rfl, hm, hn⟩
      · exact ⟨.inl hp.1, hp.2⟩
    · rintro ⟨hp | rfl, hk, hn'⟩
      · exact .inr ⟨hp, hk, hn'⟩
      · exact .inl rfl
  empty p hp := by
    rcases mem_cons.mp hp with rfl | hp'
    · exact he
    · exact h.empty p hp'

end Upto

/-- The loop from `m` on: it stops at a replica that is not removed, or does all
    partitions but `keep`. -/
theorem must_rmdirOthers {keep n : Nat} {k : Int → Code Int} (hR : Reflects N s.disk z dz)
    (hdir : ∀ q i, s.disk.node z q ≠ some (.file i))
    (hstop : ∀ m S err, err ≠ 0 → Upto s z keep m S → m ≠ keep →
      s.disk.Holds z m → E.Balks s.disk z m → Q err (s.drop z dz S))
    {m : Nat} (hS : Upto s z keep m S)
    (hend : ∀ S err, Upto s z keep (m + n) S → Must E.env (k err) (s.drop z dz S) Q) (err : Int) :
    Must E.env (rmdirOthers z keep k (range' m n) err) (s.drop z dz S)
      Q := by
  induction n generalizing m S err with
  | zero => exact hend S err hS
  | succ n ih =>
    have hend' : ∀ S err, Upto s z keep (m + 1 + n) S → Must E.env (k err) (s.drop z dz S) Q :=
      fun S err hS' => hend S err (Nat.add_right_comm m 1 n ▸ hS')
    rw [range'_succ, rmdirOthers]
    by_cases hkeep : (m : Int) = keep
    · rw [if_pos hkeep]
      exact ih (hS.skip (.inl (Int.ofNat.inj hkeep))) hend' err
    · have hslot : (dz.drop z S).replicas m = dz.replicas m :=
        SfsDentry.drop_of_not_mem (hS.not_mem (le_refl m))
      rw [if_neg hkeep, must_still_bind (still_find drop_mem), hslot]
      cases hn : s.disk.node z m with
      | none =>
        have hskip : ¬ s.disk.Holds z m := by
          rintro ⟨b, hb⟩
          cases hn.symm.trans hb
        rcases bind_inode_none (hR.lacks hn) with hr | ⟨w, hr⟩
        · rw [hr]
          exact ih (hS.skip (.inr hskip)) hend' err
        · rw [hr]
          exact ih (hS.skip (.inr hskip)) hend' err
      | some o =>
        cases o with
        | file i => exact absurd hn (hdir m i)
        | dir b =>
          have hmk : m ≠ keep := fun h => hkeep (congrArg Int.ofNat h)
          rw [hR.dir hn]
          refine must_rmdirReplica ⟨b, hn⟩ (hS.not_mem (le_refl m))
            (fun he => ?_) fun err herr hwhy => ?_
          · rw [if_neg fun h => h rfl]
            exact ih (hS.cons hmk ⟨b, hn⟩ he) hend' 0
          · rw [if_pos herr]
            exact hstop m S err herr hS hmk ⟨b, hn⟩ hwhy

/-- What a rmdir of `z` comes to when `f` is to be done last; `dend` is the dentry at a good end.
    `stopped`: a replica is not removed.  `kept`: the last one is not.  `lost`: there is no last
    one, and all are gone. -/
inductive Rmdired (E : Surroundings) (N : Nat) (s : Sys) (z : Path)
    (dz : SfsDentry) (f : Nat) (dend : SfsDentry) : Int → Sys → Prop
  | done {S : List Nat} : s.disk.Holds z f → (∀ p, s.disk.Holds z p → p ∈ S) →
      (∀ p ∈ S, s.disk.emptyDir z p = true) →
      Rmdired E N s z dz f dend 0 (s.one z dend (s.disk.drop z S))
  | stopped {m : Nat} {S : List Nat} {err : Int} : err ≠ 0 → Upto s z f m S →
      m ≠ f → s.disk.Holds z m → E.Balks s.disk z m →
      Rmdired E N s z dz f dend err (s.drop z dz S)
  | kept {S : List Nat} {err : Int} : err ≠ 0 → Upto s z f N S →
      s.disk.Holds z f → E.Balks s.disk z f →
      Rmdired E N s z dz f dend err (s.drop z dz S)
  | lost {S : List Nat} : Upto s z f N S → ¬ s.disk.Holds z f →
      Rmdired E N s z dz f dend eio (s.drop z dz S)

/-- The last replica: the slot may be empty. -/
theorem must_rmdirLast (w : World N D s.disk) (hR : Reflects N s.disk z dz)
    (hD : D z) (hS : Upto s z f N S) :
    Must E.env (rmdirLast z f) (s.drop z dz S) (Rmdired E N s z dz f dz.clean) := by
  have hslot : (dz.drop z S).replicas f = dz.replicas f :=
    SfsDentry.drop_of_not_mem hS.keep_not_mem
  rw [rmdirLast, must_still_bind (still_find drop_mem), hslot]
  cases hn : s.disk.node z f with
  | none =>
    have hlost : Rmdired E N s z dz f dz.clean eio (s.drop z dz S) :=
      .lost hS fun ⟨b, hb⟩ => nomatch hn.symm.trans hb
    rcases bind_inode_none (hR.lacks hn) with hr | ⟨w, hr⟩
    · rw [hr]
      exact hlost
    · rw [hr]
      exact hlost
  | some o =>
    obtain ⟨b, rfl⟩ := w.dir_of hD hn
    rw [hR.dir hn]
    refine must_rmdirReplica ⟨b, hn⟩ hS.keep_not_mem (fun he => ?_) fun err herr hwhy => ?_
    · have hclean : Still (do
            cleanDentry z
            return (0 : Int)) (s.drop z dz (f :: S)) 0
          (s.one z dz.clean (s.disk.drop z (f :: S))) := by
        simp [cleanDentry, Sys.drop, SfsDentry.drop_clean]
      rw [if_neg fun h => h rfl, must_still hclean]
      refine .done ⟨b, hn⟩ (fun p hp => ?_) fun p hp => ?_
      · by_cases hpf : p = f
        · exact hpf ▸ .head _
        · obtain ⟨c, hc⟩ := id hp
          exact .tail _ ((hS.mem_iff p).mpr ⟨w.within hc, hpf, hp⟩)
      · rcases mem_cons.mp hp with rfl | hp'
        · exact he
        · exact hS.empty p hp'
    · rw [if_pos herr]
      exact .kept herr hS ⟨b, hn⟩ hwhy

end Follow

/-! ## In a sane state -/

section Sane

/-- A directory that has one in it has recorded a normal partition. -/
theorem Sane.first (h : Sane N D s) (hD : D (a :: Z)) (hZ : s.mem Z = some dZ) :
    0 < dZ.normalDirCount ∧ ∃ f, dZ.firstNormalDirId = some f
      ∧ s.disk.node Z f = some (.dir true) := by
  have hd := h.dirs (h.world.up hD) hZ
  obtain ⟨p, hp, -⟩ := h.world.shown hD
  have hcount : 0 < dZ.normalDirCount := by
    rw [hd.count, countP_pos_iff]
    exact ⟨p, mem_range.mpr (h.world.within hp), (hd.map p).mpr hp⟩
  exact ⟨hcount, hd.recorded (ne_of_gt hcount)⟩

theorem must_sfsRmdir (w : World N D s.disk) (hD : D (a :: Z)) (hz : s.mem (a :: Z) = some dz)
    (hR : Reflects N s.disk (a :: Z) dz) (hZ : s.mem Z = some dZ) (hcount : 0 < dZ.normalDirCount)
    (hf : dZ.firstNormalDirId = some f) (hfN : f < N) :
    Must E.dirEnv (sfsRmdir N (a :: Z)) s (Rmdired E N s (a :: Z) dz f dz.clean) := by
  have hrange : inRange N (f : Int) (rmdirLast (a :: Z)) = rmdirLast (a :: Z) f :=
    if_pos ⟨Int.natCast_nonneg f, Int.ofNat_lt.mpr hfN⟩
  have hloop : Must E.env (rmdirOthers (a :: Z) f (fun error =>
        if (f : Int) < 0 then do
          cleanDentry (a :: Z)
          return error
        else inRange N f (rmdirLast (a :: Z))) (range N) enoent)
      (s.drop (a :: Z) dz []) (Rmdired E N s (a :: Z) dz f dz.clean) := by
    rw [range_eq_range']
    refine must_rmdirOthers hR (w.no_file hD)
      (fun m S err herr hS hm hn hwhy => .stopped herr hS hm hn hwhy)
      upto_zero (fun S err hS => ?_) enoent
    rw [if_neg (Int.not_lt.mpr (Int.natCast_nonneg f)), hrange]
    exact must_rmdirLast w hR hD (Nat.zero_add N ▸ hS)
  have hnone : s.drop (a :: Z) dz [] = s := (eq_one hz).symm
  rw [hnone] at hloop
  refine must_bind.mpr (must_lift.mpr ((must_still (still_read hZ)).mpr ?_))
  rw [if_pos hcount]
  refine must_bind.mpr ⟨⟨f, s, ⟨dZ, hZ, fun g hg => ?_⟩, rfl⟩, ?_⟩
  · rw [mem_unique hf hg]
  · rintro v t ⟨⟨dZ', hZ', hv⟩, rfl⟩
    cases hZ.symm.trans hZ'
    cases hv f hf
    exact must_lift.mpr hloop

theorem Sane.shrink (h : Sane N D s) (z : Path) : Sane N D (s.shrink z) := by
  have hold : ∀ {y dy}, (s.shrink z).mem y = some dy → s.mem y = some dy := by
    intro y dy hy
    simp only [Sys.shrink] at hy
    split at hy
    · cases hy
    · exact hy
  refine ⟨h.world, h.plain, fun hD hy => h.dirs hD (hold hy),
    fun hD hy => h.leaves hD (hold hy), fun {b Y} hy => ?_⟩
  obtain ⟨dy, hdy⟩ := ne_none_iff_exists'.mp hy
  have hkept : ¬ (z <:+ Y ∧ Y ≠ z) := by
    rintro ⟨hsuf, -⟩
    have hgone : z <:+ b :: Y ∧ b :: Y ≠ z := by
      refine ⟨hsuf.trans (suffix_cons b Y), ?_⟩
      rintro rfl
      exact absurd hsuf.length_le (by simp)
    exact hy (if_pos hgone)
  show (if z <:+ Y ∧ Y ≠ z then none else s.mem Y) ≠ none
  rw [if_neg hkept]
  exact h.above (by rw [hold hdy]; exact some_ne_none _)

theorem shrink_mem (h : ¬ (z <:+ y ∧ y ≠ z)) : (s.shrink z).mem y = s.mem y :=
  if_neg h

/-- The call of the VFS. -/
theorem must_rmdirCall (h : Sane N D s) (hD : D (a :: Z)) (hz : s.mem (a :: Z) = some dz)
    (hZ : s.mem Z = some dZ) (hf : dZ.firstNormalDirId = some f) :
    Must E.dirEnv ((Op.rmdir (a :: Z)).code N) s (Rmdired E N (s.shrink (a :: Z)) (a :: Z) dz f
        { dz.clean with positive := false }) := by
  have hz' : (s.shrink (a :: Z)).mem (a :: Z) = some dz :=
    (shrink_mem fun h => h.2 rfl).trans hz
  have hZ' : (s.shrink (a :: Z)).mem Z = some dZ := by
    refine (shrink_mem ?_).trans hZ
    rintro ⟨hsuf, -⟩
    exact absurd hsuf.length_le (by simp)
  refine must_bind.mpr ⟨⟨(), _, rfl⟩, ?_⟩
  rintro _ _ rfl
  show Must E.dirEnv (sfsRmdir N (a :: Z) >>= _) (s.shrink (a :: Z)) _
  have hs := h.shrink (a :: Z)
  obtain ⟨hcount, f', hf', hnode⟩ := hs.first hD hZ'
  obtain rfl : f' = f := mem_unique hf' hf
  refine must_bind.mpr ((must_sfsRmdir hs.world hD hz' (hs.dirs hD hz').toReflects hZ'
    hcount hf (hs.world.within hnode)).mono ?_)
  intro err t hr
  cases hr with
  | @done S hf hall hempty =>
    rw [if_neg fun h => h rfl]
    refine must_bind.mpr (must_lift.mpr ?_)
    have hlast : Still (instantiate (a :: Z) false)
        ((s.shrink (a :: Z)).one (a :: Z) dz.clean (s.disk.drop (a :: Z) S)) ()
        ((s.shrink (a :: Z)).one (a :: Z) { dz.clean with positive := false }
          (s.disk.drop (a :: Z) S)) := by
      simp [instantiate]
    exact (must_still hlast).mpr (.done hf hall hempty)
  | stopped herr hS hm hn hwhy =>
    rw [if_pos herr]
    exact .stopped herr hS hm hn hwhy
  | kept herr hS hn hwhy =>
    rw [if_pos herr]
    exact .kept herr hS hn hwhy
  | lost hS hn => exact .lost hS hn

/-- The replicas that were removed had no entries. -/
theorem Sane.no_entries (h : Sane N D s) (hS : ∀ p ∈ S, s.disk.emptyDir z p = true) :
    ∀ p ∈ S, ∀ c, s.disk.node (c :: z) p = none :=
  fun p hp c => h.plain.no_entry (hS p hp) c

/-- A directory that has no replica left, after `clean_dentry` and `d_delete`. -/
theorem Sane.without (h : Sane N D s) (hN : 0 < N) (hD : D (a :: Z)) (hz : s.mem (a :: Z) = some dz)
    (hall : ∀ p, s.disk.Holds (a :: Z) p → p ∈ S)
    (hS : ∀ p ∈ S, s.disk.emptyDir (a :: Z) p = true) :
    Sane N (fun y => D y ∧ y ≠ a :: Z) (s.one (a :: Z) { dz.clean with positive := false }
        (s.disk.drop (a :: Z) S)) := by
  have hgone := h.world.drop_gone hD hall
  refine h.turn and_iff_left (h.up hz) (h.world.without nofun (h.no_entries hS) hall)
    (h.plain.drop (h.no_entries hS)) (fun hy _ => Disk.drop_of_ne hy)
    (fun hD' => absurd rfl hD'.2) fun _ => ?_
  exact ⟨fun _ => .inl rfl, fun _ => rfl, rfl, hN, rfl, nofun, nofun, fun _ => ⟨rfl, hgone⟩⟩

/-- A rmdir that has failed without a change. -/
theorem Upto.unchanged {keep m : Nat} (hS : Upto s z keep m S)
    (hz : s.mem z = some dz) (hsame : (s.drop z dz S).disk = s.disk) :
    s.drop z dz S = s := by
  have hnil : S = [] := by
    by_contra hne
    obtain ⟨p, hp⟩ := exists_mem_of_ne_nil S hne
    obtain ⟨-, -, b, hb⟩ := (hS.mem_iff p).mp hp
    have hgone : (s.drop z dz S).disk.node z p = none := by
      show (s.disk.drop z S).node z p = none
      rw [Disk.drop_node, if_pos ⟨rfl, hp⟩]
    rw [hsame, hb] at hgone
    cases hgone
  subst hnil
  exact (eq_one hz).symm

/-- A rmdir that has not failed half-way leads to a sane state. -/
theorem Rmdired.sane {err : Int}
    (hr : Rmdired E N s (a :: Z) dz f { dz.clean with positive := false } err t) (h : Sane N D s)
    (hN : 0 < N) (hD : D (a :: Z)) (hz : s.mem (a :: Z) = some dz)
    (hfair : err = 0 ∨ t.disk = s.disk) :
    Sane N D t ∨ Sane N (fun y => D y ∧ y ≠ a :: Z) t := by
  cases hr with
  | done _ hall hempty => exact .inr (h.without hN hD hz hall hempty)
  | stopped herr hS _ _ _ =>
    rw [hS.unchanged hz (hfair.resolve_left herr)]
    exact .inl h
  | kept herr hS _ _ =>
    rw [hS.unchanged hz (hfair.resolve_left herr)]
    exact .inl h
  | lost hS _ =>
    rw [hS.unchanged hz (hfair.resolve_left (by decide))]
    exact .inl h

/-! ## `sfs_unlink` -/

/-- `i_op->unlink` of a file is done, or there is an error. -/
theorem must_unlink {β : Type} {k : Int → Code β} {R : β → Sys → Prop} {i : Nat}
    (hn : s.disk.node z p = some (.file i))
    (hdone : Must E.env (k 0) (s.onDisk (s.disk.setNode z p none)) R)
    (hfail : ∀ err, err ≠ 0 → Must E.env (k err) s R) :
    Must E.env (unlink z p >>= k) s R := by
  have hstep : sysHandler (.unlink z p) s
      = some ((0 : Int), s.onDisk (s.disk.setNode z p none)) := by
    simp only [sysHandler, Disk.step, hn, map_some]
  refine ⟨E.answers s rfl, fun err u hr => ?_⟩
  rcases E.durable rfl hr with hs | ⟨herr, rfl⟩
  · cases hstep.symm.trans hs
    exact hdone
  · exact hfail err herr

/-- The file was there, and its name is gone. -/
theorem Sane.unlinked (h : Sane N D s) (hN : 0 < N) (hD : ¬ D z) {i : Nat}
    (hz : s.mem z = some dz) (hn : s.disk.node z p = some (.file i)) :
    Sane N D (s.one z { dz.clean with positive := false } (s.disk.setNode z p none)) := by
  have hentry : ∀ q ∈ [p], ∀ c, s.disk.node (c :: z) q = none :=
    fun q _ c => h.world.leaf hD
  have hgone : ∀ q, (s.disk.setNode z p none).node z q = none := by
    intro q
    rw [setNode_node]
    split
    · rfl
    · next hq => exact h.plain.alone hn q fun hqp => hq ⟨rfl, hqp⟩
  exact h.one (h.up hz) (h.world.clear hD) (h.plain.drop hentry)
    (fun hne _ => setNode_of_ne hne) (fun hD' => absurd hD' hD)
    fun _ => ⟨fun _ => .inl rfl, fun _ => rfl, rfl, hN, rfl, nofun, nofun, fun _ => ⟨rfl, hgone⟩⟩

/-- The file in the slot is removed, or there is an error. -/
theorem must_unlinkSlot {i : Nat} {Q : Int → Sys → Prop} (hz : s.mem z = some dz)
    (hslot : dz.replicas p = some ⟨z, some (.file i)⟩) (hn : s.disk.node z p = some (.file i))
    (hdone : Q 0 (s.one z (dz.setReplica p (some ⟨z, none⟩)) (s.disk.setNode z p none)))
    (hfail : ∀ err, err ≠ 0 → Q err s) :
    Must E.env (unlinkSlot z p) s Q := by
  have hfind : Still (findReplicaDentry z p) s (some ⟨z, some (.file i)⟩) s := hslot ▸ still_find hz
  refine (must_still_bind hfind).mpr ?_
  show Must E.env (findReplicaDentry z p >>= _) s Q
  refine (must_still_bind hfind).mpr ?_
  refine must_unlink hn ?_ fun err herr => ?_
  · have hstore : Still (do
          onlyIf ((0 : Int) = 0) (storeReplica z p (some ⟨z, none⟩))
          return (0 : Int)) (s.onDisk (s.disk.setNode z p none)) 0
        (s.one z (dz.setReplica p (some ⟨z, none⟩)) (s.disk.setNode z p none)) := by
      simp [onlyIf, storeReplica, hz, setD_eq_one]
    exact (must_still hstore).mpr hdone
  · have hskip : Still (do
          onlyIf (err = 0) (storeReplica z p (some ⟨z, none⟩))
          return err) s err s := by
      simp [onlyIf, herr]
    exact (must_still hskip).mpr (hfail err herr)

/-- A file that is cached is found as it was. -/
theorem Leaf.still_validateFile {i : Nat} (hl : Leaf N s.disk z dz)
    (hz : s.mem z = some dz) (hid : dz.replicaId = some p)
    (hn : s.disk.node z p = some (.file i)) (ha : s.disk.attr p i = none) :
    Still (validateFile z) s 0 s := by
  have hpart : Still (validatePartitionedFile z p) s 0 s := by
    have hv := still_validatePlain (x := z) (s := s) (d := s.disk) (by rw [hl.slot hid hn]; rfl) ha
    rw [← hid, ← eq_one hz] at hv
    exact hv
  refine (still_read hz).bind ?_
  rw [hl.metaId, hid]
  exact hpart

/-- `sfs_unlink` of a file: it is removed, or there is an error. -/
theorem must_sfsUnlink {i : Nat} {Q : Int → Sys → Prop} (hl : Leaf N s.disk z dz)
    (hz : s.mem z = some dz) (hid : dz.replicaId = some p) (hn : s.disk.node z p = some (.file i))
    (ha : s.disk.attr p i = none) (hdone : Q 0 (s.one z dz.clean (s.disk.setNode z p none)))
    (hfail : ∀ err, err ≠ 0 → Q err s) : Must E.env (sfsUnlink z) s Q := by
  refine (must_still_bind (hl.still_validateFile hz hid hn ha)).mpr ?_
  rw [if_neg fun h => h rfl]
  refine (must_still_bind (still_read hz)).mpr ?_
  rw [hid, hl.metaId]
  show Must E.env (unlinkSlot z p >>= _) s Q
  refine must_bind.mpr (must_unlinkSlot hz (hl.slot hid hn) hn ?_ fun err herr => ?_)
  · have hclean : Still (do
          cleanDentry z
          return (0 : Int))
        (s.one z (dz.setReplica p (some ⟨z, none⟩)) (s.disk.setNode z p none)) 0
        (s.one z dz.clean (s.disk.setNode z p none)) := by
      simp [cleanDentry]
    rw [if_neg fun h => h rfl]
    exact (must_still hclean).mpr hdone
  · rw [if_pos herr]
    exact hfail err herr

/-- The call of the VFS. -/
theorem must_unlinkCall (h : Sane N D s) (hN : 0 < N) (hz : s.mem z = some dz) (hfile : dz.OfFile) :
    Must E.env (checked (sfsUnlink z) do
        instantiate z false
        return 0) s (fun _ t => Sane N D t) := by
  have hD : ¬ D z := fun hD => hfile.2 ((h.dir_iff hz).mpr hD).2
  have hl := h.leaves hD hz
  obtain ⟨p, i, hid, hn⟩ := hl.file hfile.1
  refine must_bind.mpr (must_sfsUnlink hl hz hid hn (h.plain.attr hn) ?_ fun err herr => ?_)
  · have hlast : Still (do
          instantiate z false
          return (0 : Int)) (s.one z dz.clean (s.disk.setNode z p none)) 0
        (s.one z { dz.clean with positive := false } (s.disk.setNode z p none)) := by
      simp [instantiate]
    rw [if_neg fun h => h rfl]
    exact (must_still hlast).mpr (h.unlinked hN hD hz hn)
  · rw [if_pos herr]
    exact h

end Sane

end Sfs
