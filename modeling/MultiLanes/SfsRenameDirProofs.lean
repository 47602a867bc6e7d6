import MultiLanes.SfsMapProofs

/-! # SFS — rename of a directory

A rename of a directory is to move it in every partition that has it. `sfs_rename_dir`
renames the replicas one by one and does not look at what `i_op->rename` returns; then
it adds an entry for the new name.

`RenameWhole` is what the call is to do when the partitions do what is legal, and when
renames fail.  There is no state in which it does: if all renames are refused, the loop
makes replicas of the new parent and nothing else (`Idle`), and the call returns 0 with
an empty directory under the new name. -/

namespace SfsRenameDir

open InteractProg Sfs List Option

variable {N : Nat} {D : Path → Prop} {s t : Sys} {x y X Z : Path} {a p : Nat}

/-! ## The property -/

/-- Renames may be refused, and every other operation that is legal succeeds. -/
def balky : Surroundings where
  env q s r t := sysHandler q s = some (r, t)
    ∨ (∃ x y p, q = .rename x y p) ∧ q.Refused r ∧ t = s
  quiet hq := by
    refine or_iff_left ?_
    rintro ⟨⟨x, y, p, rfl⟩, -⟩
    cases hq
  durable _ h := h.imp_right And.right
  answers s hq := by
    obtain ⟨r, t, h⟩ := sysHandler_durable s hq
    exact ⟨r, t, Or.inl h⟩

/-- `y` is seen, with what was in `x`, and `x` is not. -/
def Renamed (N : Nat) (x y : Path) (d d' : Disk) : Prop :=
  SfsAtomic.look N d' y = some .dir ∧ SfsAtomic.look N d' x = some .nothing
    ∧ ∀ w c p, d'.node (w ++ c :: y) p = d.node (w ++ c :: x) p

/-- When all that is legal succeeds, the call returns 0 and the directory has moved; and
    when it returns 0 although renames have failed, no partition has the old name. -/
def RenameWhole (N : Nat) (s : Sys) (x y : Path) : Prop :=
  Must mild.dirEnv (sfsRenameDir N x y) s
      (fun err t => err = 0 ∧ Renamed N x y s.disk t.disk)
    ∧ Sure balky.dirEnv (sfsRenameDir N x y) s
      (fun err t => err = 0 → ∀ p, ¬ t.disk.Holds x p)

/-- A name that no partition has. -/
def Free (s : Sys) (y : Path) : Prop :=
  s.Has y fun d => Sound s.disk y d ∧ ∀ p, s.disk.node y p = none

/-- The dentries are honest, and what the parent of `y` has recorded is the number
    of a partition. -/
def Indexed (N : Nat) (y : Path) (s : Sys) : Prop :=
  AllHonest N s ∧ s.Has y.tail fun d => ∀ f, d.firstNormalDirId = some f → f < N

/-- A consistent state in which the VFS may rename the directory `x` to `y`: the
    new name is free, or that of an empty directory. -/
structure Renamable (N : Nat) (D : Path → Prop) (s : Sys) (x y : Path) : Prop where
  world : World N D s.disk
  index : Indexed N y s
  apart : ¬ x <:+ y ∧ ¬ y <:+ x
  old : D x
  parent : D y.tail
  road : PathSeen N s x
  way : PathSeen N s y.tail
  target : (Free s y ∧ s.Has y (·.positive = false))
    ∨ (D y ∧ DirSeen N s y ∧ ∀ c p, s.disk.node (c :: y) p = none)

/-! ## Runs -/

section Runs

variable {α : Type} {r : α}

theorem balky_of_run {c : Code α} (h : run sysHandler c s = some (r, t)) :
    Outcome balky.env c s r t :=
  (outcome_env.mpr h).widen fun _ _ _ _ => .inl

theorem balky_of_mild {c : DirCode α} (h : Outcome mild.dirEnv c s r t) :
    Outcome balky.dirEnv c s r t := by
  refine h.widen fun q _ _ _ hq => ?_
  cases q with
  | sfs q => exact .inl hq
  | _ => exact hq

theorem outcome_lift {E : Surroundings} {c : Code α} (h : Outcome E.env c s r t) :
    Outcome E.dirEnv (lift c) s r t := by
  induction c generalizing s with
  | ret b => exact h
  | ask q k ih =>
    obtain ⟨b, u, hq, hk⟩ := h
    exact ⟨b, u, hq, ih b hk⟩

/-- A part that asks for no change of the disks. -/
theorem balky_still {β : Type} {c : Code α} {f : α → Code β} {u : Sys} {b : β}
    (hc : Still c s r t) (hf : Outcome balky.env (f r) t b u) :
    Outcome balky.env (c >>= f) s b u :=
  outcome_bind.mpr ⟨r, t, balky_of_run (still_run hc), hf⟩

theorem dirEnv_of_balky {c : DirCode α} (h : Outcome balky.dirEnv c s r t) :
    Outcome dirEnv c s r t := by
  refine h.widen fun q _ _ _ hq => ?_
  cases q with
  | sfs q =>
    rcases hq with hq | ⟨⟨x, y, p, rfl⟩, hr⟩
    · exact .inl hq
    · exact .inr hr
  | _ => exact hq

end Runs

/-! ## The loop, with all renames refused -/

/-- A state of the loop: `x` is where it was, and `y` is free. -/
structure Idle (N : Nat) (D : Path → Prop) (x y : Path) (s : Sys) : Prop where
  world : World N D s.disk
  old : D x
  parent : D y.tail
  off : ¬ D y
  road : PathSeen N s x
  way : PathSeen N s y.tail
  free : Free s y

section Idle

theorem reflects_forget {d : Disk} {dz : SfsDentry} (h : Reflects N d Z dz)
    (hn : d.node Z p = none) : Reflects N d Z (dz.setReplica p none) := by
  refine ⟨h.positive, fun q => ?_, fun {q o} ho => ?_, h.map, h.count, h.counter⟩
  · by_cases hq : q = p
    · exact .inl (by rw [hq, setReplica_self])
    · rw [setReplica_of_ne hq]
      exact h.sound q
  · have hq : q ≠ p := by
      rintro rfl
      cases hn.symm.trans ho
    rw [setReplica_of_ne hq]
    exact h.full ho

/-- Only `y` is changed. -/
theorem seen_aside {dy : SfsDentry} {d : Disk} (h : PathSeen N s Z) (hy : ¬ y <:+ Z)
    (hd : ∀ {X p}, X ≠ y → d.node X p = s.disk.node X p) : PathSeen N (s.one y dy d) Z := by
  intro X hX
  have hne : X ≠ y := fun hXy => hy (hXy ▸ hX)
  obtain ⟨dz, hz, hR⟩ := h hX
  exact ⟨dz, (one_mem_of_ne hne).trans hz, hR.congr fun _ => hd hne⟩

/-- A replica of the new parent is made. -/
theorem Idle.grow {b : Bool} (h : Idle N D x y s) (hk : Kept N D s t)
    (hg : Grown D y.tail p b s.disk t.disk) : Idle N D x y t := by
  obtain ⟨dy, hy, hs, hn⟩ := h.free
  have hn' : ∀ q, t.disk.node y q = s.disk.node y q := fun q => hg.file h.off
  exact ⟨hk.world, h.old, h.parent, h.off, fun hZ => hk.seen (h.road hZ),
    fun hZ => hk.seen (h.way hZ), dy, (hk.files h.off).trans hy, hs.congr hn',
    fun q => (hn' q).trans (hn q)⟩

/-- The slot of `x` is cleared where there is no replica. -/
theorem Idle.clear {dx : SfsDentry} (h : Idle N D x y s)
    (hR : Reflects N s.disk x dx) : Idle N D x y (s.setD x dx) := by
  obtain ⟨dy, hy, hfree⟩ := h.free
  have hne : y ≠ x := fun hyx => h.off (hyx ▸ h.old)
  exact ⟨h.world, h.old, h.parent, h.off, PathSeen.setDir h.road hR,
    PathSeen.setDir h.way hR, dy, (one_mem_of_ne hne).trans hy, hfree⟩

/-- The slot of `y` is looked up. -/
theorem Idle.fill {dy : SfsDentry} (h : Idle N D x y s) (hs : Sound s.disk y dy) :
    Idle N D x y (s.setD y (dy.fill s.disk y p)) := by
  obtain ⟨-, -, -, hn⟩ := h.free
  have hseen : ∀ {Y}, D Y → PathSeen N s Y → PathSeen N (s.setD y (dy.fill s.disk y p)) Y :=
    fun hY hpath => seen_aside hpath (fun hy => h.off (h.world.of_suffix hy hY)) fun _ => rfl
  exact ⟨h.world, h.old, h.parent, h.off, hseen h.old h.road,
    hseen h.parent h.way, _, one_mem, hs.fill p, hn⟩

/-- `i_op->rename` is refused. -/
theorem refused_renameReplica {dx dy : SfsDentry} {r : Replica} {i : Inode}
    {X₀ : Path} (hx : s.mem x = some dx) (hrx : dx.replicas p = some ⟨x, some i⟩)
    (hy : s.mem y = some dy) (hry : dy.replicas p = some r) :
    Outcome balky.env (renameReplica (some ⟨X₀, some .dir⟩) x y p) s eio s := by
  have herr : eio ≠ 0 := by decide
  refine balky_still .ret (balky_still (still_find hx) ?_)
  rw [hrx]
  refine balky_still .ret (balky_still (still_find hy) ?_)
  rw [hry]
  refine balky_still .ret (outcome_bind.mpr ⟨eio, s, ?_, ?_⟩)
  · exact ⟨eio, s, .inr ⟨⟨_, _, _, rfl⟩, herr, rfl⟩, rfl, rfl⟩
  · rw [onlyIf_neg herr]
    exact ⟨rfl, rfl⟩

/-- Nothing is moved, and the loop goes to its end. -/
theorem idle_renameReplicas {ps : List Nat} (hps : ∀ p ∈ ps, p < N) (h : Idle N D (a :: X) y s) :
    ∃ t, Outcome balky.env (renameReplicas (a :: X) y ps) s 0 t
      ∧ Idle N D (a :: X) y t ∧ ∀ p, s.disk.Holds (a :: X) p → t.disk.Holds (a :: X) p := by
  induction ps generalizing s with
  | nil => exact ⟨s, ⟨rfl, rfl⟩, h, fun _ => id⟩
  | cons p ps ih =>
    have ih' := fun {u} => ih (s := u) fun q hq => hps q (.tail _ hq)
    obtain ⟨dx, hx, hR⟩ := h.road suffix_rfl
    cases hn : s.disk.node (a :: X) p with
    | none =>
      obtain ⟨t, hout, ht, hh⟩ := ih' (h.clear (reflects_forget hR hn))
      refine ⟨t, balky_still (still_find hx) ?_, ht, hh⟩
      have hstore : Still (storeReplica (a :: X) p none) s ()
          (s.setD (a :: X) (dx.setReplica p none)) := by
        simp [storeReplica, hx]
      rcases bind_inode_none (hR.lacks hn) with hr | ⟨w, hr⟩ <;> rw [hr] <;>
        exact balky_still hstore hout
    | some o =>
      obtain ⟨b, rfl⟩ := h.world.dir_of h.old hn
      obtain ⟨c, hc⟩ := h.world.held hn
      obtain ⟨dX, hX, hRX⟩ := h.road (suffix_cons a X)
      obtain ⟨u, ds, hmade, hk, hg, -⟩ :=
        made_createReplicaDir h.world h.way (hps p (.head _)) h.parent false
      have hu := h.grow hk hg
      obtain ⟨dy, hy, hs, -⟩ := hu.free
      have hv := hu.fill (p := p) hs
      obtain ⟨dx', hx', hR'⟩ := hv.road suffix_rfl
      obtain ⟨b', hb'⟩ := hg.holds ⟨b, hn⟩
      obtain ⟨t, hout, ht, hh⟩ := ih' hv
      refine ⟨t, balky_still (still_find hx) ?_, ht, fun q hq => hh q (hg.holds hq)⟩
      rw [hR.dir hn]
      refine balky_still (still_find hX) ?_
      rw [hRX.dir hc]
      refine balky_still .ret (outcome_bind.mpr ⟨_, u, balky_of_run hmade.run, ?_⟩)
      refine balky_still (still_getReplicaDentry hy hs fun _ => ⟨.dir, rfl⟩) ?_
      exact outcome_bind.mpr ⟨eio, _,
        refused_renameReplica hx' (hR'.dir hb') one_mem setReplica_self, hout⟩

/-- The last entry is made. -/
theorem idle_simpleAddDirEntry (h : Idle N D x y s) (hp : p < N) :
    ∃ t, Outcome balky.env (simpleAddDirEntry y p) s 0 t
      ∧ ∀ q, s.disk.Holds x q → t.disk.Holds x q := by
  obtain ⟨u, ds, hmade, hk, hg, -⟩ := made_createReplicaDir h.world h.way hp h.parent true
  have hu := h.grow hk hg
  obtain ⟨dy, hy, hs, hn⟩ := hu.free
  have hne : x ≠ y := dir_ne h.old h.off
  have hstep : sysHandler (.mkdir y p) (u.setD y (dy.fill u.disk y p)) = some ((0 : Int),
      (u.setD y (dy.fill u.disk y p)).onDisk (u.disk.addDir y p)) := by
    simp only [sysHandler, Disk.step, Sys.setD, hn, map_some]
  have hstore : Still (do
        onlyIf ((0 : Int) = 0) (storeReplica y p (some ⟨y, some .dir⟩))
        return (0 : Int)) (u.one y (dy.fill u.disk y p) (u.disk.addDir y p)) 0
      (u.one y ((dy.fill u.disk y p).setReplica p (some ⟨y, some .dir⟩)) (u.disk.addDir y p)) := by
    simp [storeReplica, onlyIf]
  obtain ⟨t, hmake, hd⟩ : ∃ t, Outcome balky.env (do
        let _ ← getReplicaDentry (some ⟨y.tail, some .dir⟩) y p
        let err ← mkdir y p
        onlyIf (err = 0) (storeReplica y p (some ⟨y, some .dir⟩))
        return err) u 0 t ∧ t.disk = u.disk.addDir y p :=
    ⟨_, balky_still (still_getReplicaDentry hy hs fun _ => ⟨.dir, rfl⟩)
      (outcome_bind.mpr ⟨0, _, ⟨_, _, .inl hstep, rfl, rfl⟩, balky_of_run (still_run hstore)⟩), rfl⟩
  refine ⟨t, outcome_bind.mpr ⟨_, u, balky_of_run hmade.run,
    balky_still .ret (balky_still (still_find hy) ?_)⟩, fun q hq => ?_⟩
  · rcases hs p with hr | hr
    · rw [hr]
      exact hmake
    · rw [hr, Disk.slot, hn p]
      exact hmake
  · obtain ⟨b, hb⟩ := hg.holds hq
    exact ⟨b, hd ▸ (setNode_of_ne hne).trans hb⟩

theorem idle_addNewEntry (h : Idle N D x y s) (hN : 0 < N) (hi : Indexed N y s) :
    ∃ t, Outcome balky.dirEnv (addNewEntry N y) s 0 t
      ∧ ∀ q, s.disk.Holds x q → t.disk.Holds x q := by
  obtain ⟨-, dY, hY, hf⟩ := hi
  obtain ⟨f, hfN, hval⟩ : ∃ f < N, ∀ g, dY.firstNormalDirId = some g → (f : Int) = g := by
    cases hg : dY.firstNormalDirId with
    | none => exact ⟨0, hN, fun g hg => absurd hg.symm (some_ne_none g)⟩
    | some g => exact ⟨g, hf g hg, fun g' hg' => by rw [Option.some.inj hg']⟩
  obtain ⟨t, hout, hh⟩ := idle_simpleAddDirEntry h hfN
  have hrange : inRange N (f : Int) (simpleAddDirEntry y) = simpleAddDirEntry y f :=
    if_pos ⟨Int.natCast_nonneg f, Int.ofNat_lt.mpr hfN⟩
  have hne : (f : Int) ≠ -1 := by omega
  refine ⟨t, outcome_bind.mpr ⟨f, s, ⟨f, s, ⟨⟨dY, hY, hval⟩, rfl⟩, rfl, rfl⟩, ?_⟩, hh⟩
  rw [if_neg hne]
  refine outcome_bind.mpr ⟨f, s, ⟨rfl, rfl⟩, ?_⟩
  show Outcome balky.dirEnv (lift (inRange N (f : Int) (simpleAddDirEntry y))) s 0 t
  rw [hrange]
  exact outcome_lift hout

end Idle

/-! ## The call -/

section Call

variable {c : DirCode Int} {err : Int} {dy : SfsDentry} {f : Nat}

theorem Indexed.outcome (h : Indexed N y s)
    (hc : Asks (S := DirSig) (SparesDir N y.tail) (ToldDir N) any c)
    (ho : Outcome balky.dirEnv c s err t) : Indexed N y t :=
  (Asks.sure (E := dirEnv) (J := Indexed N y)
    (AllHonest.spared fun hsame hd f hf => hd f (hsame.2.2 ▸ hf)) hc h err t
    (dirEnv_of_balky ho)).2

theorem outcome_checkedDir {E : Surroundings} {k : DirCode Int} {u : Sys}
    (hc : Outcome E.dirEnv c s 0 t) (hk : Outcome E.dirEnv k t err u) :
    Outcome E.dirEnv (checkedDir c k) s err u :=
  outcome_bind.mpr ⟨0, t, hc, hk⟩

/-- The empty directory `y` was removed. -/
theorem idle_of_rmdired (h : Renamable N D s x y) (hD : D y) (hy : y ≠ [])
    (hempty : ∀ c p, s.disk.node (c :: y) p = none)
    (hr : Rmdired mild N s y dy f dy.clean err t) (h0 : err = 0) :
    Idle N (fun z => D z ∧ z ≠ y) x y t ∧ ∀ p, s.disk.Holds x p → t.disk.Holds x p := by
  cases hr with
  | stopped herr => exact absurd h0 herr
  | kept herr => exact absurd h0 herr
  | lost => exact absurd h0 (by decide)
  | @done S _ hall _ =>
    have hxy : x ≠ y := fun hxy => h.apart.1 (hxy ▸ suffix_rfl)
    have htail : ¬ y <:+ y.tail := fun hs =>
      tail_ne_self hy (hs.eq_of_length_le (tail_suffix y).length_le)
    refine ⟨⟨h.world.without hy (fun p _ c => hempty c p) hall, ⟨h.old, hxy⟩,
      ⟨h.parent, (tail_ne_self hy).symm⟩, fun hyy => hyy.2 rfl,
      seen_aside h.road h.apart.2 Disk.drop_of_ne, seen_aside h.way htail Disk.drop_of_ne,
      _, one_mem, fun _ => .inl rfl, h.world.drop_gone hD hall⟩, ?_⟩
    rintro p ⟨b, hb⟩
    exact ⟨b, (Disk.drop_of_ne hxy).trans hb⟩

/-- The first part of the call returns 0: the new name is free, and the old one is as it was. -/
def Cleared (N : Nat) (s : Sys) (x y : Path) : Prop :=
  ∃ d D' t, s.mem y = some d
    ∧ Outcome balky.dirEnv (if d.positive then sfsRmdir N y else pure 0) s 0 t
    ∧ Idle N D' x y t ∧ ∀ p, s.disk.Holds x p → t.disk.Holds x p

/-- There is nothing to be removed. -/
theorem cleared_of_free (h : Renamable N D s x y) (hfree : Free s y)
    (hneg : s.Has y (·.positive = false)) : Cleared N s x y := by
  have hne : y ≠ [] := fun hy => h.apart.2 (hy ▸ nil_suffix)
  obtain ⟨c, Y, rfl⟩ := exists_cons_of_ne_nil hne
  obtain ⟨dy, hy, hs, hn⟩ := hfree
  obtain ⟨d, hd, hpos⟩ := hneg
  cases hy.symm.trans hd
  have hoff : ¬ D (c :: Y) := by
    intro hD
    obtain ⟨p, -, o, ho⟩ := h.world.shown hD
    cases (hn p).symm.trans ho
  refine ⟨dy, D, s, hy, ?_, ⟨h.world, h.old, h.parent, hoff, h.road, h.way,
    dy, hy, hs, hn⟩, fun _ => id⟩
  rw [hpos]
  exact ⟨rfl, rfl⟩

/-- The empty directory is removed, if that can be done at all. -/
theorem cleared_of_must (h : Renamable N D s x y)
    (hmust : Must mild.dirEnv (sfsRenameDir N x y) s (fun err _ => err = 0)) :
    Cleared N s x y := by
  have hne : y ≠ [] := fun hy => h.apart.2 (hy ▸ nil_suffix)
  rcases h.target with ⟨hfree, hneg⟩ | ⟨hD, ⟨dy, hy, hR⟩, hempty⟩
  · exact cleared_of_free h hfree hneg
  · obtain ⟨c, Y, rfl⟩ := exists_cons_of_ne_nil hne
    obtain ⟨hh, dY, hY, hlt⟩ := h.index
    obtain ⟨dY', hY', hRY⟩ := h.way suffix_rfl
    cases hY.symm.trans hY'
    obtain ⟨p, hp, -⟩ := h.world.shown hD
    have hcount : 0 < dY.normalDirCount := by
      rw [hRY.count, countP_pos_iff]
      exact ⟨p, mem_range.mpr (h.world.within hp), (hRY.map p).mpr hp⟩
    obtain ⟨f, hf, -⟩ := (hh _ dY hY).first (ne_of_gt hcount)
    obtain ⟨err, t, hout, hr⟩ :=
      (must_sfsRmdir (E := mild) h.world hD hy hR hY hcount hf (hlt f hf)).outcome
    -- an error is that of the whole call
    have h0 : err = 0 := by
      by_contra herr
      refine herr (hmust.sure err t (outcome_bind.mpr ⟨dy, s,
        outcome_lift (outcome_env.mpr (still_run (still_read hy))),
        outcome_bind.mpr ⟨err, t, ?_, ?_⟩⟩))
      · rw [hR.positive]
        exact hout
      · rw [if_pos herr]
        exact ⟨rfl, rfl⟩
    obtain ⟨hidle, hh⟩ := idle_of_rmdired h hD hne hempty hr h0
    refine ⟨dy, _, t, hy, ?_, hidle, hh⟩
    rw [hR.positive, ← h0]
    exact balky_of_mild hout

/-- All renames are refused: the loop goes on, and the call returns 0. -/
theorem unmoved_of_cleared (h : Renamable N D s x y) (hc : Cleared N s x y) :
    ∃ t, Outcome balky.dirEnv (sfsRenameDir N x y) s 0 t
      ∧ (∃ p, s.disk.Holds x p) ∧ ∀ p, s.disk.Holds x p → t.disk.Holds x p := by
  have hx : x ≠ [] := fun hx => h.apart.1 (hx ▸ nil_suffix)
  have hy : y ≠ [] := fun hy => h.apart.2 (hy ▸ nil_suffix)
  obtain ⟨a, X, rfl⟩ := exists_cons_of_ne_nil hx
  obtain ⟨p, hp, o, ho⟩ := h.world.shown h.old
  obtain ⟨b, rfl⟩ := h.world.dir_of h.old ho
  have hN : 0 < N := Nat.lt_of_le_of_lt (Nat.zero_le p) (h.world.within hp)
  obtain ⟨d, D', u, hd, hrm, hu, hhu⟩ := hc
  obtain ⟨v, hloop, hv, hhv⟩ := idle_renameReplicas (fun _ => mem_range.mp) hu
  have hremove : Asks (S := DirSig) (SparesDir N y.tail) (ToldDir N) any
      (if d.positive = true then sfsRmdir N y else pure 0) := by
    split
    · exact spared_sfsRmdir hy
    · trivial
  have hi := (h.index.outcome hremove hrm).outcome
    (spared_renameReplicas h.apart.1) (outcome_lift hloop)
  obtain ⟨t, hadd, hht⟩ := idle_addNewEntry hv hN hi
  refine ⟨t, outcome_bind.mpr ⟨d, s, outcome_lift (balky_of_run (still_run (still_read hd))), ?_⟩,
    ⟨p, b, ho⟩, fun q hq => hht q (hhv q (hhu q hq))⟩
  exact outcome_checkedDir hrm (outcome_checkedDir (outcome_lift hloop) hadd)

/-- In every consistent state and for all names: a rename of a directory is not
    all or nothing. -/
theorem renameDir_not_whole (h : Renamable N D s x y) : ¬ RenameWhole N s x y := by
  rintro ⟨hmust, hsure⟩
  obtain ⟨t, hout, ⟨p, hp⟩, hkeep⟩ :=
    unmoved_of_cleared h (cleared_of_must h (hmust.mono fun _ _ => And.left))
  exact hsure 0 t hout rfl p (hkeep p hp)

/-- In every consistent state, for a directory and a free name: the partitions refuse the
    renames and do all else, the call returns 0, and all replicas still have the old name. -/
theorem refused_rename_unnoticed (h : Renamable N D s x y) (hy : s.Has y (·.positive = false)) :
    ∃ t, Outcome balky.dirEnv (sfsRenameDir N x y) s 0 t
      ∧ (∃ p, s.disk.Holds x p) ∧ ∀ p, s.disk.Holds x p → t.disk.Holds x p := by
  refine unmoved_of_cleared h ?_
  rcases h.target with ⟨hfree, -⟩ | ⟨-, ⟨dy, hdy, hR⟩, -⟩
  · exact cleared_of_free h hfree hy
  · obtain ⟨d, hd, hneg⟩ := hy
    cases hdy.symm.trans hd
    cases hneg.symm.trans hR.positive

end Call

/-! ## Concrete runs -/

section Concrete

/-- A directory that is cached is so with those above it. -/
theorem path_of_sane (h : Sane N D s) (hD : D x) (hx : s.mem x ≠ none) : PathSeen N s x := by
  induction x with
  | nil =>
    intro Z hZ
    obtain ⟨d, hd⟩ := ne_none_iff_exists'.mp hx
    rw [suffix_nil.mp hZ]
    exact ⟨d, hd, (h.dirs hD hd).toReflects⟩
  | cons c X ih =>
    intro Z hZ
    rcases suffix_cons_iff.mp hZ with rfl | hZ'
    · obtain ⟨d, hd⟩ := ne_none_iff_exists'.mp hx
      exact ⟨d, hd, (h.dirs hD hd).toReflects⟩
    · exact ih (h.world.up hD) (h.above hx) hZ'

/-- Sane states are consistent. -/
theorem renamable_of_sane (h : Sane N D s) (hi : Indexed N y s) (hr : (Op.renameDir x y).Ready s)
    (hy : s.Has y (·.positive = false) ∨ ∀ c p, s.disk.node (c :: y) p = none) :
    Renamable N D s x y := by
  obtain ⟨hap, -, ⟨-, dY, hY, hdY⟩, ⟨dx, hx, hdx⟩, dy, hmem, hdy⟩ := hr
  have hD : ∀ {z d}, s.mem z = some d → d.OfDir → D z ∧ PathSeen N s z := fun hz hd =>
    ⟨(h.dir_iff hz).mp hd, path_of_sane h ((h.dir_iff hz).mp hd) (hz ▸ some_ne_none _)⟩
  refine ⟨h.world, hi, hap, (hD hx hdx).1, (hD hY hdY).1, (hD hx hdx).2, (hD hY hdY).2, ?_⟩
  cases hpos : dy.positive with
  | false =>
    have hl := h.leaves (h.not_dir hmem hpos) hmem
    exact .inl ⟨⟨dy, hmem, hl.sound, (hl.absent hpos).2⟩, dy, hmem, hpos⟩
  | true =>
    have hdir : dy.OfDir := ⟨hpos, by_contra fun hid => hdy ⟨hpos, hid⟩⟩
    refine .inr ⟨(hD hmem hdir).1, (hD hmem hdir).2 suffix_rfl, hy.resolve_left ?_⟩
    rintro ⟨d, hd, hneg⟩
    cases hmem.symm.trans hd
    cases hneg.symm.trans hpos

/-- A directory with replicas in three partitions, and a name that is free. -/
def spread : Sys := SfsAtomic.grown.after 3 noneLost (.lookup [1])

theorem spread_reached : SfsMap.Reached (SfsMap.Steady 3) 3 spread :=
  .of_reach ((SfsAtomic.started_reach.afterAll (by decide) (by simp [SfsAtomic.Plants])
    (by simp [SfsMap.Steady])).after trivial (by decide) fun _ _ _ => trivial)

theorem spread_renamable : ∃ D, Renamable 3 D spread [0] [1] := by
  obtain ⟨D, hD⟩ := spread_reached.sane (by decide)
  have hfirst : (spread.mem []).bind SfsDentry.firstNormalDirId = some 0 := by decide
  obtain ⟨d, hd, hf⟩ := bind_eq_some_iff.mp hfirst
  have hi : Indexed 3 [1] spread := by
    refine ⟨spread_reached.reach.honest (by decide), d, hd, fun f hf' => ?_⟩
    rw [← mem_unique hf hf']
    decide
  exact ⟨D, renamable_of_sane hD hi (by decide) (.inl (by decide))⟩

theorem spread_not_whole : ∃ D, Renamable 3 D spread [0] [1] ∧ ¬ RenameWhole 3 spread [0] [1] := by
  obtain ⟨D, h⟩ := spread_renamable
  exact ⟨D, h, renameDir_not_whole h⟩

theorem spread_unnoticed : ∃ D, Renamable 3 D spread [0] [1]
      ∧ ∃ t, Outcome balky.dirEnv (sfsRenameDir 3 [0] [1]) spread 0 t
        ∧ (∃ p, spread.disk.Holds [0] p) ∧ ∀ p, spread.disk.Holds [0] p → t.disk.Holds [0] p := by
  obtain ⟨D, h⟩ := spread_renamable
  exact ⟨D, h, refused_rename_unnoticed h (by decide)⟩

/-- Nothing fails: all replicas are moved, and the call returns -EEXIST. -/
theorem spread_eexist : (∃ D, Renamable 3 D spread [0] [1])
      ∧ (run (dirHandler 0 noneLost) (sfsRenameDir 3 [0] [1]) spread).map
          (fun r : Int × Sys => (r.1, (range 3).map fun p =>
            (r.2.disk.node [0] p, r.2.disk.node [1] p)))
        = some (eexist, [(none, some (.dir false)), (none, some (.dir true)),
          (none, some (.dir true))])
      ∧ ¬ RenameWhole 3 spread [0] [1] := by
  refine ⟨spread_renamable, by decide, fun h => ?_⟩
  have herr : (run (dirHandler 0 noneLost) (sfsRenameDir 3 [0] [1]) spread).map Prod.fst
      = some eexist := by decide
  obtain ⟨⟨err, t⟩, hr, rfl⟩ := map_eq_some_iff.mp herr
  have h0 := (h.1.sure eexist t ((outcome_env.mpr hr).widen fun _ _ _ _ => mild_of_dirHandler)).1
  exact absurd h0 (by decide)

end Concrete

end SfsRenameDir
