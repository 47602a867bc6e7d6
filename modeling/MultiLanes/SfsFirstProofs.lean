import MultiLanes.SfsHonestProofs

/-! # SFS — `first_normal_dir_id`

The field is stored by `check_normal_dir` and `set_normal_dir` only, each time together
with a bit of `normal_dir_map` and an increment of `normal_dir_count`, and survives
`clean_sfs_dentry`.  So it is a normal partition of the directory exactly when the count
is not zero, in every state and whatever has failed before.

`sfs_add_dir_entry` and `sfs_rmdir` look at the count first. `sfs_rename_dir` does not:
it uses the field of a directory that has no normal replica. -/

namespace Sfs

open InteractProg Function Option

variable {N : Nat}

/-! ## Code that keeps dentries honest -/

/-- The requests that keep dentries honest. -/
def Keeps (N : Nat) : SfsReq → Prop
  | .setD _ d => Honest N d
  | .modD _ f => ∀ d, Honest N d → Honest N (f d)
  | _ => True

/-- Code whose requests keep dentries honest. -/
abbrev Keeping {α : Type} (N : Nat) (R : α → Prop) (c : Code α) : Prop :=
  Asks (S := SfsSig) (Keeps N) (Told N) R c

theorem Tame.keeps {U : Path → Prop} {q : SfsReq} (h : Tame N U q) : Keeps N q := by
  cases q with
  | modD z f => exact fun d hd => (h d hd).1
  | setD z d => exact h.elim
  | _ => trivial

theorem Tamed.kept {α : Type} {R : α → Prop} {c : Code α} {U : Path → Prop}
    (h : Tamed N U R c) : Keeping N R c := h.widen fun _ => Tame.keeps

section Code

variable {α : Type} {x y : Path} {p : Nat} {c k : Code Int}

/-- Tame code on any names. -/
theorem kept_tamed {R : α → Prop} {c : Code α}
    (h : Tamed N (fun _ => True) R c) : Keeping N R c := h.kept

theorem kept_modD {f : SfsDentry → SfsDentry}
    (hf : ∀ d, Honest N d → Honest N (f d)) : Keeping N any (modD x f) :=
  ⟨hf, fun _ _ => trivial⟩

/-- A mark that is read: the partition is the first now. -/
theorem kept_checkNormalDir (hp : p < N) : Keeping N any (checkNormalDir x p) :=
  .perform trivial fun _ _ => .bind (.onlyIf fun _ =>
    kept_modD fun _ hd => hd.addNormal hp ⟨p, rfl, .inl rfl⟩) fun _ _ => trivial

theorem kept_fullScan {ps : List Nat} (hps : ∀ p ∈ ps, p < N) : Keeping N any (fullScan x ps) := by
  induction ps with
  | nil => trivial
  | cons p ps ih =>
    have hp := hps p (.head _)
    have hrest := ih fun q hq => hps q (.tail _ hq)
    refine .bind (kept_tamed (tamed_probe true hp)) fun i _ => ?_
    split
    · exact hrest
    · exact kept_tamed (tamed_foundFile trivial)
    · exact .bind (kept_checkNormalDir hp) fun _ _ => hrest

theorem kept_normalScan {ps : List Nat} (hps : ∀ p ∈ ps, p < N) :
    Keeping N any (normalScan N x ps) := by
  induction ps with
  | nil => trivial
  | cons p ps ih =>
    have hp := hps p (.head _)
    refine .bind (kept_tamed (tamed_probe false hp)) fun i _ => ?_
    split
    · exact ih fun q hq => hps q (.tail _ hq)
    · exact kept_tamed (tamed_foundFile trivial)
    · exact .bind (kept_checkNormalDir hp) fun _ _ =>
        kept_fullScan forall_mem_range

theorem kept_sfsLookup (hN : 0 < N) : Keeping N any (sfsLookup N x) := by
  refine .perform (honest_fresh hN) fun _ _ => ?_
  refine .bind (kept_normalScan forall_mem_range) fun r _ => ?_
  split
  · trivial
  · exact .bind (kept_tamed (tamed_instantiate trivial _)) fun _ _ => trivial

theorem kept_addRoots {ps : List Nat} (hps : ∀ p ∈ ps, p < N) : Keeping N any (addRoots ps) := by
  induction ps with
  | nil => trivial
  | cons p ps ih =>
    refine .perform trivial fun i _ => ?_
    exact .bind (kept_tamed (tamed_dAddReplica (hps p (.head _)) _))
      fun _ _ => ih fun q hq => hps q (.tail _ hq)

theorem kept_checkRoots {ps : List Nat} {e : Int} (hps : ∀ p ∈ ps, p < N) :
    Keeping N any (checkRoots ps e) := by
  induction ps generalizing e with
  | nil => trivial
  | cons p ps ih =>
    exact .bind (kept_checkNormalDir (hps p (.head _))) fun _ _ =>
      ih fun q hq => hps q (.tail _ hq)

theorem kept_mountRoot (hN : 0 < N) : Keeping N any (mountRoot N) := by
  have hroot : Honest N { SfsDentry.fresh with positive := true } :=
    (honest_fresh hN).withIds nofun nofun
  refine .perform hroot fun _ _ => ?_
  exact .bind (kept_addRoots forall_mem_range) fun _ _ =>
    kept_checkRoots forall_mem_range

/-- A mark that is stored: the first stays, if there is one. -/
theorem kept_setNormalDir : Keeping N any (setNormalDir x p) := by
  refine .perform trivial fun d hd => ?_
  split
  · trivial
  · refine .bind (kept_tamed tamed_deref) fun r hr => ?_
    have hp : p < N := by
      by_contra hp
      cases hr.symm.trans (Honest.slots hd p (Nat.not_lt.mp hp))
    refine .bind (kept_tamed tamed_deref) fun _ _ => ?_
    refine .perform trivial fun err _ => ?_
    exact .bind (.onlyIf fun _ =>
      kept_modD fun _ hd => hd.turnNormal hp) fun _ _ => trivial

theorem kept_createReplicaDir (hp : p < N) (normal : Bool) :
    Keeping N any (createReplicaDir x p normal) := by
  refine .bind (kept_tamed (tamed_replicaBranch hp)) fun r _ => ?_
  split
  · trivial
  · split
    · refine .bind kept_setNormalDir fun err _ => ?_
      split <;> trivial
    · trivial

/-- The replica of the directory is made, and the name looked up in it. -/
theorem kept_enter (hp : p < N) {normal : Bool} {k : Replica → Code Int}
    (hk : ∀ r, Keeping N any (k r)) : Keeping N any (do
      match ← createReplicaDir x.tail p normal with
      | .error err => return err
      | .ok parent =>
        let _ ← getReplicaDentry (some parent) x p
        k parent) := by
  refine .bind (kept_createReplicaDir hp normal) fun r _ => ?_
  split
  · trivial
  · exact .bind (kept_tamed (tamed_getReplicaDentry fun _ => hp)) fun _ _ => hk _

/-- A normal partition that the counter meets is in range. -/
theorem nextNormal_map {m : Nat → Bool} {n c r : Nat}
    (h : nextNormal N m n c = some r) : m r = true := by
  induction n generalizing c with
  | zero => cases h
  | succ n ih =>
    rw [nextNormal] at h
    split at h
    · next hc =>
      cases h
      exact hc
    · exact ih h

/-- The loop over `local_counter` ends at a normal partition. -/
theorem kept_takeNormal : Keeping N (· < N) (takeNormal N x) := by
  refine .perform trivial fun d hd => ?_
  split
  · exact kept_tamed tamed_spin
  · next r hr =>
    have hrN := Honest.map hd r (nextNormal_map hr)
    have hN : 0 < N := Nat.zero_lt_of_lt hrN
    exact .bind (kept_modD fun _ hd => hd.withCounter (Nat.mod_lt _ hN)) fun _ _ => hrN

theorem kept_selectNormalDirRr :
    Keeping N (fun o => ∀ r, o = some r → r < N) (selectNormalDirRr N x) := by
  refine .perform trivial fun d _ => ?_
  split
  · exact nofun
  · refine .bind kept_takeNormal fun r hr => ?_
    rintro _ ⟨⟩
    exact hr

theorem kept_localDispatch (hN : 0 < N) : Keeping N (· < N) (localDispatch N x) := by
  refine .perform trivial fun d _ => ?_
  split
  · exact Asks.mono (kept_tamed (tamed_dispatchFree hN _ _)) fun _ h => h.1
  · exact kept_takeNormal

theorem kept_simpleAddEntry (hp : p < N) : Keeping N any (simpleAddEntry x p) :=
  kept_enter hp fun _ => kept_tamed (tamed_createReplica hp)

theorem kept_sfsCreate (hN : 0 < N) : Keeping N any (sfsCreate N x) := by
  refine .bind (kept_localDispatch hN) fun p hp => ?_
  refine Asks.checked (kept_simpleAddEntry hp) ?_
  exact Asks.bind (kept_tamed (tamed_setReplicaId trivial hp)) fun _ _ =>
    .bind (kept_tamed (tamed_instantiate trivial _)) fun _ _ => trivial

theorem kept_simpleAddLink (hp : p < N) : Keeping N any (simpleAddLink x y p) :=
  kept_enter hp fun _ => kept_tamed (tamed_linkReplica hp)

theorem kept_simpleAddPartitionedLink (hp : p < N) {q : Nat} (hq : q < N) :
    Keeping N any (simpleAddPartitionedLink x y p q) := by
  refine .bind (kept_createReplicaDir hp true) fun r _ => ?_
  split
  · trivial
  · refine .bind (kept_createReplicaDir hq false) fun r _ => ?_
    split
    · trivial
    · refine .bind (kept_tamed (tamed_getReplicaDentry fun _ => hp)) fun _ _ => ?_
      refine .bind (kept_tamed (tamed_getReplicaDentry fun _ => hq)) fun _ _ => ?_
      exact Asks.checked (kept_tamed (tamed_createReplica hp)) <|
        Asks.checked (kept_tamed (tamed_put _)) <|
        Asks.checked (kept_tamed (tamed_linkReplica hq)) (kept_tamed (tamed_put _))

theorem kept_sfsLink : Keeping N any (sfsLink N x y) := by
  refine .perform trivial fun d hd => ?_
  refine .bind (kept_tamed tamed_deref) fun o ho => ?_
  have hoN := Honest.replicaId hd o ho
  refine Asks.bind (kept_tamed tamed_canTurn2normal) fun b _ => ?_
  extract_lets link
  have hlink : ∀ m, (∀ r, m = some r → r < N) → Keeping N any (link m) := by
    intro m hm
    refine Asks.checked ?_ ?_
    · split
      · exact kept_simpleAddLink hoN
      · exact kept_simpleAddPartitionedLink (hm _ rfl) hoN
    · refine Asks.bind (kept_tamed (tamed_instantiate trivial _)) fun _ _ => ?_
      refine Asks.bind (kept_tamed (tamed_setReplicaId trivial hoN)) fun _ _ => ?_
      exact Asks.bind (Asks.onlyIf fun _ =>
        kept_tamed (tamed_setMetaId trivial hm)) fun _ _ => trivial
  split
  · exact hlink none nofun
  · exact .bind kept_selectNormalDirRr hlink

theorem kept_rename2non : Keeping N any (rename2non N x y) := by
  refine .perform trivial fun d hd => ?_
  refine .bind (kept_tamed tamed_deref) fun o ho => ?_
  have hoN := Honest.replicaId hd o ho
  refine .bind (kept_tamed tamed_findReplicaDentry) fun op _ => ?_
  refine .bind (kept_tamed tamed_canTurn2normal) fun b _ => kept_enter hoN fun r => ?_
  split
  · exact kept_tamed (tamed_rename2nonTurn trivial trivial o d.metaId)
  · refine .bind kept_selectNormalDirRr fun m hm => ?_
    refine .bind (kept_tamed tamed_deref) fun m' hm' => ?_
    exact kept_tamed (tamed_rename2nonMeta_rest trivial trivial o d.metaId (hm m' hm'))

theorem kept_rename2exist : Keeping N any (rename2exist N x y) := by
  refine .perform trivial fun d hd => ?_
  refine .bind (kept_tamed tamed_deref) fun o ho => ?_
  have hoN := Honest.replicaId hd o ho
  refine .bind (kept_tamed (tamed_findMetaParent _)) fun omp _ => ?_
  refine .bind (kept_tamed tamed_findReplicaDentry) fun op _ => ?_
  refine .perform trivial fun g hg => ?_
  refine .bind (kept_tamed tamed_deref) fun e he => ?_
  have hem : g.metaId.getD e < N := by
    cases hm : g.metaId with
    | none => exact Honest.replicaId hg e he
    | some m => exact Honest.metaId hg m hm
  refine .bind (kept_tamed tamed_findReplicaDentry) fun ep _ => ?_
  refine .bind (kept_tamed (tamed_findMetaParent _)) fun emp _ => ?_
  refine .bind (kept_tamed tamed_canTurn2normal) fun b _ => kept_enter hoN fun r => kept_tamed ?_
  have hout : Tamed N (fun _ => True) any (finish2exist N x y o d.metaId omp) :=
    tamed_finish2exist trivial trivial o d.metaId
  split
  · split
    · exact tamed_overwriteExist trivial hout
    · exact tamed_hideExist trivial hout
  · exact tamed_reuseExist trivial hout hem

theorem kept_sfsRenameOther : Keeping N any (sfsRenameOther N x y) := by
  refine Asks.checked (kept_tamed (tamed_validateFile trivial)) ?_
  refine Asks.perform trivial fun d _ => Asks.checked ?_ ?_
  · split
    · exact kept_tamed (tamed_validateFile trivial)
    · trivial
  · refine .perform trivial fun d _ => ?_
    split
    · exact kept_rename2exist
    · exact kept_rename2non

theorem kept_simpleAddDirEntry (hp : p < N) : Keeping N any (simpleAddDirEntry x p) := by
  refine .bind (kept_createReplicaDir hp true) fun r _ => ?_
  split
  · trivial
  · refine .bind (kept_tamed tamed_deref) fun _ _ => ?_
    refine .bind (kept_tamed tamed_findReplicaDentry) fun o _ => ?_
    split
    · trivial
    · refine .bind (kept_tamed (tamed_getReplicaDentry fun _ => hp))
        fun _ _ => .perform trivial fun err _ => ?_
      exact .bind (.onlyIf fun _ =>
        kept_tamed (tamed_storeReplica hp _)) fun _ _ => trivial

/-- A partition number that is no index of a replica is not used. -/
theorem Asks.inRange {G : SfsReq → Prop} {A : (q : SfsReq) → q.Ans → Prop} {id : Int}
    {c : Nat → Code Int} (hoops : G .oops)
    (hc : ∀ p, p < N → Asks (S := SfsSig) G A any (c p)) :
    Asks (S := SfsSig) G A any (inRange N id c) := by
  unfold Sfs.inRange
  split
  · next h => exact hc _ (by omega)
  · exact ⟨hoops, fun x => x.elim⟩

/-- The requests of `sfs_rmdir`, on the names `U`. -/
def Removes (N : Nat) (U : Path → Prop) (q : SfsReq) : Prop :=
  Tame N U q ∨ ∃ x p, q = .rmdir x p

/-- Code whose requests are such. -/
abbrev Removed {α : Type} (N : Nat) (U : Path → Prop) (R : α → Prop)
    (c : Code α) : Prop := Asks (S := SfsSig) (Removes N U) (Told N) R c

theorem Tamed.removed {U : Path → Prop} {R : α → Prop} {c : Code α}
    (h : Tamed N U R c) : Removed N U R c := h.widen fun _ => .inl

section Remove

variable {U : Path → Prop}

theorem Removed.kept {R : α → Prop} {c : Code α} (h : Removed N U R c) :
    Keeping N R c := h.widen fun q hq => by
  rcases hq with hq | ⟨x, p, rfl⟩
  · exact hq.keeps
  · trivial

theorem removed_rmdirReplica (hp : p < N) (r : Replica) : Removed N U any (rmdirReplica x p r) := by
  refine .perform (.inr ⟨_, _, rfl⟩) fun err _ => ?_
  exact .bind (.onlyIf fun _ => (tamed_storeReplica hp _).removed) fun _ _ => trivial

theorem removed_rmdirOthers {keep : Int} {k : Int → Code Int} (hk : ∀ err, Removed N U any (k err))
    {ps : List Nat} (hps : ∀ p ∈ ps, p < N) :
    ∀ error, Removed N U any (rmdirOthers x keep k ps error) := by
  induction ps with
  | nil => exact hk
  | cons p ps ih =>
    have hrest := ih fun q hq => hps q (.tail _ hq)
    intro error
    rw [rmdirOthers]
    split
    · exact hrest error
    · refine .bind tamed_findReplicaDentry.removed fun o _ => ?_
      split
      · refine .bind (removed_rmdirReplica (hps p (.head _)) _) fun err _ => ?_
        split
        · trivial
        · exact hrest err
      · exact hrest error

theorem removed_rmdirLast (hx : U x) (hp : p < N) : Removed N U any (rmdirLast x p) := by
  refine .bind tamed_findReplicaDentry.removed fun o _ => ?_
  split
  · exact Asks.checked (removed_rmdirReplica hp _)
      (.bind (tamed_cleanDentry hx).removed fun _ _ => trivial)
  · trivial

/-- The whole of `sfs_rmdir` after the choice of the replica that is kept. -/
theorem removed_rmdir (hx : U x) (keep : Int) : Removed N U any (rmdirOthers x keep (fun error =>
      if keep < 0 then do
        cleanDentry x
        return error
      else inRange N keep (rmdirLast x)) (List.range N) enoent) := by
  refine removed_rmdirOthers (fun err => ?_) forall_mem_range _
  split
  · exact .bind (tamed_cleanDentry hx).removed fun _ _ => trivial
  · exact Asks.inRange (.inl trivial) fun p hp => removed_rmdirLast hx hp

end Remove

/-! ### Calls -/

/-- The requests of `DirReq` that keep dentries honest. -/
def KeepsDir (N : Nat) : DirReq → Prop
  | .sfs q => Keeps N q
  | _ => True

/-- See `Told`. -/
def ToldDir (N : Nat) : (q : DirReq) → q.Ans → Prop
  | .sfs q, a => Told N q a
  | _, _ => True

/-- See `Keeping`. -/
abbrev KeepingDir {α : Type} (N : Nat) (R : α → Prop) (c : DirCode α) : Prop :=
  Asks (S := DirSig) (KeepsDir N) (ToldDir N) R c

theorem Keeping.lift {R : α → Prop} {c : Code α} (h : Keeping N R c) : KeepingDir N R (lift c) := by
  induction c with
  | ret a => exact h
  | ask q k ih => exact ⟨h.1, fun a ha => ih a (h.2 a ha)⟩

/-- See `Asks.checked`. -/
theorem Asks.checkedDir {G : DirReq → Prop} {A : (q : DirReq) → q.Ans → Prop} {c k : DirCode Int}
    (hc : Asks (S := DirSig) G A any c) (hk : Asks (S := DirSig) G A any k) :
    Asks (S := DirSig) G A any (checkedDir c k) := by
  refine .bind hc fun err _ => ?_
  split
  · trivial
  · exact hk

theorem keptDir_dispatchInt (hN : 0 < N) : KeepingDir N any (dispatchInt N) :=
  .bind (Keeping.lift (kept_tamed (tamed_dispatch hN))) fun _ _ => trivial

theorem keptDir_sfsMkdir (hN : 0 < N) : KeepingDir N any (sfsMkdir N x) := by
  refine .perform trivial fun d _ => ?_
  extract_lets add
  have hadd : ∀ id, KeepingDir N any (add id) := fun id =>
    Asks.checkedDir (Keeping.lift (Asks.inRange trivial fun p hp =>
      kept_simpleAddDirEntry hp)) <|
    .bind (Keeping.lift (kept_tamed (tamed_instantiate trivial _))) fun _ _ => trivial
  split
  · exact .bind (keptDir_dispatchInt hN) fun id _ => hadd id
  · exact .perform trivial fun id _ => hadd id

theorem keptDir_sfsRmdir : KeepingDir N any (sfsRmdir N x) := by
  refine .perform trivial fun d _ => ?_
  extract_lets remove
  have hremove : ∀ keep, KeepingDir N any (remove keep) := fun keep =>
    Keeping.lift (removed_rmdir (U := fun _ => True) trivial keep).kept
  split
  · exact .perform trivial fun id _ => hremove id
  · exact hremove _

theorem keptDir_addNewEntry (hN : 0 < N) : KeepingDir N any (addNewEntry N x) := by
  refine .perform trivial fun id _ => ?_
  extract_lets add
  have hadd : ∀ id, KeepingDir N any (add id) := fun id =>
    Keeping.lift (Asks.inRange trivial fun p hp => kept_simpleAddDirEntry hp)
  split
  · exact .bind (keptDir_dispatchInt hN) fun id _ => hadd id
  · exact hadd _

theorem keptDir_sfsRenameDir (hN : 0 < N) : KeepingDir N any (sfsRenameDir N x y) := by
  refine Asks.perform trivial fun d _ => Asks.checkedDir ?_ <|
    Asks.checkedDir (Keeping.lift (kept_tamed (tamed_renameReplicas trivial forall_mem_range)))
      (keptDir_addNewEntry hN)
  split
  · exact keptDir_sfsRmdir
  · trivial

/-- Every call keeps dentries honest. -/
theorem keptDir_code (hN : 0 < N) (o : Op) : KeepingDir N any (o.code N) := by
  have hdelete : ∀ z, KeepingDir N any (do
      lift (instantiate z false)
      return (0 : Int)) := fun z =>
    .bind (Keeping.lift (kept_tamed (tamed_instantiate trivial _))) fun _ _ => trivial
  cases o with
  | lookup z => exact Keeping.lift (kept_sfsLookup hN)
  | create z => exact Keeping.lift (kept_sfsCreate hN)
  | mkdir z => exact keptDir_sfsMkdir hN
  | link x y => exact Keeping.lift kept_sfsLink
  | unlink z =>
    exact Keeping.lift <| Asks.checked (kept_tamed (tamed_sfsUnlink trivial)) <|
      .bind (kept_tamed (tamed_instantiate trivial _)) fun _ _ => trivial
  | rmdir z =>
    exact .perform trivial fun _ _ =>
      Asks.checkedDir keptDir_sfsRmdir (hdelete z)
  | rename x y =>
    exact Keeping.lift <| Asks.checked kept_sfsRenameOther <|
      .perform trivial fun _ _ => trivial
  | renameDir x y =>
    exact .perform trivial fun _ _ =>
      Asks.checkedDir (keptDir_sfsRenameDir hN) <| Asks.perform trivial fun _ _ => trivial

end Code

/-! ## Every reachable state -/

/-- Every cached dentry is honest. -/
def AllHonest (N : Nat) (s : Sys) : Prop := ∀ x d, s.mem x = some d → Honest N d

section States

variable {s t : Sys} {x y z : Path} {d : SfsDentry}

/-- A dentry is stored. -/
theorem AllHonest.setD (h : AllHonest N s) (hd : Honest N d) : AllHonest N (s.setD x d) := by
  intro z e he
  rcases one_some he with ⟨-, rfl⟩ | ⟨-, he⟩
  · exact hd
  · exact h z e he

/-- Dentries that came from the cache. -/
theorem AllHonest.of_mem (h : AllHonest N s)
    (hm : ∀ x d, t.mem x = some d → ∃ y, s.mem y = some d) : AllHonest N t := by
  intro x d hd
  obtain ⟨y, hy⟩ := hm x d hd
  exact h y d hy

/-- The cache is as before. -/
theorem AllHonest.same (h : AllHonest N s) (hm : t.mem = s.mem) :
    AllHonest N t := h.of_mem fun x d hd => ⟨x, by rw [← hm]; exact hd⟩

/-- What a request of SFS does to the cache. -/
theorem frail_mem {q : SfsReq} {a : q.Ans} (h : frail q s a t) :
    t.mem = s.mem ∨ (∃ x d, q = .setD x d ∧ t = s.setD x d)
      ∨ (∃ x f d, q = .modD x f ∧ s.mem x = some d ∧ t = s.setD x (f d))
      ∨ (∃ x y, q = .moveD x y ∧ t = s.moveD x y) := by
  rcases Or.symm h with ⟨-, rfl⟩ | h
  · exact .inl rfl
  by_cases hq : q.durable = true
  · rw [sysHandler_eq_step s hq] at h
    obtain ⟨r, -, hr⟩ := map_eq_some_iff.mp h
    rw [← (Prod.mk.inj hr).2]
    exact .inl rfl
  · cases q with
    | setD x d =>
      cases h
      exact .inr (.inl ⟨x, d, rfl, rfl⟩)
    | modD x f =>
      obtain ⟨d, hd, hr⟩ := map_eq_some_iff.mp h
      rw [← (Prod.mk.inj hr).2]
      exact .inr (.inr (.inl ⟨x, f, d, rfl, hd, rfl⟩))
    | moveD x y =>
      cases h
      exact .inr (.inr (.inr ⟨x, y, rfl, rfl⟩))
    | sfsD x =>
      obtain ⟨d, -, hr⟩ := map_eq_some_iff.mp h
      rw [← (Prod.mk.inj hr).2]
      exact .inl rfl
    | oops => exact a.elim
    | spin => exact a.elim
    | cached | addDispatch | clearDispatch | lookup | isNormal | getxattr =>
      cases h
      exact .inl rfl
    | _ => exact absurd rfl hq

theorem frail_sfsD {a : SfsDentry} (h : frail (.sfsD x) s a t) : t = s ∧ s.mem x = some a := by
  rcases h with h | h
  · obtain ⟨d, hd, hr⟩ := map_eq_some_iff.mp h
    cases hr
    exact ⟨rfl, hd⟩
  · exact h.1.elim

/-- What one request of SFS keeps. -/
theorem AllHonest.frail {q : SfsReq} {a : q.Ans} (h : AllHonest N s)
    (hq : Keeps N q) (hs : frail q s a t) : Told N q a ∧ AllHonest N t := by
  constructor
  · cases q with
    | sfsD x => exact h x a (frail_sfsD hs).2
    | _ => trivial
  · rcases frail_mem hs with hm | ⟨x, d, rfl, rfl⟩
        | ⟨x, f, d, rfl, hd, rfl⟩ | ⟨x, y, rfl, rfl⟩
    · exact h.same hm
    · exact h.setD hq
    · exact h.setD (hq d (h x d hd))
    · refine h.of_mem fun z d hd => ?_
      rcases moveD_mem hd with ⟨-, hd⟩ | hd
      · exact ⟨x, hd⟩
      · exact ⟨z, hd⟩

theorem AllHonest.shrink (h : AllHonest N s) : AllHonest N (s.shrink x) :=
  h.of_mem fun z d hd => by
    change (if _ then none else s.mem z) = some d at hd
    split at hd
    · cases hd
    · exact ⟨z, hd⟩

theorem AllHonest.moveTree (h : AllHonest N s) : AllHonest N (s.moveTree x y) :=
  h.of_mem fun z d hd => by
    change (if _ then _ else if _ then none else s.mem z) = some d at hd
    split at hd
    · exact ⟨_, hd⟩
    · split at hd
      · cases hd
      · exact ⟨z, hd⟩

/-- What one request of a call keeps. -/
theorem AllHonest.step {q : DirReq} {a : q.Ans} (hq : KeepsDir N q)
    (h : AllHonest N s) (hs : dirEnv q s a t) :
    ToldDir N q a ∧ AllHonest N t := by
  cases q with
  | sfs q => exact h.frail hq hs
  | firstNormal x => exact ⟨trivial, by rw [hs.2]; exact h⟩
  | shrink x => exact ⟨trivial, by rw [show t = _ from hs]; exact h.shrink⟩
  | moveTree x y => exact ⟨trivial, by rw [show t = _ from hs]; exact h.moveTree⟩

/-- What a call keeps. -/
theorem AllHonest.outcome {c : DirCode Int} {a : Int} (h : AllHonest N s)
    (hc : KeepingDir N any c) (hout : Outcome dirEnv c s a t) : AllHonest N t :=
  (Asks.sure (E := dirEnv) (J := AllHonest N) AllHonest.step hc h a t hout).2

/-- What a whole run keeps. -/
theorem Reach.honest (hN : 0 < N) (h : Reach N s) : AllHonest N s := by
  induction h with
  | boot d =>
    intro x d hd
    cases hd
  | mount _ hout _ =>
    refine AllHonest.outcome ?_ (Keeping.lift (kept_mountRoot hN)) hout
    intro x d hd
    cases hd
  | call _ _ hout ih => exact ih.outcome (keptDir_code hN _) hout
  | @forget s x _ ih =>
    refine ih.of_mem fun z d hd => ?_
    exact ⟨z, (forget_some hd).2⟩

end States

/-! ## Uses of the field -/

/-- The value is a normal partition of the directory. -/
def Meaningful (N : Nat) (s : Sys) (x : Path) (v : Int) : Prop :=
  s.Has x (fun d => ∃ f : Nat, v = f ∧ f < N ∧ d.normalDirMap f = true)

/-- The call comes to a use of the field of `x`, in the state `t`. -/
def Uses (N : Nat) (o : Op) (s : Sys) (x : Path) (t : Sys) : Prop :=
  Comes dirEnv (o.code N) s (.firstNormal x) t

/-- Code that does not use the field. -/
def Dull {α : Type} (c : DirCode α) : Prop :=
  ∀ s x t, ¬ Comes dirEnv c s (.firstNormal x) t

section Uses

variable {α β : Type} {s t : Sys} {x y z : Path} {d : SfsDentry} {c k : DirCode Int} {n : Nat}

/-- All values that may be read are meaningful when the count is not zero, and else none is. -/
theorem meaningful_iff (hd : s.mem x = some d) (h : Honest N d) :
    (∀ v, s.FirstIs x v → Meaningful N s x v) ↔ d.normalDirCount ≠ 0 := by
  constructor
  · intro hall h0
    obtain ⟨v, hv⟩ : ∃ v : Int, ∀ f, d.firstNormalDirId = some f → v = f := by
      cases hf : d.firstNormalDirId with
      | none => exact ⟨0, nofun⟩
      | some f => exact ⟨f, fun g hg => by rw [Option.some.inj hg]⟩
    obtain ⟨e, he, f, -, -, hmap⟩ := hall v ⟨d, hd, hv⟩
    cases hd.symm.trans he
    cases (h.empty h0 f).symm.trans hmap
  · rintro hne v ⟨e, he, hv⟩
    cases hd.symm.trans he
    obtain ⟨f, hf, hmap⟩ := h.first hne
    exact ⟨d, hd, f, hv f hf, h.map f hmap, hmap⟩

/-- Code of `namei.c` for files does not use it. -/
theorem dull_lift (c : Code α) : Dull (lift c) := by
  intro s x t h
  induction c generalizing s with
  | ret a => exact h
  | ask q k ih =>
    rcases h with ⟨h, -⟩ | ⟨a, u, -, h⟩
    · cases h
    · exact ih a u h

theorem Dull.bind {c : DirCode α} {f : α → DirCode β} (hc : Dull c)
    (hf : ∀ a, Dull (f a)) : Dull (c >>= f) := by
  intro s x t h
  rcases comes_bind.mp h with h | ⟨a, u, -, h⟩
  · exact hc s x t h
  · exact hf a u x t h

theorem dull_ret (a : α) : Dull (.ret a : DirCode α) := fun _ _ _ h => h

theorem Dull.checkedDir (hc : Dull c) (hk : Dull k) : Dull (checkedDir c k) :=
  hc.bind fun err => by
    split
    · exact dull_ret err
    · exact hk

/-- The use comes before the test for an error, or after it. -/
theorem comes_checkedDir (h : Comes dirEnv (checkedDir c k) s (.firstNormal x) t) :
    Comes dirEnv c s (.firstNormal x) t
      ∨ ∃ u, Outcome dirEnv c s 0 u ∧ Comes dirEnv k u (.firstNormal x) t := by
  rcases comes_bind.mp h with h | ⟨err, u, hout, h⟩
  · exact .inl h
  · split at h
    · exact h.elim
    · next herr =>
      obtain rfl : err = 0 := by simpa using herr
      exact .inr ⟨u, hout, h⟩

/-- The field is used in the first request. -/
theorem comes_firstNormalDirId {f : Int → DirCode α} (hf : ∀ id, Dull (f id))
    (h : Comes dirEnv (firstNormalDirId y >>= f) s (.firstNormal x) t) :
    t = s ∧ x = y := by
  rcases h with ⟨h, rfl⟩ | ⟨id, u, -, h⟩
  · cases h
    exact ⟨rfl, rfl⟩
  · exact (hf id u x t h).elim

/-- The parent is read first. -/
theorem comes_sfsD {f : SfsDentry → DirCode α}
    (h : Comes dirEnv (lift (sfsD y) >>= f) s (.firstNormal x) t) :
    ∃ d, s.mem y = some d ∧ Comes dirEnv (f d) s (.firstNormal x) t := by
  rcases h with ⟨h, -⟩ | ⟨d, u, he, h⟩
  · cases h
  · obtain ⟨rfl, hd⟩ := frail_sfsD he
    exact ⟨d, hd, h⟩

/-- `sfs_add_dir_entry` uses that of the parent. -/
theorem comes_sfsMkdir (h : Comes dirEnv (sfsMkdir N z) s (.firstNormal x) t) :
    t = s ∧ x = z.tail ∧ s.Has x (·.normalDirCount ≠ 0) := by
  obtain ⟨d, hd, h⟩ := comes_sfsD h
  have hadd : ∀ id, Dull (checkedDir (lift (inRange N id (simpleAddDirEntry z)))
      (do lift (instantiate z true); return 0)) := fun id =>
    (dull_lift _).checkedDir ((dull_lift _).bind fun _ => dull_ret 0)
  by_cases h0 : d.normalDirCount = 0
  · simp only [h0, if_true] at h
    exact ((((dull_lift _).bind fun _ => dull_ret _).bind hadd) s x t h).elim
  · simp only [h0, if_false] at h
    obtain ⟨rfl, rfl⟩ := comes_firstNormalDirId hadd h
    exact ⟨rfl, rfl, d, hd, h0⟩

/-- So does `sfs_rmdir`. -/
theorem comes_sfsRmdir (h : Comes dirEnv (sfsRmdir N z) s (.firstNormal x) t) :
    t = s ∧ x = z.tail ∧ s.Has x (·.normalDirCount ≠ 0) := by
  obtain ⟨d, hd, h⟩ := comes_sfsD h
  by_cases h0 : d.normalDirCount > 0
  · simp only [h0, if_true] at h
    obtain ⟨rfl, rfl⟩ := comes_firstNormalDirId (fun _ => dull_lift _) h
    exact ⟨rfl, rfl, d, hd, Nat.ne_of_gt h0⟩
  · simp only [h0, if_false] at h
    exact (dull_lift _ s x t h).elim

/-! ### The count of the new parent -/

/-- The requests that leave the count of `Z` alone. -/
def Spares (N : Nat) (Z : Path) : SfsReq → Prop
  | .setD z _ => z ≠ Z
  | .modD z f => z ≠ Z ∨ ∀ d, Honest N d → SameMap d (f d)
  | .moveD x y => x ≠ Z ∧ y ≠ Z
  | _ => True

/-- See `Spares`. -/
def SparesDir (N : Nat) (Z : Path) : DirReq → Prop
  | .sfs q => Keeps N q ∧ Spares N Z q
  | .firstNormal _ => True
  | _ => False

/-- A removal leaves the counts of other names alone. -/
theorem Removes.spares {U : Path → Prop} {Z : Path} (hZ : ¬ U Z) {q : SfsReq}
    (h : Removes N U q) : Keeps N q ∧ Spares N Z q := by
  rcases h with h | ⟨x, p, rfl⟩
  · refine ⟨h.keeps, ?_⟩
    cases q with
    | modD z f =>
      by_cases hz : z = Z
      · subst hz
        refine .inr fun d hd => ?_
        rcases (h d hd).2 with hf | ⟨hU, -⟩
        · exact hf.map
        · exact absurd hU hZ
      · exact .inl hz
    | setD | moveD => exact h.elim
    | _ => trivial
  · exact ⟨trivial, trivial⟩

theorem Removed.spared {U : Path → Prop} {Z : Path} (hZ : ¬ U Z)
    {R : α → Prop} {c : Code α} (h : Removed N U R c) :
    Asks (S := DirSig) (SparesDir N Z) (ToldDir N) R (lift c) := by
  induction c with
  | ret a => exact h
  | ask q k ih => exact ⟨h.1.spares hZ, fun a ha => ih a (h.2 a ha)⟩

/-- The count of `Z` is `n`. -/
def Counts (N : Nat) (Z : Path) (n : Nat) (s : Sys) : Prop :=
  AllHonest N s ∧ s.Has Z (·.normalDirCount = n)

/-- What is known of `Z` by its map stays. -/
theorem AllHonest.spared {Z : Path} {P : SfsDentry → Prop}
    (hP : ∀ {d d'}, SameMap d d' → P d → P d') {q : DirReq} {a : q.Ans}
    (hq : SparesDir N Z q) (h : AllHonest N s ∧ s.Has Z P) (hs : dirEnv q s a t) :
    ToldDir N q a ∧ AllHonest N t ∧ t.Has Z P := by
  obtain ⟨hh, d, hd, hn⟩ := h
  cases q with
  | firstNormal x =>
    obtain ⟨-, rfl⟩ := hs
    exact ⟨trivial, hh, d, hd, hn⟩
  | shrink | moveTree => exact hq.elim
  | sfs q =>
    obtain ⟨ha, ht⟩ := hh.frail hq.1 hs
    refine ⟨ha, ht, ?_⟩
    rcases frail_mem hs with hm | ⟨x, e, rfl, rfl⟩
        | ⟨x, f, e, rfl, he, rfl⟩ | ⟨x, y, rfl, rfl⟩
    · exact ⟨d, by rw [hm]; exact hd, hn⟩
    · exact ⟨d, (one_mem_of_ne (Ne.symm hq.2)).trans hd, hn⟩
    · by_cases hx : Z = x
      · subst hx
        obtain rfl := mem_unique he hd
        refine ⟨f e, update_self .., ?_⟩
        rcases hq.2 with hne | hsame
        · exact absurd rfl hne
        · exact hP (hsame e (hh Z e hd)) hn
      · exact ⟨d, (one_mem_of_ne hx).trans hd, hn⟩
    · exact ⟨d, (moveD_mem_of_ne (Ne.symm hq.2.1) (Ne.symm hq.2.2)).trans hd, hn⟩

/-- What one request keeps. -/
theorem Counts.step {Z : Path} {q : DirReq} {a : q.Ans}
    (hq : SparesDir N Z q) (h : Counts N Z n s) (hs : dirEnv q s a t) :
    ToldDir N q a ∧ Counts N Z n t :=
  AllHonest.spared (fun hsame hn => hsame.2.1.trans hn) hq h hs

theorem tail_ne_self (hy : y ≠ []) : y ≠ y.tail := by
  cases y with
  | nil => exact absurd rfl hy
  | cons a A => exact fun h => absurd (congrArg List.length h) (by simp)

/-- `sfs_rmdir` leaves the count of the parent alone. -/
theorem spared_sfsRmdir (hy : y ≠ []) :
    Asks (S := DirSig) (SparesDir N y.tail) (ToldDir N) any (sfsRmdir N y) := by
  refine .perform ⟨trivial, trivial⟩ fun d _ => ?_
  extract_lets remove
  have hremove : ∀ keep, Asks (S := DirSig) (SparesDir N y.tail) (ToldDir N) any (remove keep) := by
    intro keep
    have hremoved := removed_rmdir (N := N) (U := (· = y)) rfl keep
    exact hremoved.spared (Z := y.tail) (tail_ne_self hy).symm
  split
  · exact .perform trivial fun id _ => hremove id
  · exact hremove _

/-- So does the loop over the replicas. -/
theorem spared_renameReplicas (hxy : ¬ x <:+ y) :
    Asks (S := DirSig) (SparesDir N y.tail) (ToldDir N) any
      (lift (renameReplicas x y (List.range N))) := by
  have htamed : Tamed N (· = x) any (renameReplicas x y (List.range N)) :=
    tamed_renameReplicas (U := (· = x)) rfl forall_mem_range
  refine htamed.removed.spared (Z := y.tail) ?_
  intro hx
  refine hxy ?_
  rw [← show y.tail = x from hx]
  exact List.tail_suffix y

/-- A directory rename uses the field of the new parent, whose count is what it was. -/
theorem uses_renameDir (hs : AllHonest N s) (hy : y ≠ []) (hxy : ¬ x <:+ y)
    (hd : s.mem y.tail = some d) (h : Uses N (.renameDir x y) s z t) :
    z = y.tail ∧ t.Has z (·.normalDirCount = d.normalDirCount) := by
  -- the first request leaves the new parent in the cache
  have hkeep : ¬ (y <:+ y.tail ∧ y.tail ≠ y) := by
    rintro ⟨hsuf, -⟩
    have hlen := hsuf.length_le
    rw [List.length_tail] at hlen
    have := List.length_pos_iff.mpr hy
    omega
  have h₀ : Counts N y.tail d.normalDirCount (s.shrink y) :=
    ⟨hs.shrink, d, (if_neg hkeep).trans hd, rfl⟩
  rcases h with ⟨h, -⟩ | ⟨_, u, rfl, h⟩
  · cases h
  rcases comes_checkedDir h with h | ⟨u, -, h⟩
  · obtain ⟨new, hnew, h⟩ := comes_sfsD h
    have hremove : Asks (S := DirSig) (SparesDir N y.tail) (ToldDir N) any
        (if new.positive = true then sfsRmdir N y else pure 0) := by
      split
      · exact spared_sfsRmdir hy
      · trivial
    rcases comes_checkedDir h with h | ⟨u, hout, h⟩
    · split at h
      · obtain ⟨rfl, rfl, -⟩ := comes_sfsRmdir h
        exact ⟨rfl, h₀.2⟩
      · exact h.elim
    · have h₁ := (Asks.sure (E := dirEnv) Counts.step hremove h₀ _ _ hout).2
      rcases comes_checkedDir h with h | ⟨v, hout, h⟩
      · exact (dull_lift _ _ _ _ h).elim
      · have h₂ := (Asks.sure (E := dirEnv) Counts.step (spared_renameReplicas hxy) h₁ _ _ hout).2
        have hadd : ∀ id, Dull (do
            let replicaId ← if id = -1 then dispatchInt N else pure id
            lift (inRange N replicaId (simpleAddDirEntry y))) := by
          intro id
          split
          · exact ((dull_lift _).bind fun _ => dull_ret _).bind fun _ => dull_lift _
          · exact dull_lift _
        obtain ⟨rfl, rfl⟩ := comes_firstNormalDirId hadd h
        exact ⟨rfl, h₂.2⟩
  · rcases h with ⟨h, -⟩ | ⟨_, _, -, h⟩
    · cases h
    · exact h.elim

/-- The other calls look at the count first. -/
theorem uses_guarded {o : Op} (ho : ∀ x y, o ≠ .renameDir x y)
    (h : Uses N o s z t) : t.Has z (·.normalDirCount ≠ 0) := by
  cases o with
  | mkdir x =>
    obtain ⟨rfl, rfl, hcount⟩ := comes_sfsMkdir h
    exact hcount
  | rmdir x =>
    rcases h with ⟨h, -⟩ | ⟨_, u, rfl, h⟩
    · cases h
    rcases comes_checkedDir h with h | ⟨u, -, h⟩
    · obtain ⟨rfl, rfl, hcount⟩ := comes_sfsRmdir h
      exact hcount
    · exact (((dull_lift _).bind fun _ => dull_ret _) _ _ _ h).elim
  | renameDir x y => exact absurd rfl (ho x y)
  | lookup | create | link | unlink | rename =>
    exact (dull_lift _ _ _ _ h).elim

end Uses

/-- The values of `first_normal_dir_id` that a call uses are normal partitions of the directory,
    EXACTLY when the call is no rename of a directory to a parent without a normal replica. -/
theorem first_meaningful_iff {N : Nat} (hN : 0 < N) {s : Sys} (hs : Reach N s)
    {o : Op} (ho : o.Ready s) :
    (∀ z t v, Uses N o s z t → t.FirstIs z v → Meaningful N t z v) ↔
      ∀ x y t, o = .renameDir x y → Uses N o s y.tail t →
        s.Has y.tail (·.normalDirCount ≠ 0) := by
  have hh := hs.honest hN
  -- where a call comes by, all dentries are honest
  have hmid : ∀ {z t}, Uses N o s z t → AllHonest N t := fun hu =>
    (Asks.comes (E := dirEnv) AllHonest.step (keptDir_code hN o) hh hu).2
  have hiff : ∀ {z t}, Uses N o s z t → t.Has z (fun _ => True) →
      ((∀ v, t.FirstIs z v → Meaningful N t z v) ↔ t.Has z (·.normalDirCount ≠ 0)) := by
    rintro z t hu ⟨d, hd, -⟩
    rw [meaningful_iff hd (hmid hu z d hd)]
    constructor
    · exact fun h0 => ⟨d, hd, h0⟩
    · rintro ⟨e, he, h0⟩
      obtain rfl := mem_unique hd he
      exact h0
  constructor
  · rintro hall x y t rfl hu
    obtain ⟨⟨hxy, -⟩, -, ⟨hy, d, hd, -⟩, -⟩ := ho
    obtain ⟨-, e, he, hcount⟩ := uses_renameDir hh hy hxy hd hu
    obtain ⟨e', he', h0⟩ := (hiff hu ⟨e, he, trivial⟩).mp (fun v hv => hall _ t v hu hv)
    obtain rfl := mem_unique he he'
    exact ⟨d, hd, fun hz => h0 (hcount.trans hz)⟩
  · intro hcond z t v hu hv
    obtain ⟨d, hd, -⟩ := id hv
    refine (hiff hu ⟨d, hd, trivial⟩).mpr ?_ v hv
    by_cases hren : ∃ x y, o = .renameDir x y
    · obtain ⟨x, y, rfl⟩ := hren
      obtain ⟨⟨hxy, -⟩, -, ⟨hy, e, he, -⟩, -⟩ := ho
      obtain ⟨rfl, e', he', hcount⟩ := uses_renameDir hh hy hxy he hu
      obtain ⟨e'', he'', h0⟩ := hcond x y t rfl hu
      obtain rfl := mem_unique he he''
      exact ⟨e', he', fun hz => h0 (hcount.symm.trans hz)⟩
    · exact uses_guarded (fun x y h => hren ⟨x, y, h⟩) hu

/-! ## A directory without a normal replica

On one partition the directories `[0]` and `[1]` are made, and nothing in them.  Then
`[1]` is renamed to a name in `[0]`, whose field was never stored. -/

/-- The state after the two directories were made. -/
def twoDirs : Sys :=
  [Op.lookup [0], .mkdir [0], .lookup [1], .mkdir [1], .lookup [2, 0]].foldl
    (fun s o => s.after 1 noneLost o)
    (Sys.remount ⟨fun _ => none, unmarked, 0⟩ 1 noneLost)

theorem twoDirs_reach : Reach 1 twoDirs :=
  .afterAll (.remount (.boot unmarked)) (by decide)

/-- The state in which code uses the field for the first time. -/
def firstUse {α : Type} : DirCode α → Sys → Option (Path × Sys)
  | .ret _, _ => none
  | .ask (.firstNormal x) _, s => some (x, s)
  | .ask q k, s =>
    match dirHandler 0 noneLost q s with
    | none => none
    | some (a, t) => firstUse (k a) t

/-- What is computed is a use. -/
theorem comes_of_firstUse {α : Type} {c : DirCode α} {s t : Sys} {x : Path}
    (h : firstUse c s = some (x, t)) :
    Comes dirEnv c s (.firstNormal x) t := by
  induction c generalizing s with
  | ret a => cases h
  | ask q k ih =>
    by_cases hq : ∃ y, q = .firstNormal y
    · obtain ⟨y, rfl⟩ := hq
      cases h
      exact .inl ⟨rfl, rfl⟩
    · have hstep : firstUse (.ask q k) s
          = (dirHandler 0 noneLost q s).bind (fun r => firstUse (k r.1) r.2) := by
        cases q with
        | firstNormal y => exact absurd ⟨y, rfl⟩ hq
        | _ =>
          rw [firstUse]
          · cases dirHandler 0 noneLost _ s <;> rfl
          · exact nofun
      rw [hstep] at h
      obtain ⟨⟨a, u⟩, ha, hk⟩ := bind_eq_some_iff.mp h
      exact .inr ⟨a, u, dirEnv_of_dirHandler ha, ih a hk⟩

/-- The field of `[0]` is used with nothing stored in it and no normal replica. -/
theorem twoDirs_use : (firstUse ((Op.renameDir [1] [2, 0]).code 1) twoDirs).map (fun r =>
      (r.1, decide (r.2.Has [0] (fun d =>
        d.firstNormalDirId = none ∧ d.normalDirMap 0 = false))))
      = some ([0], true) := by decide

/-- Any integer may be used, and none is a normal partition. -/
theorem renameDir_uses_junk : ∃ s t, Reach 1 s ∧ (Op.renameDir [1] [2, 0]).Ready s
      ∧ Uses 1 (.renameDir [1] [2, 0]) s [0] t
      ∧ ∀ v, t.FirstIs [0] v ∧ ¬ Meaningful 1 t [0] v := by
  obtain ⟨⟨x, t⟩, huse, hr⟩ := map_eq_some_iff.mp twoDirs_use
  obtain ⟨rfl, hhas⟩ := Prod.mk.inj hr
  obtain ⟨d, hd, hnone, hmap⟩ := of_decide_eq_true hhas
  refine ⟨twoDirs, t, twoDirs_reach, by decide, comes_of_firstUse huse,
    fun v => ⟨⟨d, hd, ?_⟩, ?_⟩⟩
  · intro f hf
    cases hnone.symm.trans hf
  · rintro ⟨e, he, f, -, hf, hbit⟩
    obtain rfl := mem_unique hd he
    obtain rfl : f = 0 := by omega
    cases hmap.symm.trans hbit

/-- The rename of `[1]` to `[2]` goes by a normal partition of the root, to which both belong. -/
theorem twoDirs_renameDir_meaningful : ∃ s, Reach 1 s ∧ (Op.renameDir [1] [2]).Ready s
      ∧ (∃ t, Uses 1 (.renameDir [1] [2]) s [] t)
      ∧ ∀ z t v, Uses 1 (.renameDir [1] [2]) s z t → t.FirstIs z v →
        Meaningful 1 t z v := by
  have hr : Reach 1 (twoDirs.after 1 noneLost (.lookup [2])) :=
    .after twoDirs_reach (by decide)
  have huse : (firstUse ((Op.renameDir [1] [2]).code 1)
      (twoDirs.after 1 noneLost (.lookup [2]))).map Prod.fst = some [] := by decide
  obtain ⟨⟨_, t⟩, hfirst, rfl⟩ := map_eq_some_iff.mp huse
  refine ⟨_, hr, by decide, ⟨t, comes_of_firstUse hfirst⟩, ?_⟩
  refine (first_meaningful_iff (by decide) hr (by decide)).mpr fun x y t ho _ => ?_
  cases ho
  decide

end Sfs
