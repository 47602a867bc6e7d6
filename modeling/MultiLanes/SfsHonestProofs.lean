import MultiLanes.SfsDirProofs

/-! # SFS — what every dentry keeps

A dentry is `Honest` when what it says of partitions is about partitions that exist, and
`first_normal_dir_id` is one of its normal ones as soon as `normal_dir_count` is not
zero.  Most of the code only fills slots, and stores the ids of the names it works on:
such requests are `Tame`, and a function whose requests are all tame keeps whatever tame
requests keep. -/

namespace Sfs

open InteractProg Function

variable {N : Nat}

/-- What holds of every dentry. -/
structure Honest (N : Nat) (d : SfsDentry) : Prop where
  slots : ∀ p, N ≤ p → d.replicas p = none
  replicaId : ∀ p, d.replicaId = some p → p < N
  metaId : ∀ p, d.metaId = some p → p < N
  map : ∀ p, d.normalDirMap p = true → p < N
  empty : d.normalDirCount = 0 → ∀ p, d.normalDirMap p = false
  first : d.normalDirCount ≠ 0 → ∃ f, d.firstNormalDirId = some f ∧ d.normalDirMap f = true
  counter : d.localCounter < N

/-- What a dentry says of the normal partitions. -/
def SameMap (d d' : SfsDentry) : Prop :=
  d'.normalDirMap = d.normalDirMap ∧ d'.normalDirCount = d.normalDirCount
    ∧ d'.firstNormalDirId = d.firstNormalDirId

/-- Only slots were stored, and none was cleared. -/
structure Filled (d d' : SfsDentry) : Prop where
  map : SameMap d d'
  positive : d'.positive = d.positive
  replicaId : d'.replicaId = d.replicaId
  counter : d'.localCounter = d.localCounter
  slots : ∀ p, d.replicas p ≠ none → d'.replicas p ≠ none

/-- What is stored in the dentry of a name: its bits stay, or all go. -/
def Retained (d d' : SfsDentry) : Prop :=
  (SameMap d d' ∧ (d'.replicaId = none → d.replicaId = none))
    ∨ (d'.normalDirCount = 0 ∧ ∀ p, d'.normalDirMap p = false)

/-- The requests of most of the code, on the names `U`. -/
def Tame (N : Nat) (U : Path → Prop) : SfsReq → Prop
  | .modD z f => ∀ d, Honest N d →
      Honest N (f d) ∧ (Filled d (f d) ∨ U z ∧ Retained d (f d))
  | .setD _ _ => False
  | .moveD _ _ => False
  | .setNormal _ _ => False
  | .rmdir _ _ => False
  | _ => True

/-- What the answers are taken to be. -/
def Told (N : Nat) : (q : SfsReq) → q.Ans → Prop
  | .sfsD _, d => Honest N d
  | _, _ => True

/-- Code whose requests are tame. -/
abbrev Tamed {α : Type} (N : Nat) (U : Path → Prop) (R : α → Prop)
    (c : Code α) : Prop := Asks (S := SfsSig) (Tame N U) (Told N) R c

/-- The result does not matter. -/
abbrev any {α : Type} (_ : α) : Prop := True

/-! ## Stores -/

section Stores

variable {d d' : SfsDentry} {p : Nat}

/-- A new dentry. -/
theorem honest_fresh (hN : 0 < N) : Honest N SfsDentry.fresh where
  slots _ _ := rfl
  replicaId := nofun
  metaId := nofun
  map := nofun
  empty _ _ := rfl
  first h := absurd rfl h
  counter := hN

/-- `clean_sfs_dentry`. -/
theorem Honest.clean (h : Honest N d) : Honest N d.clean where
  slots _ _ := rfl
  replicaId := nofun
  metaId := nofun
  map := nofun
  empty _ _ := rfl
  first h := absurd rfl h
  counter := Nat.zero_lt_of_lt h.counter

/-- A slot is stored. -/
theorem Honest.setReplica (h : Honest N d) (hp : p < N) (r : Option Replica) :
    Honest N (d.setReplica p r) where
  slots q hq := by
    have hne : q ≠ p := by omega
    show update d.replicas p r q = none
    rw [update_of_ne hne]
    exact h.slots q hq
  replicaId := h.replicaId
  metaId := h.metaId
  map := h.map
  empty := h.empty
  first := h.first
  counter := h.counter

/-- It is not cleared. -/
theorem filled_setReplica (d : SfsDentry) (p : Nat) (r : Replica) :
    Filled d (d.setReplica p (some r)) where
  map := ⟨rfl, rfl, rfl⟩
  positive := rfl
  replicaId := rfl
  counter := rfl
  slots q hq := by
    show update d.replicas p (some r) q ≠ none
    by_cases hqp : q = p
    · rw [hqp, update_self]
      exact nofun
    · rw [update_of_ne hqp]
      exact hq

/-- A partition is counted as normal. -/
theorem Honest.addNormal (h : Honest N d) (hp : p < N) {f : Option Nat}
    (hf : ∃ q, f = some q ∧ (q = p ∨ d.normalDirMap q = true)) :
    Honest N { d.addNormal p with firstNormalDirId := f } where
  slots := h.slots
  replicaId := h.replicaId
  metaId := h.metaId
  map q hq := by
    by_cases hqp : q = p
    · rw [hqp]
      exact hp
    · refine h.map q ?_
      rw [← hq]
      exact (update_of_ne hqp ..).symm
  empty h0 := absurd h0 (Nat.succ_ne_zero _)
  first _ := by
    obtain ⟨q, rfl, hq⟩ := hf
    refine ⟨q, rfl, ?_⟩
    show update d.normalDirMap p true q = true
    by_cases hqp : q = p
    · rw [hqp, update_self]
    · rw [update_of_ne hqp]
      exact hq.resolve_left hqp
  counter := h.counter

/-- The first normal partition once `p` is one. -/
theorem Honest.first_turned (h : Honest N d) (p : Nat) :
    ∃ q, (d.turnNormal p).firstNormalDirId = some q ∧ (q = p ∨ d.normalDirMap q = true) := by
  by_cases h0 : d.normalDirCount = 0
  · exact ⟨p, if_pos h0, .inl rfl⟩
  · obtain ⟨f, hf, hmap⟩ := h.first h0
    exact ⟨f, (if_neg h0).trans hf, .inr hmap⟩

/-- `set_normal_dir`. -/
theorem Honest.turnNormal (h : Honest N d) (hp : p < N) :
    Honest N (d.turnNormal p) := h.addNormal hp (h.first_turned p)

/-- `replica_id` and `meta_id` are stored. -/
theorem Honest.withIds (h : Honest N d) {a b : Option Nat} {c : Bool}
    (ha : ∀ p, a = some p → p < N) (hb : ∀ p, b = some p → p < N) :
    Honest N { d with replicaId := a, metaId := b, positive := c } :=
  ⟨h.slots, ha, hb, h.map, h.empty, h.first, h.counter⟩

theorem Honest.withCounter (h : Honest N d) {c : Nat} (hc : c < N) :
    Honest N { d with localCounter := c } :=
  ⟨h.slots, h.replicaId, h.metaId, h.map, h.empty, h.first, hc⟩

end Stores

/-! ## Tame code -/

section Code

variable {U : Path → Prop} {α : Type} {x y : Path} {p : Nat}
  {c k : Code Int} {parent : Option Replica}

theorem tamed_ret {R : α → Prop} {a : α} (h : R a) : Tamed N U R (pure a) := h

theorem tamed_oops {R : α → Prop} : Tamed N U R oops := ⟨trivial, nofun⟩

theorem tamed_spin {R : α → Prop} : Tamed N U R spin := ⟨trivial, nofun⟩

/-- The pointer is not null after it. -/
theorem tamed_deref {o : Option α} : Tamed N U (fun a => o = some a) (deref o) := by
  cases o with
  | none => exact tamed_oops
  | some a => exact tamed_ret rfl

/-- Code after a test for an error. -/
theorem Asks.checked {G : SfsReq → Prop} {A : (q : SfsReq) → q.Ans → Prop}
    (hc : Asks (S := SfsSig) G A any c) (hk : Asks (S := SfsSig) G A any k) :
    Asks (S := SfsSig) G A any (checked c k) := by
  refine .bind hc fun err _ => ?_
  split
  · trivial
  · exact hk

/-- A store in the dentry of a name. -/
theorem tamed_modD {f : SfsDentry → SfsDentry} (hx : U x)
    (hf : ∀ d, Honest N d → Honest N (f d) ∧ Retained d (f d)) :
    Tamed N U any (modD x f) := by
  refine ⟨fun d hd => ?_, fun _ _ => trivial⟩
  obtain ⟨h₁, h₂⟩ := hf d hd
  exact ⟨h₁, .inr ⟨hx, h₂⟩⟩

/-- A slot that is not null is in range. -/
theorem tamed_findReplicaDentry :
    Tamed N U (fun r => r ≠ none → p < N) (findReplicaDentry x p) := by
  refine ⟨trivial, fun d hd hr => ?_⟩
  by_contra hp
  exact hr (Honest.slots hd p (Nat.not_lt.mp hp))

theorem tamed_storeReplica (hp : p < N) (r : Replica) : Tamed N U any (storeReplica x p (some r)) :=
  ⟨fun d hd => ⟨hd.setReplica hp _, .inl (filled_setReplica d p r)⟩, fun _ _ => trivial⟩

theorem tamed_dAddReplica (hp : p < N) (r : Replica) : Tamed N U any (dAddReplica x p r) := by
  refine .bind tamed_findReplicaDentry fun o _ => ?_
  cases o with
  | none => exact tamed_storeReplica hp r
  | some _ => trivial

/-- A slot that is returned is in range: it was there, or the parent is. -/
theorem tamed_getReplicaDentry (hp : parent ≠ none → p < N) :
    Tamed N U (fun _ => p < N) (getReplicaDentry parent x p) := by
  refine .bind tamed_findReplicaDentry fun o ho => ?_
  cases o with
  | some r => exact tamed_ret (ho nofun)
  | none =>
    refine .bind tamed_deref fun i hi => ?_
    have hpN : p < N := hp (by rintro rfl; exact nomatch hi)
    refine .perform trivial fun i _ => ?_
    exact .bind (tamed_dAddReplica hpN _) fun _ _ => tamed_ret hpN

theorem tamed_setReplicaId (hx : U x) (hp : p < N) : Tamed N U any (setReplicaId x (some p)) := by
  refine tamed_modD hx fun d hd =>
    ⟨hd.withIds ?_ hd.metaId, .inl ⟨⟨rfl, rfl, rfl⟩, nofun⟩⟩
  rintro _ ⟨⟩
  exact hp

theorem tamed_setMetaId (hx : U x) {m : Option Nat}
    (hm : ∀ p, m = some p → p < N) : Tamed N U any (setMetaId x m) :=
  tamed_modD hx fun _ hd =>
    ⟨hd.withIds hd.replicaId hm, .inl ⟨⟨rfl, rfl, rfl⟩, id⟩⟩

theorem tamed_instantiate (hx : U x) (b : Bool) : Tamed N U any (instantiate x b) :=
  tamed_modD hx fun _ hd =>
    ⟨hd.withIds hd.replicaId hd.metaId, .inl ⟨⟨rfl, rfl, rfl⟩, id⟩⟩

theorem tamed_cleanDentry (hx : U x) : Tamed N U any (cleanDentry x) :=
  tamed_modD hx fun _ hd => ⟨hd.clean, .inr ⟨rfl, fun _ => rfl⟩⟩

/-- The slot of a file is in range. -/
theorem tamed_fileOf : Tamed N U (fun _ => p < N) (fileOf x p) := by
  refine .bind tamed_findReplicaDentry fun o ho => ?_
  split
  · next h =>
    refine tamed_ret (ho ?_)
    rintro rfl
    cases h
  · exact tamed_oops

theorem tamed_get : Tamed N U (fun _ => p < N) (get x p) :=
  .bind tamed_fileOf fun _ hp => ⟨trivial, fun _ _ => hp⟩

theorem tamed_put (a : Ptrs) : Tamed N U any (put x p a) :=
  .bind tamed_fileOf fun _ _ => ⟨trivial, fun _ _ => trivial⟩

theorem tamed_modify (f : Ptrs → Ptrs) : Tamed N U any (modify x p f) :=
  .bind tamed_fileOf fun _ _ => ⟨trivial, fun _ _ =>
    ⟨trivial, fun _ _ => trivial⟩⟩

/-- A slot is made negative, and not null. -/
theorem tamed_simpleUnlinkNotPut : Tamed N U any (simpleUnlinkNotPut parent x p) := by
  refine .bind tamed_deref fun _ _ => ?_
  refine .bind tamed_findReplicaDentry fun o ho => ?_
  refine .bind tamed_deref fun r hr => ?_
  have hp : p < N := ho (by rw [hr]; exact nofun)
  refine .bind tamed_deref fun _ _ => .perform trivial fun err _ => ?_
  exact .bind (.onlyIf fun _ => tamed_storeReplica hp _) fun _ _ => trivial

/-! ### `validate_partitioned_file` -/

/-- `find_replica_dentry(parent, id)` and `get_replica_dentry` with it. -/
theorem tamed_remote {β : Type} {R : β → Prop} {f : Option Replica → Replica → Code β}
    (hf : ∀ parent r, p < N → Tamed N U R (f parent r)) :
    Tamed N U R (do
      let parent ← findReplicaDentry x.tail p
      let remote ← getReplicaDentry parent x p
      f parent remote) :=
  .bind tamed_findReplicaDentry fun parent hp =>
    .bind (tamed_getReplicaDentry hp) fun r hr => hf parent r hr

theorem tamed_unlinkIfThere : Tamed N U any (unlinkIfThere x p) := by
  refine tamed_remote fun parent r _ => ?_
  split
  · exact tamed_simpleUnlinkNotPut
  · trivial

theorem tamed_unlinkPointed (a : Option Ptrs) : Tamed N U any (unlinkPointed x a) := by
  unfold unlinkPointed
  split
  · exact tamed_unlinkIfThere
  · trivial

theorem tamed_localUnlink : Tamed N U any (do
      let localParent ← findReplicaDentry x.tail p
      simpleUnlinkNotPut localParent x p) :=
  .bind tamed_findReplicaDentry fun _ _ => tamed_simpleUnlinkNotPut

section

variable (hx : U x) (hp : p < N)
include hx hp

/-- The file is its own data file. -/
theorem tamed_settle (hk : Tamed N U any k) : Tamed N U any (do
      setReplicaId x (some p)
      k) :=
  Asks.bind (tamed_setReplicaId hx hp) fun _ _ => hk

/-- Condition 0. -/
theorem tamed_validateStale (q : Nat) :
    Tamed N U any (validateStale x p q) := by
  refine tamed_remote fun parent r _ => ?_
  refine Asks.checked ?_ (Asks.checked (tamed_put _) (tamed_settle hx hp trivial))
  split
  · exact Asks.bind tamed_get fun a _ =>
      Asks.checked (tamed_unlinkPointed a) tamed_simpleUnlinkNotPut
  · trivial

/-- Condition 1. -/
theorem tamed_validateHidden (a : Ptrs)
    (hk : Tamed N U any k) : Tamed N U any (validateHidden x p a k) := by
  unfold validateHidden
  split
  · exact hk
  · refine tamed_remote fun parent r hr => ?_
    split
    · exact Asks.checked (tamed_unlinkPointed _) <|
        Asks.checked tamed_localUnlink <| Asks.checked (tamed_put _) <|
          .bind (tamed_dAddReplica hr r) fun _ _ =>
            tamed_settle hx hr trivial
    · exact Asks.checked (tamed_modify _) (tamed_settle hx hp hk)

/-- The data file is the remote one, and the local one is the meta file. -/
theorem tamed_settleRemote {q : Nat} (hq : q < N) (r : Replica) :
    Tamed N U any (do
      dAddReplica x q r
      setReplicaId x (some q)
      setMetaId x (some p)
      return (0 : Int)) := by
  refine .bind (tamed_dAddReplica hq r) fun _ _ => tamed_settle hx hq ?_
  refine .bind (tamed_setMetaId hx ?_) fun _ _ => trivial
  rintro _ ⟨⟩
  exact hp

/-- Condition 2. -/
theorem tamed_validateRename (a : Ptrs)
    (hk : Tamed N U any k) : Tamed N U any (validateRename x p a k) := by
  unfold validateRename
  split
  · exact hk
  · split
    · exact Asks.checked (tamed_put _) (tamed_settle hx hp trivial)
    · refine tamed_remote fun parent r hr => ?_
      split
      · exact Asks.checked (tamed_unlinkPointed _) <|
          Asks.checked (tamed_put _) (tamed_settleRemote hx hp hr r)
      · exact Asks.checked (tamed_modify _) hk

/-- Condition 3. -/
theorem tamed_validatePointer (a : Ptrs) :
    Tamed N U any (validatePointer x p a) := by
  unfold validatePointer
  split
  · exact tamed_settle hx hp trivial
  · refine tamed_remote fun parent r hr => ?_
    split
    · exact tamed_localUnlink
    · refine Asks.bind tamed_get fun b _ => Asks.checked ?_ (tamed_settleRemote hx hp hr r)
      split
      · trivial
      · exact tamed_put _

end

theorem tamed_validatePartitionedFile (hx : U x) : Tamed N U any (validatePartitionedFile x p) := by
  refine .bind tamed_get fun a hp => ?_
  split
  · exact tamed_settle hx hp trivial
  · split
    · exact tamed_validateStale hx hp _
    · exact tamed_validateHidden hx hp _ <| tamed_validateRename hx hp _ <|
        tamed_validatePointer hx hp _

theorem tamed_validateFile (hx : U x) : Tamed N U any (validateFile x) :=
  .perform trivial fun _ _ => .bind tamed_deref fun _ _ =>
    tamed_validatePartitionedFile hx

/-! ### Lookups, branches and files -/

/-- One partition in a lookup. -/
theorem tamed_probe (full : Bool) (hp : p < N) : Tamed N U any (probe x full p) := by
  refine .perform trivial fun parent _ => ?_
  split
  · trivial
  · split
    · trivial
    · refine .perform trivial fun d _ => ?_
      split
      · trivial
      · refine .perform trivial fun i _ => ?_
        split
        · trivial
        · exact .bind (tamed_dAddReplica hp _) fun _ _ => trivial

theorem tamed_foundFile (hx : U x) : Tamed N U any (foundFile x p) := by
  refine .bind (tamed_validatePartitionedFile hx) fun err _ => ?_
  split
  · exact .bind (tamed_cleanDentry hx) fun _ _ => trivial
  · exact .perform trivial fun _ _ => trivial

/-- By induction on the path. -/
theorem tamed_sfsCloneBranch (hp : p < N) : ∀ x, Tamed N U any (sfsCloneBranch p x) := by
  intro x
  induction x with
  | nil =>
    refine .bind tamed_findReplicaDentry fun o _ => ?_
    split
    · exact tamed_spin
    · exact .bind tamed_deref fun _ _ => trivial
  | cons a A ih =>
    refine .bind tamed_findReplicaDentry fun o _ => ?_
    split
    · trivial
    · refine .bind ih fun r _ => ?_
      split
      · trivial
      · refine .bind (tamed_getReplicaDentry fun _ => hp) fun r _ => ?_
        split
        · trivial
        · refine .perform trivial fun err _ => ?_
          split
          · trivial
          · exact .bind (tamed_storeReplica hp _) fun _ _ => trivial

theorem tamed_replicaBranch (hp : p < N) : Tamed N U any (replicaBranch x p) := by
  refine .bind tamed_findReplicaDentry fun o _ => ?_
  split
  · trivial
  · exact tamed_sfsCloneBranch hp x

/-- A directory that is only cloned. -/
theorem tamed_createReplicaDir_shadow (hp : p < N) :
    Tamed N U any (createReplicaDir x p false) := by
  refine .bind (tamed_replicaBranch hp) fun r _ => ?_
  split <;> trivial

/-- The partition is in range. -/
theorem tamed_dispatch (hN : 0 < N) : Tamed N U (· < N) (dispatch N) := by
  unfold dispatch
  split
  · exact tamed_ret hN
  · refine .perform trivial fun n _ => ?_
    refine .bind (.onlyIf fun _ => ?_) fun _ _ => ?_
    · exact ⟨trivial, fun _ _ => trivial⟩
    · exact tamed_ret (Nat.mod_lt _ hN)

/-- And not in the map. -/
theorem tamed_dispatchFree (hN : 0 < N) (m : Nat → Bool) (n : Nat) :
    Tamed N U (fun r => r < N ∧ m r = false) (dispatchFree N m n) := by
  induction n with
  | zero => exact tamed_spin
  | succ n ih =>
    refine .bind (tamed_dispatch hN) fun r hr => ?_
    split
    · exact ih
    · next h => exact tamed_ret ⟨hr, by simpa using h⟩

theorem tamed_createReplica (hp : p < N) : Tamed N U any (createReplica parent x p) := by
  refine .bind tamed_deref fun _ _ => .perform trivial fun r _ => ?_
  split
  · trivial
  · exact .bind (tamed_storeReplica hp _) fun _ _ => trivial

theorem tamed_linkReplica (hp : p < N) : Tamed N U any (linkReplica parent x y p) := by
  refine .bind tamed_findReplicaDentry fun o _ => ?_
  refine .bind tamed_deref fun r _ => ?_
  refine .bind tamed_deref fun i _ => ?_
  refine .bind tamed_deref fun _ _ => .perform trivial fun err _ => ?_
  exact .bind (.onlyIf fun _ => tamed_storeReplica hp _) fun _ _ => trivial

theorem tamed_canTurn2normal : Tamed N U any (canTurn2normal N x p) :=
  ⟨trivial, fun _ _ => trivial⟩

theorem tamed_unlinkSlot : Tamed N U any (unlinkSlot x p) :=
  .bind tamed_findReplicaDentry fun _ _ =>
    .bind tamed_deref fun _ _ => tamed_simpleUnlinkNotPut

theorem tamed_sfsUnlink (hx : U x) : Tamed N U any (sfsUnlink x) := by
  refine Asks.checked (tamed_validateFile hx) (Asks.perform trivial fun d _ => ?_)
  refine Asks.bind tamed_deref fun o _ => Asks.checked ?_
    (.bind (tamed_cleanDentry hx) fun _ _ => trivial)
  split
  · exact Asks.checked tamed_unlinkSlot tamed_unlinkSlot
  · exact tamed_unlinkSlot

/-! ### `rename.c` -/

/-- Both slots are stored, none is cleared. -/
theorem tamed_renameReplica : Tamed N U any (renameReplica parent x y p) := by
  refine .bind tamed_deref fun _ _ => ?_
  refine .bind tamed_findReplicaDentry fun o ho => ?_
  refine .bind tamed_deref fun r hr => ?_
  have hp : p < N := ho (by rw [hr]; exact nofun)
  refine .bind tamed_findReplicaDentry fun _ _ => ?_
  refine .bind tamed_deref fun _ _ => .perform trivial fun err _ => ?_
  refine .bind (.onlyIf fun _ => ?_) fun _ _ => trivial
  exact .bind (tamed_storeReplica hp _) fun _ _ => tamed_storeReplica hp _

/-- A slot of an own name, which may be cleared. -/
theorem tamed_exchange (hx : U x) (hp : p < N) (r : Option Replica) :
    Tamed N U any (storeReplica x p r) :=
  tamed_modD hx fun _ hd => ⟨hd.setReplica hp r, .inl ⟨⟨rfl, rfl, rfl⟩, id⟩⟩

/-- The slots of the two names are exchanged. -/
theorem tamed_sfsDMove (hx : U x) (hy : U y) (o : Nat) {ps : List Nat}
    (hps : ∀ p ∈ ps, p < N) : Tamed N U any (sfsDMove x y o ps) := by
  induction ps with
  | nil => trivial
  | cons p ps ih =>
    have hp := hps p (.head _)
    refine .bind (.onlyIf fun _ => ?_) fun _ _ => ih fun q hq => hps q (.tail _ hq)
    refine .bind tamed_findReplicaDentry fun tmp _ => ?_
    refine .bind tamed_findReplicaDentry fun target _ => ?_
    exact .bind (tamed_exchange hx hp _) fun _ _ => tamed_exchange hy hp _

/-- The meta file goes, if there is one. -/
theorem tamed_dropMeta {m : Option Nat} {delete : Nat → Code Int}
    (h : ∀ p, Tamed N U any (delete p)) : Tamed N U any (dropMeta m delete) := by
  cases m with
  | none => trivial
  | some p => exact .bind (h p) fun _ _ => trivial

theorem forall_mem_range : ∀ p ∈ List.range N, p < N :=
  fun _ hp => List.mem_range.mp hp

/-- `out:` of `rename2non`. -/
theorem tamed_finish2non (hx : U x) (hy : U y) (o : Nat) (m : Option Nat) :
    Tamed N U any (finish2non N x y o m) :=
  .bind (tamed_dropMeta fun _ => tamed_unlinkSlot) fun _ _ =>
    .bind (tamed_sfsDMove hx hy o forall_mem_range) fun _ _ => trivial

/-- `out:` of `rename2exist`. -/
theorem tamed_finish2exist (hx : U x) (hy : U y) (o : Nat) (m : Option Nat) :
    Tamed N U any (finish2exist N x y o m parent) :=
  .bind (tamed_dropMeta fun _ => tamed_simpleUnlinkNotPut) fun _ _ =>
    .bind (tamed_sfsDMove hx hy o forall_mem_range) fun _ _ => trivial

/-- A store of links whose error is dropped. -/
theorem tamed_putAnyway (hc : Tamed N U any c) (hk : Tamed N U any k) : Tamed N U any (do
      let _ ← c
      k) := Asks.bind hc fun _ _ => hk

theorem tamed_rename2nonTurn (hx : U x) (hy : U y) (o : Nat) (m : Option Nat) :
    Tamed N U any (rename2nonTurn N x y o m parent) := by
  refine Asks.checked ?_ (Asks.checked tamed_renameReplica ?_)
  · split
    · exact tamed_put _
    · trivial
  · refine Asks.bind (Asks.onlyIf fun _ =>
      Asks.bind (tamed_put _) fun _ _ => trivial) fun _ _ => ?_
    exact Asks.bind (tamed_setMetaId hx nofun) fun _ _ =>
      tamed_finish2non hx hy o m

/-- `rename2non` once the partition of the new meta file is chosen. -/
theorem tamed_rename2nonMeta_rest (hx : U x) (hy : U y) (o : Nat) (m : Option Nat) (hp : p < N) :
    Tamed N U any (do
      let newMetaParent ← findReplicaDentry y.tail p
      let _ ← getReplicaDentry newMetaParent y p
      checked (createReplica newMetaParent y p) <| checked (put y p (pointerTo o)) <|
        checked (put x o (renameTo p)) <|
        checked (renameReplica parent x y o) do
          let _ ← put x o (pointerTo p)
          setMetaId x p
          finish2non N x y o m) := by
  refine tamed_remote fun metaParent r _ => ?_
  refine Asks.checked (tamed_createReplica hp) <| Asks.checked (tamed_put _) <|
    Asks.checked (tamed_put _) <| Asks.checked tamed_renameReplica <|
    Asks.bind (tamed_put _) fun _ _ =>
      Asks.bind (tamed_setMetaId hx ?_) fun _ _ => tamed_finish2non hx hy o m
  rintro _ ⟨⟩
  exact hp

/-- A deletion that goes to `out:` when it fails. -/
theorem tamed_orOut {delete out : Code Int} (hd : Tamed N U any delete)
    (ho : Tamed N U any out) (hk : Tamed N U any k) :
    Tamed N U any (orOut delete out k) := by
  refine Asks.bind hd fun err _ => ?_
  split
  · exact ho
  · exact hk

variable {out : Code Int} {existParent existMetaParent : Option Replica}
  {o e : Nat} {em : Option Nat}

/-- Condition 1.1. -/
theorem tamed_overwriteExist (hx : U x) (ho : Tamed N U any out) :
    Tamed N U any (overwriteExist x y o e em parent existParent out) := by
  have hunmask := tamed_putAnyway (tamed_put (x := x) (p := o) Ptrs.unset) ho
  refine Asks.checked (tamed_put _) (Asks.bind tamed_renameReplica fun err _ => ?_)
  split
  · exact Asks.bind (tamed_modify _) fun _ _ => trivial
  · refine Asks.bind (tamed_setMetaId hx nofun) fun _ _ => ?_
    split
    · exact tamed_orOut tamed_simpleUnlinkNotPut ho hunmask
    · exact hunmask

/-- Condition 1.2. -/
theorem tamed_hideExist (hx : U x) (ho : Tamed N U any out) :
    Tamed N U any (hideExist x y o e em parent existParent existMetaParent out) := by
  refine Asks.checked (tamed_put _) <| Asks.checked (tamed_put _) <|
    Asks.bind tamed_renameReplica fun err _ => ?_
  split
  · exact Asks.bind (tamed_modify _) fun _ _ =>
      Asks.bind (tamed_modify _) fun _ _ => trivial
  · refine Asks.bind (tamed_setMetaId hx nofun) fun _ _ => ?_
    have hdel : Tamed N U any (simpleUnlinkNotPut existParent y e) :=
      tamed_simpleUnlinkNotPut
    have hdata := tamed_orOut hdel ho (tamed_putAnyway (tamed_put (x := x) (p := o) Ptrs.unset) ho)
    split
    · exact hdata
    · exact tamed_orOut tamed_simpleUnlinkNotPut ho hdata

/-- Condition 2 of `rename2exist`. -/
theorem tamed_reuseExist (hx : U x) (ho : Tamed N U any out) (hm : em.getD e < N) :
    Tamed N U any (reuseExist x y o e em parent existParent out) := by
  refine Asks.checked (tamed_put _) <| Asks.checked (tamed_put _) <|
    Asks.checked tamed_renameReplica <| Asks.bind (tamed_setMetaId hx ?_)
    fun _ _ => ?_
  · rintro _ ⟨⟩
    exact hm
  · have hlink := tamed_putAnyway (tamed_put (x := x) (p := o) (pointerTo (em.getD e)))
      (tamed_putAnyway (tamed_put (x := y) (p := em.getD e) (pointerTo o)) ho)
    split
    · exact tamed_orOut tamed_simpleUnlinkNotPut ho hlink
    · exact hlink

theorem tamed_findMetaParent (m : Option Nat) : Tamed N U any (findMetaParent x m) := by
  cases m with
  | none => trivial
  | some m => exact Asks.mono tamed_findReplicaDentry fun _ _ => trivial

/-- The loop of `sfs_rename_dir`. -/
theorem tamed_renameReplicas (hx : U x) {ps : List Nat}
    (hps : ∀ p ∈ ps, p < N) : Tamed N U any (renameReplicas x y ps) := by
  induction ps with
  | nil => trivial
  | cons p ps ih =>
    have hp := hps p (.head _)
    have hrest := ih fun q hq => hps q (.tail _ hq)
    refine .bind tamed_findReplicaDentry fun o _ => ?_
    split
    · refine .bind tamed_findReplicaDentry fun o _ => ?_
      refine .bind tamed_deref fun oldParent _ => ?_
      split
      · trivial
      · refine .bind (tamed_createReplicaDir_shadow hp) fun r _ => ?_
        split
        · exact tamed_oops
        · exact .bind (tamed_getReplicaDentry fun _ => hp) fun _ _ =>
            .bind tamed_renameReplica fun _ _ => hrest
    · exact .bind (tamed_exchange hx hp none) fun _ _ => hrest

end Code

end Sfs
