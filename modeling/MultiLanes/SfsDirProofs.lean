import MultiLanes.SfsEnvProofs
import MultiLanes.SfsRenameProofs

/-! # SFS — directories, and the calls of the VFS

`sfs_mkdir`, `sfs_rmdir` and `sfs_rename_dir` go by a field of the parent,
`first_normal_dir_id`, that no function initialises.  Here its use is a request of its
own (`DirReq.firstNormal`), answered by what was stored last and by any integer when
nothing was: so the code can be asked what it used.

`Op` are the calls of the VFS on a mounted SFS, `Op.Ready` is what the VFS has made sure
of before it makes them, and `Reach` are the states that they lead to, whatever
operation of a partition's file system fails on the way. -/

namespace Sfs

open InteractProg

/-! ## Requests -/

/-- The requests of the code for directories. -/
inductive DirReq where
  | sfs (q : SfsReq)
  /-- `SFS_D(dentry)->first_normal_dir_id` is used -/
  | firstNormal (x : Path)
  /-- `shrink_dcache_parent`: nothing below the dentry stays cached -/
  | shrink (x : Path)
  /-- `d_move(old, new)` of a directory, with all that is below it -/
  | moveTree (x y : Path)

@[reducible] def DirReq.Ans : DirReq → Type
  | .sfs q => q.Ans
  | .firstNormal _ => Int
  | .shrink _ => Unit
  | .moveTree _ _ => Unit

abbrev DirSig : Sig := ⟨DirReq, DirReq.Ans⟩

/-- Code of SFS that may use `first_normal_dir_id`. -/
abbrev DirCode (α : Type) : Type := Prog DirSig α

/-- Code that does not use it. -/
def lift {α : Type} (c : Code α) : DirCode α :=
  c.expand (fun q => perform (S := DirSig) (.sfs q))

def firstNormalDirId (x : Path) : DirCode Int :=
  perform (S := DirSig) (.firstNormal x)

def shrinkDcacheParent (x : Path) : DirCode Unit :=
  perform (S := DirSig) (.shrink x)

def moveTree (x y : Path) : DirCode Unit :=
  perform (S := DirSig) (.moveTree x y)

/-- `checked`, for such code. -/
def checkedDir (c k : DirCode Int) : DirCode Int := do
  let err ← c
  if err ≠ 0 then return err else k

/-! ## `sfs_mkdir` -/

def simpleAddDirEntry (x : Path) (p : Nat) : Code Int := do
  match ← createReplicaDir x.tail p true with
  | .error err => return err
  | .ok replicaParent =>
    let _ ← deref replicaParent.inode
    match ← findReplicaDentry x p with
    | some ⟨_, some _⟩ => return 0
    | _ =>
      let _ ← getReplicaDentry (some replicaParent) x p
      let err ← mkdir x p
      onlyIf (err = 0) (storeReplica x p (some ⟨x, some .dir⟩))
      return err

/-- A partition given by an `int`: outside of the array of replicas anything can happen. -/
def inRange {α : Type} (N : Nat) (id : Int) (c : Nat → Code α) : Code α :=
  if 0 ≤ id ∧ id < N then c id.toNat else oops

/-- `dispatch()`, as an `int`. -/
def dispatchInt (N : Nat) : DirCode Int := do
  let id ← lift (dispatch N)
  return id

/-- `sfs_mkdir`, which is `sfs_add_dir_entry`. -/
def sfsMkdir (N : Nat) (x : Path) : DirCode Int := do
  let parent ← lift (sfsD x.tail)
  let dispatchId ← if parent.normalDirCount = 0 then dispatchInt N
    else firstNormalDirId x.tail
  checkedDir (lift (inRange N dispatchId (simpleAddDirEntry x))) do
    lift (instantiate x true)
    return 0

/-! ## `sfs_rmdir` -/

/-- `i_op->rmdir` of the slot `p` and `d_delete`. -/
def rmdirReplica (x : Path) (p : Nat) (r : Replica) : Code Int := do
  let err ← rmdir r.path p
  onlyIf (err = 0) (storeReplica x p (some ⟨r.path, none⟩))
  return err

/-- The loop over the replicas; the one in `keep` is left for the end, `k`. -/
def rmdirOthers (x : Path) (keep : Int) (k : Int → Code Int) : List Nat → Int → Code Int
  | [], error => k error
  | p :: ps, error =>
    if p = keep then rmdirOthers x keep k ps error
    else do
      match ← findReplicaDentry x p with
      | some ⟨path, some i⟩ =>
        let error ← rmdirReplica x p ⟨path, some i⟩
        if error ≠ 0 then return error
        else rmdirOthers x keep k ps error
      | _ => rmdirOthers x keep k ps error

/-- The replica under the normal directory that keeps the name visible. -/
def rmdirLast (x : Path) (p : Nat) : Code Int := do
  match ← findReplicaDentry x p with
  | some ⟨path, some i⟩ =>
    checked (rmdirReplica x p ⟨path, some i⟩) do
      cleanDentry x
      return 0
  | _ => return eio

def sfsRmdir (N : Nat) (x : Path) : DirCode Int := do
  let parent ← lift (sfsD x.tail)
  let keep ← if parent.normalDirCount > 0 then firstNormalDirId x.tail else pure (-1)
  let finish (error : Int) : Code Int :=
    if keep < 0 then do
      cleanDentry x
      return error
    else inRange N keep (rmdirLast x)
  lift (rmdirOthers x keep finish (List.range N) enoent)

/-! ## `sfs_rename_dir` -/

/-- The loop of `sfs_rename_dir`.  What `i_op->rename` returns is not looked at;
    an error of `create_replica_dir` is taken for a dentry. -/
def renameReplicas (x y : Path) : List Nat → Code Int
  | [] => return 0
  | p :: ps => do
    match ← findReplicaDentry x p with
    | some ⟨_, some _⟩ =>
      let oldReplicaParent ← deref (← findReplicaDentry x.tail p)
      if oldReplicaParent.inode.isNone then return eio
      else
        match ← createReplicaDir y.tail p false with
        | .error _ => oops
        | .ok newReplicaParent =>
          let _ ← getReplicaDentry (some newReplicaParent) y p
          let _ ← renameReplica (some oldReplicaParent) x y p
          renameReplicas x y ps
    | _ =>
      storeReplica x p none
      renameReplicas x y ps

/-- The last part: an entry under a normal directory.  The field is compared
    with -1 and not `normal_dir_count` with 0. -/
def addNewEntry (N : Nat) (y : Path) : DirCode Int := do
  let id ← firstNormalDirId y.tail
  let replicaId ← if id = -1 then dispatchInt N else pure id
  lift (inRange N replicaId (simpleAddDirEntry y))

def sfsRenameDir (N : Nat) (x y : Path) : DirCode Int := do
  let new ← lift (sfsD y)
  let removeNew : DirCode Int := if new.positive then sfsRmdir N y else pure 0
  checkedDir removeNew <|
    checkedDir (lift (renameReplicas x y (List.range N))) (addNewEntry N y)

/-! ## The calls of the VFS -/

/-- A call, by the name or the names that it is made on. -/
inductive Op
  | lookup (z : Path)
  | create (z : Path)
  | mkdir (z : Path)
  | link (x y : Path)
  | unlink (z : Path)
  | rmdir (z : Path)
  | rename (x y : Path)
  | renameDir (x y : Path)
deriving DecidableEq, Repr

/-- The call of SFS, and what the VFS does to the dentries. -/
def Op.code (N : Nat) : Op → DirCode Int
  | .lookup z => lift (sfsLookup N z)
  | .create z => lift (sfsCreate N z)
  | .mkdir z => sfsMkdir N z
  | .link x y => lift (sfsLink N x y)
  | .unlink z => lift (checked (sfsUnlink z) do
      instantiate z false
      return 0)
  | .rmdir z => do
    shrinkDcacheParent z
    checkedDir (sfsRmdir N z) do
      lift (instantiate z false)
      return 0
  | .rename x y => lift (checked (sfsRenameOther N x y) do
      moveD x y
      return 0)
  | .renameDir x y => do
    shrinkDcacheParent y
    checkedDir (sfsRenameDir N x y) do
      moveTree x y
      return 0

/-- The dentry of a directory: only files get a `replica_id`. -/
def SfsDentry.OfDir (d : SfsDentry) : Prop :=
  d.positive = true ∧ d.replicaId = none

def SfsDentry.OfFile (d : SfsDentry) : Prop :=
  d.positive = true ∧ d.replicaId ≠ none

/-- There is a dentry of this kind in the cache. -/
def Sys.Has (s : Sys) (x : Path) (P : SfsDentry → Prop) : Prop :=
  ∃ d, s.mem x = some d ∧ P d

/-- `z` is a name in a directory. -/
def Sys.NameIn (s : Sys) (z : Path) : Prop :=
  z ≠ [] ∧ s.Has z.tail SfsDentry.OfDir

/-- What the VFS has made sure of. -/
def Op.Ready (s : Sys) : Op → Prop
  | .lookup z => s.NameIn z ∧ s.mem z = none
  | .create z => s.NameIn z ∧ s.Has z (·.positive = false)
  | .mkdir z => s.NameIn z ∧ s.Has z (·.positive = false)
  | .link x y =>
    s.Has x SfsDentry.OfFile ∧ s.NameIn y ∧ s.Has y (·.positive = false)
  | .unlink z => s.NameIn z ∧ s.Has z SfsDentry.OfFile
  | .rmdir z => s.NameIn z ∧ s.Has z SfsDentry.OfDir
  | .rename x y =>
    x ≠ y ∧ s.NameIn x ∧ s.NameIn y ∧ s.Has x SfsDentry.OfFile ∧ s.Has y (¬ ·.OfDir)
  | .renameDir x y =>
    (¬ x <:+ y ∧ ¬ y <:+ x) ∧ s.NameIn x ∧ s.NameIn y
      ∧ s.Has x SfsDentry.OfDir ∧ s.Has y (¬ ·.OfFile)

/-! ## Surroundings in which everything may fail -/

/-- The answer of an operation that has failed: a change is refused, a mark or a
    link is not read. -/
def SfsReq.Failed : (q : SfsReq) → q.Ans → Prop
  | .isNormal _ _, b => b = false
  | .getxattr _ _, r => r = none
  | q, a => q.Refused a

/-- Every operation of the partitions' file systems may fail. -/
def frail : Env SfsSig Sys := fun q s a t =>
  sysHandler q s = some (a, t) ∨ q.Failed a ∧ t = s

variable {s t : Sys}

/-- That covers every caller: what is kept from a caller counts as a failure. -/
theorem frail_of_caller {may : SfsReq → Bool} {q : SfsReq} {a : q.Ans}
    (h : callerHandler may q s = some (a, t)) : frail q s a t := by
  unfold callerHandler at h
  split at h
  · exact .inl h
  · split at h
    · next b hb =>
      obtain ⟨rfl, rfl⟩ := answer_inj h
      refine .inr ⟨?_, rfl⟩
      cases q with
      | isNormal x p | getxattr p i =>
        cases hb
        rfl
      | setNormal x p | setxattr p i v =>
        cases hb
        exact (by decide : eperm ≠ 0)
      | _ => cases hb
    · exact .inl h

/-- The dentries below `x` are taken from the cache. -/
def Sys.shrink (s : Sys) (x : Path) : Sys :=
  { s with mem := fun z => if x <:+ z ∧ z ≠ x then none else s.mem z }

/-- What was below `x` is below `y`. -/
def Sys.moveTree (s : Sys) (x y : Path) : Sys :=
  { s with mem := fun z =>
      if y <:+ z then s.mem (z.take (z.length - y.length) ++ x)
      else if x <:+ z then none
      else s.mem z }

/-- A dentry is taken from the cache. -/
def Sys.forget (s : Sys) (x : Path) : Sys :=
  { s with mem := Function.update s.mem x none }

theorem forget_some {s : Sys} {x z : Path} {d : SfsDentry} (h : (s.forget x).mem z = some d) :
    z ≠ x ∧ s.mem z = some d := by
  by_cases hz : z = x
  · rw [hz] at h
    cases (Function.update_self ..).symm.trans h
  · exact ⟨hz, (Function.update_of_ne hz ..).symm.trans h⟩

/-- The value of `first_normal_dir_id`: anything while nothing was stored. -/
def Sys.FirstIs (s : Sys) (x : Path) (v : Int) : Prop :=
  s.Has x (fun d => ∀ f, d.firstNormalDirId = some f → v = f)

def dirEnv : Env DirSig Sys
  | .sfs q, s, a, t => frail q s a t
  | .firstNormal x, s, v, t => s.FirstIs x v ∧ t = s
  | .shrink x, s, _, t => t = s.shrink x
  | .moveTree x y, s, _, t => t = s.moveTree x y

/-- The states of a machine with `N` partitions: the module is loaded, SFS is
    mounted, calls are made, and dentries are taken from the cache. -/
inductive Reach (N : Nat) : Sys → Prop
  | boot (d : Disk) : Reach N (⟨fun _ => none, d, 0⟩)
  | mount {s t : Sys} {a : Int} : Reach N s →
      Outcome dirEnv (lift (mountRoot N)) { s with mem := fun _ => none } a t →
      Reach N t
  | call {s t : Sys} {o : Op} {a : Int} : Reach N s → o.Ready s →
      Outcome dirEnv (o.code N) s a t → Reach N t
  | forget {s : Sys} (x : Path) : Reach N s → Reach N (s.forget x)

/-! ## Concrete runs -/

/-- Surroundings that do what is legal, with `junk` in the fields that nothing
    was stored in and without the marks that are in `lost`. -/
def dirHandler (junk : Int) (lost : Path → Nat → Bool) : Handler DirSig Sys
  | .sfs (.isNormal x p), s =>
    if lost x p then some (false, s) else sysHandler (.isNormal x p) s
  | .sfs q, s => sysHandler q s
  | .firstNormal x, s => (s.mem x).map (fun d =>
    (d.firstNormalDirId.elim junk (fun f => (f : Int)), s))
  | .shrink x, s => some ((), s.shrink x)
  | .moveTree x y, s => some ((), s.moveTree x y)

variable {lost : Path → Nat → Bool}

theorem dirEnv_of_dirHandler {junk : Int} {q : DirReq} {a : q.Ans}
    (h : dirHandler junk lost q s = some (a, t)) : dirEnv q s a t := by
  cases q with
  | sfs q =>
    cases q with
    | isNormal x p =>
      rw [dirHandler] at h
      split at h
      · cases h
        exact .inr ⟨rfl, rfl⟩
      · exact .inl h
    | _ => exact .inl h
  | firstNormal x =>
    obtain ⟨d, hd, hr⟩ := Option.map_eq_some_iff.mp h
    cases hr
    refine ⟨⟨d, hd, fun f hf => ?_⟩, rfl⟩
    rw [hf]
    rfl
  | shrink x =>
    cases h
    rfl
  | moveTree x y =>
    cases h
    rfl

/-- A run of the concrete surroundings is a run. -/
theorem outcome_of_run {α : Type} {junk : Int} {c : DirCode α} {a : α}
    (h : run (dirHandler junk lost) c s = some (a, t)) :
    Outcome dirEnv c s a t := by
  induction c generalizing s with
  | ret b =>
    cases h
    exact ⟨rfl, rfl⟩
  | ask q k ih =>
    rw [run_ask] at h
    obtain ⟨⟨x, u⟩, hq, hk⟩ := Option.bind_eq_some_iff.mp h
    exact ⟨x, u, dirEnv_of_dirHandler hq, ih x hk⟩

instance {s : Sys} {x : Path} {P : SfsDentry → Prop} [DecidablePred P] : Decidable (s.Has x P) :=
  match h : s.mem x with
  | none => .isFalse fun ⟨_, hd, _⟩ => nomatch h.symm.trans hd
  | some d =>
    if hP : P d then .isTrue ⟨d, h, hP⟩
    else .isFalse fun ⟨_, he, hP'⟩ =>
      hP (Option.mem_unique h he ▸ hP')

instance : DecidablePred SfsDentry.OfDir :=
  fun d => inferInstanceAs (Decidable (d.positive = true ∧ d.replicaId = none))

instance : DecidablePred SfsDentry.OfFile :=
  fun d => inferInstanceAs (Decidable (d.positive = true ∧ d.replicaId ≠ none))

instance {s : Sys} {z : Path} : Decidable (s.NameIn z) :=
  inferInstanceAs (Decidable (z ≠ [] ∧ s.Has z.tail SfsDentry.OfDir))

instance {s : Sys} {o : Op} : Decidable (o.Ready s) := by
  cases o with
  | lookup z =>
    have : Decidable (s.mem z = none) :=
      decidable_of_iff ((s.mem z).isNone = true) Option.isNone_iff_eq_none
    exact inferInstanceAs (Decidable (s.NameIn z ∧ s.mem z = none))
  | _ => unfold Op.Ready; infer_instance

/-- Partitions with nothing but a root, without a mark. -/
def unmarked : Disk :=
  ⟨fun x _ => if x = [] then some (.dir false) else none, fun _ _ => none, 0, 0⟩

/-- No mark is lost. -/
def noneLost : Path → Nat → Bool := fun _ _ => false

/-- A call in concrete surroundings. -/
def Sys.after (s : Sys) (N : Nat) (lost : Path → Nat → Bool) (o : Op) : Sys :=
  ((run (dirHandler 0 lost) (o.code N) s).map Prod.snd).getD s

/-- A mount in concrete surroundings. -/
def Sys.remount (s : Sys) (N : Nat) (lost : Path → Nat → Bool) : Sys :=
  ((run (dirHandler 0 lost) (lift (mountRoot N))
    { s with mem := fun _ => none }).map Prod.snd).getD s

variable {N : Nat}

theorem Reach.after {o : Op} (h : Reach N s) (ho : o.Ready s) : Reach N (s.after N lost o) := by
  unfold Sys.after
  cases hr : run (dirHandler 0 lost) (o.code N) s with
  | none => exact h
  | some r => exact h.call ho (outcome_of_run hr)

theorem Reach.remount (h : Reach N s) : Reach N (s.remount N lost) := by
  unfold Sys.remount
  cases hr : run (dirHandler 0 lost) (lift (mountRoot N)) { s with mem := fun _ => none } with
  | none => exact h
  | some r => exact h.mount (outcome_of_run hr)

/-- Each of the calls is ready when its turn comes. -/
def Sys.AllReady (N : Nat) (lost : Path → Nat → Bool) : Sys → List Op → Prop
  | _, [] => True
  | s, o :: os => o.Ready s ∧ AllReady N lost (s.after N lost o) os

instance decidableAllReady (N : Nat) (lost : Path → Nat → Bool) :
    ∀ (s : Sys) (os : List Op), Decidable (s.AllReady N lost os)
  | _, [] => .isTrue trivial
  | s, o :: os =>
    have := decidableAllReady N lost (s.after N lost o) os
    inferInstanceAs (Decidable (o.Ready s ∧ Sys.AllReady N lost (s.after N lost o) os))

theorem Reach.afterAll {os : List Op} (h : Reach N s) (ho : s.AllReady N lost os) :
    Reach N (os.foldl (fun s o => s.after N lost o) s) := by
  induction os generalizing s with
  | nil => exact h
  | cons o os ih => exact ih (h.after ho.1) ho.2

end Sfs
