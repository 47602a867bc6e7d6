import MultiLanes.SfsNameiProofs

/-! # SFS — rename of files

The code of `rename.c` for everything but directories.  A file moves within its own
partition: the data file of the source is renamed there, and a meta file in a normal
partition of the target directory leads to it when the partition is a shadow in that
directory. -/

namespace Sfs

open InteractProg

/-! ## The steps of `rename.c` -/

/-- `i_op->rename` in partition `p` and the `d_move` of the replica dentries,
    which leaves the target negative. -/
def renameReplica (oldReplicaParent : Option Replica) (x y : Path) (p : Nat) : Code Int := do
  let _ ← deref (oldReplicaParent.bind Replica.inode)
  let old ← deref (← findReplicaDentry x p)
  let new ← deref (← findReplicaDentry y p)
  let err ← rename old.path new.path p
  onlyIf (err = 0) do
    storeReplica x p (some ⟨new.path, old.inode⟩)
    storeReplica y p (some ⟨new.path, none⟩)
  return err

/-- The loop of `sfs_d_move`: every slot but `o` is exchanged. -/
def sfsDMove (x y : Path) (o : Nat) : List Nat → Code Unit
  | [] => return
  | p :: ps => do
    onlyIf (p ≠ o) do
      let tmp ← findReplicaDentry x p
      let target ← findReplicaDentry y p
      storeReplica x p target
      storeReplica y p tmp
    sfsDMove x y o ps

/-- `if(old_meta_id != -1)`: the meta file goes, and an error is dropped. -/
def dropMeta (oldMetaId : Option Nat) (delete : Nat → Code Int) : Code Unit :=
  match oldMetaId with
  | none => return
  | some m => do
    let _ ← delete m
    return

/-! ## `rename2non` -/

def finish2non (N : Nat) (x y : Path) (o : Nat) (oldMetaId : Option Nat) : Code Int := do
  dropMeta oldMetaId (unlinkSlot x)
  sfsDMove x y o (List.range N)
  return 0

/-- The target directory is normal in the partition of the source. -/
def rename2nonTurn (N : Nat) (x y : Path) (o : Nat) (oldMetaId : Option Nat)
    (oldReplicaParent : Option Replica) : Code Int := do
  -- the rename link to itself masks the pointer link
  let mask : Code Int :=
    if oldMetaId.isSome then put x o (renameTo o) else return 0
  checked mask <| checked (renameReplica oldReplicaParent x y o) do
      onlyIf (oldMetaId.isSome = true) do
        let _ ← reset x o
        return
      setMetaId x none
      finish2non N x y o oldMetaId

/-- The target directory stays a shadow there: a meta file is made. -/
def rename2nonMeta (N : Nat) (x y : Path) (o : Nat) (oldMetaId : Option Nat)
    (oldReplicaParent : Option Replica) : Code Int := do
  let m ← deref (← selectNormalDirRr N y.tail)
  let newMetaParent ← findReplicaDentry y.tail m
  let _ ← getReplicaDentry newMetaParent y m
  checked (createReplica newMetaParent y m) <| checked (put y m (pointerTo o)) <|
    checked (put x o (renameTo m)) <|
    checked (renameReplica oldReplicaParent x y o) do
      let _ ← put x o (pointerTo m)
      setMetaId x m
      finish2non N x y o oldMetaId

def rename2non (N : Nat) (x y : Path) : Code Int := do
  let old ← sfsD x
  let o ← deref old.replicaId
  let oldReplicaParent ← findReplicaDentry x.tail o
  let canTurn ← canTurn2normal N y.tail o
  match ← createReplicaDir y.tail o canTurn with
  | .error err => return err
  | .ok newReplicaParent =>
    let _ ← getReplicaDentry (some newReplicaParent) y o
    if canTurn then rename2nonTurn N x y o old.metaId oldReplicaParent
    else rename2nonMeta N x y o old.metaId oldReplicaParent

/-! ## `rename2exist` -/

/-- `out:` -/
def finish2exist (N : Nat) (x y : Path) (o : Nat) (oldMetaId : Option Nat)
    (oldMetaParent : Option Replica) : Code Int := do
  dropMeta oldMetaId (simpleUnlinkNotPut oldMetaParent x)
  sfsDMove x y o (List.range N)
  return 0

/-- `if(meta_id != -1) meta_parent = find_replica_dentry(parent, meta_id);` -/
def findMetaParent (parent : Path) : Option Nat → Code (Option Replica)
  | none => return none
  | some m => findReplicaDentry parent m

/-- A deletion whose failure goes to `out` with no error. -/
def orOut (delete out k : Code Int) : Code Int := do
  let err ← delete
  if err ≠ 0 then out else k

/-- Condition 1.1: the meta file or the data file of the destination is in the
    way, and is overwritten. -/
def overwriteExist (x y : Path) (o e : Nat) (existMetaId : Option Nat)
    (oldReplicaParent existReplicaParent : Option Replica) (out : Code Int) :
    Code Int :=
  checked (put x o (renameTo o)) do
    let err ← renameReplica oldReplicaParent x y o
    if err ≠ 0 then
      let _ ← modify x o (fun a => { a with rename := none })
      return err
    else
      setMetaId x none
      let unmask : Code Int := do
        let _ ← put x o Ptrs.unset
        out
      if existMetaId = some o then
        orOut (simpleUnlinkNotPut existReplicaParent y e) out unmask
      else unmask

/-- Condition 1.2: the destination, by its meta file if it has one, is hidden
    until it is deleted. -/
def hideExist (x y : Path) (o e : Nat) (existMetaId : Option Nat)
    (oldReplicaParent existReplicaParent existMetaParent : Option Replica)
    (out : Code Int) : Code Int :=
  let hiddenId := existMetaId.getD e
  checked (put x o (staleAt hiddenId)) <| checked (put y hiddenId (hiddenBy o)) do
      let err ← renameReplica oldReplicaParent x y o
      if err ≠ 0 then
        let _ ← modify x o (fun a => { a with stale := none })
        let _ ← modify y hiddenId (fun a => { a with hidden := none })
        return err
      else
        setMetaId x none
        let deleteData : Code Int :=
          orOut (simpleUnlinkNotPut existReplicaParent y e) out do
            let _ ← put x o Ptrs.unset
            out
        match existMetaId with
        | none => deleteData
        | some em =>
          orOut (simpleUnlinkNotPut existMetaParent y em) out deleteData

/-- Condition 2: a meta file is needed, and the destination's meta file, or its
    data file, becomes it. -/
def reuseExist (x y : Path) (o e : Nat) (existMetaId : Option Nat)
    (oldReplicaParent existReplicaParent : Option Replica) (out : Code Int) :
    Code Int :=
  let newMetaId := existMetaId.getD e
  checked (put y newMetaId (renameTo o)) <| checked (put x o (renameTo newMetaId)) <|
    checked (renameReplica oldReplicaParent x y o) do
      setMetaId x newMetaId
      let link : Code Int := do
        let _ ← put x o (pointerTo newMetaId)
        let _ ← put y newMetaId (pointerTo o)
        out
      if existMetaId.isSome ∧ e ≠ o then
        orOut (simpleUnlinkNotPut existReplicaParent y e) out link
      else link

def rename2exist (N : Nat) (x y : Path) : Code Int := do
  let old ← sfsD x
  let o ← deref old.replicaId
  let oldMetaParent ← findMetaParent x.tail old.metaId
  let oldReplicaParent ← findReplicaDentry x.tail o
  let exist ← sfsD y
  let e ← deref exist.replicaId
  let existReplicaParent ← findReplicaDentry y.tail e
  let existMetaParent ← findMetaParent y.tail exist.metaId
  let canTurn ← canTurn2normal N y.tail o
  match ← createReplicaDir y.tail o canTurn with
  | .error err => return err
  | .ok newReplicaParent =>
    let _ ← getReplicaDentry (some newReplicaParent) y o
    let out := finish2exist N x y o old.metaId oldMetaParent
    if canTurn then
      if e = o ∨ exist.metaId = some o then
        overwriteExist x y o e exist.metaId oldReplicaParent existReplicaParent out
      else
        hideExist x y o e exist.metaId oldReplicaParent existReplicaParent
          existMetaParent out
    else
      reuseExist x y o e exist.metaId oldReplicaParent existReplicaParent out

/-! ## `sfs_rename_other`, and the caller -/

def sfsRenameOther (N : Nat) (x y : Path) : Code Int :=
  checked (validateFile x) do
    let new ← sfsD y
    let validateNew : Code Int :=
      if new.positive then validateFile y else return 0
    checked validateNew do
      let new ← sfsD y
      if new.positive then rename2exist N x y else rename2non N x y

end Sfs
