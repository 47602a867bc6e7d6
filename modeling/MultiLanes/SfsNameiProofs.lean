import MultiLanes.SfsStateProofs

/-! # SFS — lookup, create and unlink

The code of `kv.c`, `dispatch.c` and the part of `namei.c` that works on files,
translated function by function.  A replica dentry is named by its slot, `replicas[p]`
of the dentry of `x`, and is read when it is used; a null slot or a negative dentry that
is dereferenced is an `oops`.

`write_inode_now` is left out: the durable requests are durable at once.
`simple_add_partitioned_entry` is here for links only: for a new file `local_dispatch`
asks for it only when `PARTITIONED` is defined, and it is not. -/

namespace Sfs

open InteractProg

/-- `SPAN_THRESHOLD` against the number of partitions. -/
def spanThreshold (N : Nat) : Nat := min 20 N

/-- The use of a pointer. -/
def deref {α : Type} : Option α → Code α
  | some a => pure a
  | none => oops

/-- `if(unlikely(err)) goto out;` after `c`, where `out` returns `err`. -/
def checked (c : Code Int) (k : Code Int) : Code Int := do
  let err ← c
  if err ≠ 0 then return err else k

/-! ## Replica dentries -/

def findReplicaDentry (x : Path) (p : Nat) : Code (Option Replica) := do
  let d ← sfsD x
  return d.replicas p

/-- The slot `p` is stored. -/
def SfsDentry.setReplica (d : SfsDentry) (p : Nat) (r : Option Replica) :
    SfsDentry := { d with replicas := Function.update d.replicas p r }

def storeReplica (x : Path) (p : Nat) (r : Option Replica) : Code Unit :=
  modD x (fun d => d.setReplica p r)

def dAddReplica (x : Path) (p : Nat) (r : Replica) : Code Unit := do
  match ← findReplicaDentry x p with
  | none => storeReplica x p (some r)
  | some _ => return

/-- The slot `p` of `x`, looked up in its parent's replica when it is null. -/
def getReplicaDentry (replicaParent : Option Replica) (x : Path) (p : Nat) : Code Replica := do
  match ← findReplicaDentry x p with
  | some r => return r
  | none =>
    let _ ← deref (replicaParent.bind Replica.inode)
    let i ← lookup x p
    dAddReplica x p ⟨x, i⟩
    return ⟨x, i⟩

def setReplicaId (x : Path) (p : Option Nat) : Code Unit :=
  modD x (fun d => { d with replicaId := p })

def setMetaId (x : Path) (p : Option Nat) : Code Unit :=
  modD x (fun d => { d with metaId := p })

/-- `simple_unlink_not_put`, in the directory of the replica that is given. -/
def simpleUnlinkNotPut (replicaParent : Option Replica) (x : Path) (p : Nat) : Code Int := do
  let _ ← deref (replicaParent.bind Replica.inode)
  let r ← deref (← findReplicaDentry x p)
  let _ ← deref r.inode
  let err ← unlink r.path p
  -- d_delete
  onlyIf (err = 0) (storeReplica x p (some ⟨r.path, none⟩))
  return err

/-! ## `kv.c` -/

/-- `dentry->d_inode` of the file in the slot `p`. -/
def fileOf (x : Path) (p : Nat) : Code Nat := do
  match (← findReplicaDentry x p).bind Replica.inode with
  | some (.file i) => return i
  | _ => oops

def get (x : Path) (p : Nat) : Code (Option Ptrs) := do
  let i ← fileOf x p
  getxattr p i

def put (x : Path) (p : Nat) (value : Ptrs) : Code Int := do
  let i ← fileOf x p
  setxattr p i value

def reset (x : Path) (p : Nat) : Code Int := put x p Ptrs.unset

/-- `modify`, with the change of the one field as a function. -/
def modify (x : Path) (p : Nat) (f : Ptrs → Ptrs) : Code Int := do
  let i ← fileOf x p
  let a ← getxattr p i
  setxattr p i (f (a.getD Ptrs.unset))

/-! ## `validate_partitioned_file` -/

/-- `if(remote_dentry->d_inode) err = simple_unlink_not_put(..)`, with the
    replica dentries found before. -/
def unlinkIfThere (x : Path) (p : Nat) : Code Int := do
  let parent ← findReplicaDentry x.tail p
  let remote ← getReplicaDentry parent x p
  if remote.inode.isSome then simpleUnlinkNotPut parent x p else return 0

/-- The data file that `POINTER` names is deleted. -/
def unlinkPointed (x : Path) (ptrs : Option Ptrs) : Code Int :=
  match ptrs.bind Ptrs.pointer with
  | some p => unlinkIfThere x p
  | none => return 0

/-- Condition 0: there is a stale file, hidden by this one. -/
def validateStale (x : Path) (localId staleId : Nat) : Code Int := do
  let staleParent ← findReplicaDentry x.tail staleId
  let stale ← getReplicaDentry staleParent x staleId
  let deleteStale : Code Int :=
    if stale.inode.isSome then do
      let data ← get x staleId
      checked (unlinkPointed x data) (simpleUnlinkNotPut staleParent x staleId)
    else return 0
  checked deleteStale <| checked (reset x localId) do
      setReplicaId x localId
      return 0

/-- Condition 1: the file is hidden.  When what hides it is missing, the code
    goes on with `k`. -/
def validateHidden (x : Path) (localId : Nat) (ptrs : Ptrs) (k : Code Int) : Code Int :=
  match ptrs.hidden with
  | none => k
  | some remoteId => do
    let remoteParent ← findReplicaDentry x.tail remoteId
    let remote ← getReplicaDentry remoteParent x remoteId
    if remote.inode.isSome then
      checked (unlinkPointed x (some ptrs)) <| checked (do
          let localParent ← findReplicaDentry x.tail localId
          simpleUnlinkNotPut localParent x localId) <|
        checked (reset x remoteId) do
          dAddReplica x remoteId remote
          setReplicaId x remoteId
          return 0
    else
      checked (modify x localId (fun a => { a with hidden := none })) do
        setReplicaId x localId
        k

/-- Condition 2: a rename has made this a meta file, or is to make it one. -/
def validateRename (x : Path) (localId : Nat) (ptrs : Ptrs) (k : Code Int) : Code Int :=
  match ptrs.rename with
  | none => k
  | some remoteId =>
    if remoteId = localId then
      checked (reset x localId) do
        setReplicaId x localId
        return 0
    else do
      let remoteParent ← findReplicaDentry x.tail remoteId
      let remote ← getReplicaDentry remoteParent x remoteId
      if remote.inode.isSome then
        checked (unlinkPointed x (some ptrs)) <|
          checked (put x localId ⟨some remoteId, none, none, none⟩) do
            dAddReplica x remoteId remote
            setReplicaId x remoteId
            setMetaId x localId
            return 0
      else
        checked (modify x localId (fun a => { a with rename := none })) k

/-- Condition 3.  A meta file without its data file is deleted, and then the
    dentry gets no `replica_id`. -/
def validatePointer (x : Path) (localId : Nat) (ptrs : Ptrs) : Code Int :=
  match ptrs.pointer with
  | none => do
    setReplicaId x localId
    return 0
  | some remoteId => do
    let remoteParent ← findReplicaDentry x.tail remoteId
    let remote ← getReplicaDentry remoteParent x remoteId
    if remote.inode.isNone then
      let localParent ← findReplicaDentry x.tail localId
      simpleUnlinkNotPut localParent x localId
    else
      let data ← get x remoteId
      let putBack : Code Int :=
        if data.bind Ptrs.pointer = some localId then return 0
        else put x remoteId ⟨some localId, none, none, none⟩
      checked putBack do
        dAddReplica x remoteId remote
        setReplicaId x remoteId
        setMetaId x localId
        return 0

/-- The conditions after condition 0 all go by the links as they were read. -/
def validatePartitionedFile (x : Path) (localId : Nat) : Code Int := do
  match ← get x localId with
  | none =>
    setReplicaId x localId
    return 0
  | some ptrs =>
    match ptrs.stale with
    | some staleId => validateStale x localId staleId
    | none =>
      validateHidden x localId ptrs <| validateRename x localId ptrs <|
          validatePointer x localId ptrs

def validateFile (x : Path) : Code Int := do
  let d ← sfsD x
  let metaId ← deref (d.metaId.or d.replicaId)
  validatePartitionedFile x metaId

/-! ## `sfs_lookup` -/

/-- A directory that is marked normal is counted. -/
def SfsDentry.addNormal (d : SfsDentry) (p : Nat) : SfsDentry :=
  { d with
    normalDirCount := d.normalDirCount + 1
    normalDirMap := Function.update d.normalDirMap p true }

/-- `check_normal_dir`.  The semicolon after `if(normal_dir_count == 0)` ends
    the statement: `first_normal_dir_id` is stored each time. -/
def checkNormalDir (x : Path) (p : Nat) : Code Int := do
  let normal ← isNormal x p
  onlyIf (normal = true) <|
    modD x (fun d => { d.addNormal p with firstNormalDirId := some p })
  return if normal then 1 else 0

/-- The body of the loop up to `new->d_inode`: what is found in partition `p`. -/
def probe (x : Path) (fullscan : Bool) (p : Nat) : Code (Option Inode) := do
  let parent ← sfsD x.tail
  if !fullscan && !parent.normalDirMap p then return none
  else
    match (parent.replicas p).bind Replica.inode with
    | none => return none
    | some _ =>
      let d ← sfsD x
      if (d.replicas p).isSome then return none
      else
        match ← lookup x p with
        | none => return none
        | some i =>
          dAddReplica x p ⟨x, some i⟩
          return some i

def cleanDentry (x : Path) : Code Unit := modD x SfsDentry.clean

/-- A file is found: the loop ends. -/
def foundFile (x : Path) (p : Nat) : Code (Except Int Bool) := do
  let err ← validatePartitionedFile x p
  if err ≠ 0 then
    cleanDentry x
    return .error err
  else
    let d ← sfsD x
    return .ok d.replicaId.isSome

/-- The loop once a directory has been found, over all partitions. -/
def fullScan (x : Path) : List Nat → Code (Except Int Bool)
  | [] => return .ok true
  | p :: ps => do
    match ← probe x true p with
    | none => fullScan x ps
    | some (.file _) => foundFile x p
    | some .dir =>
      let _ ← checkNormalDir x p
      fullScan x ps

/-- The loop over the normal partitions of the parent; a directory starts it again, over all. -/
def normalScan (N : Nat) (x : Path) : List Nat → Code (Except Int Bool)
  | [] => return .ok false
  | p :: ps => do
    match ← probe x false p with
    | none => normalScan N x ps
    | some (.file _) => foundFile x p
    | some .dir =>
      let _ ← checkNormalDir x p
      fullScan x (List.range N)

/-- `d_splice_alias(inode, dentry)`. -/
def instantiate (x : Path) (positive : Bool) : Code Unit :=
  modD x (fun d => { d with positive := positive })

def sfsLookup (N : Nat) (x : Path) : Code Int := do
  setD x SfsDentry.fresh
  match ← normalScan N x (List.range N) with
  | .error err => return err
  | .ok found =>
    instantiate x found
    return 0

/-- The replicas of the root: one `kern_path` for each partition. -/
def addRoots : List Nat → Code Unit
  | [] => return
  | p :: ps => do
    let i ← lookup [] p
    dAddReplica [] p ⟨[], i⟩
    addRoots ps

/-- The marks of the roots; `err` is overwritten each time. -/
def checkRoots : List Nat → Int → Code Int
  | [], err => return err
  | p :: ps, _ => do
    let err ← checkNormalDir [] p
    checkRoots ps err

/-- The root of a mount: `sfs_opts_parse`, when all partitions are there.  It returns what the
    last `check_normal_dir` returned, 1 if the root is normal in the last partition, and
    with anything but 0 the mount fails. -/
def mountRoot (N : Nat) : Code Int := do
  setD [] { SfsDentry.fresh with positive := true }
  addRoots (List.range N)
  checkRoots (List.range N) 0

/-- A path is walked from a fresh root on, each name by `sfs_lookup`.  Whether a mount with
    such a root succeeds is not asked here. -/
def walk (N : Nat) : Path → Code Int
  | [] => do
    let _ ← mountRoot N
    return 0
  | a :: A =>
    checked (walk N A) do
      let parent ← sfsD A
      if parent.positive then sfsLookup N (a :: A) else return enoent

/-! ## Directories in further partitions -/

/-- The chain of directories above `x` that partition `p` lacks is made there,
    from the first one it has. -/
def sfsCloneBranch (p : Nat) : Path → Code (Except Int Replica)
  | [] => do
    match ← findReplicaDentry [] p with
    -- the parent of the root is the root: the climb never ends
    | none => spin
    | some r =>
      let _ ← deref r.inode
      return .ok r
  | a :: A => do
    match ← findReplicaDentry (a :: A) p with
    | some ⟨path, some i⟩ => return .ok ⟨path, some i⟩
    | _ =>
      match ← sfsCloneBranch p A with
      | .error err => return .error err
      | .ok parent =>
        let r ← getReplicaDentry (some parent) (a :: A) p
        if r.inode.isSome then return .ok r
        else
          let err ← mkdir (a :: A) p
          if err ≠ 0 then return .error err
          else
            storeReplica (a :: A) p (some ⟨a :: A, some .dir⟩)
            return .ok ⟨a :: A, some .dir⟩

/-- What `set_normal_dir` stores: `first_normal_dir_id` only for the first. -/
def SfsDentry.turnNormal (d : SfsDentry) (p : Nat) : SfsDentry :=
  { d.addNormal p with
    firstNormalDirId :=
      if d.normalDirCount = 0 then some p else d.firstNormalDirId }

def setNormalDir (x : Path) (p : Nat) : Code Int := do
  let d ← sfsD x
  if d.normalDirMap p then return 0
  else
    let r ← deref (d.replicas p)
    let _ ← deref r.inode
    let err ← setNormal x p
    onlyIf (err = 0) (modD x (fun d => d.turnNormal p))
    return err

/-- The replica of a directory, cloned when there is none. -/
def replicaBranch (x : Path) (p : Nat) : Code (Except Int Replica) := do
  match ← findReplicaDentry x p with
  | some ⟨path, some i⟩ => return .ok ⟨path, some i⟩
  | _ => sfsCloneBranch p x

/-- `create_replica_dir`; `normal` is `CLONE_NORMAL`. -/
def createReplicaDir (x : Path) (p : Nat) (normal : Bool) : Code (Except Int Replica) := do
  match ← replicaBranch x p with
  | .error err => return .error err
  | .ok r =>
    if normal then
      let err ← setNormalDir x p
      if err ≠ 0 then return .error err else return .ok r
    else return .ok r

def canTurn2normal (N : Nat) (x : Path) (p : Nat) : Code Bool := do
  let d ← sfsD x
  return !(!d.normalDirMap p && decide (spanThreshold N ≤ d.normalDirCount))

/-! ## `dispatch.c` -/

def dispatch (N : Nat) : Code Nat := do
  if N = 1 then return 0
  else
    let replicaId ← addDispatch
    onlyIf (replicaId > 1024) clearDispatch
    return (replicaId - 1) % N

/-- `do ret = dispatch(); while(test_bitmap(map, ret));` -/
def dispatchFree (N : Nat) (map : Nat → Bool) : Nat → Code Nat
  | 0 => spin
  | fuel + 1 => do
    let ret ← dispatch N
    if map ret then dispatchFree N map fuel else return ret

/-- `while(!test_bitmap(map, local_counter))`: the counter goes round. -/
def nextNormal (N : Nat) (map : Nat → Bool) : Nat → Nat → Option Nat
  | 0, _ => none
  | fuel + 1, c =>
    if map c then some c else nextNormal N map fuel ((c + 1) % N)

/-- The loop over `local_counter`, and the counter one further. -/
def takeNormal (N : Nat) (x : Path) : Code Nat := do
  let d ← sfsD x
  match nextNormal N d.normalDirMap N d.localCounter with
  | none => spin
  | some ret =>
    modD x (fun d => { d with localCounter := (ret + 1) % N })
    return ret

def selectNormalDirRr (N : Nat) (x : Path) : Code (Option Nat) := do
  let d ← sfsD x
  if d.normalDirCount = 0 then return none
  else
    let ret ← takeNormal N x
    return some ret

def localDispatch (N : Nat) (x : Path) : Code Nat := do
  let d ← sfsD x
  if d.normalDirCount < spanThreshold N then
    dispatchFree N d.normalDirMap (1025 + N)
  else takeNormal N x

/-! ## `sfs_create` and `sfs_unlink` -/

/-- `i_op->create`, and the replica dentry gets its inode. -/
def createReplica (replicaParent : Option Replica) (x : Path) (p : Nat) : Code Int := do
  let _ ← deref (replicaParent.bind Replica.inode)
  match ← create x p with
  | .error err => return err
  | .ok i =>
    storeReplica x p (some ⟨x, some (.file i)⟩)
    return 0

def simpleAddEntry (x : Path) (localId : Nat) : Code Int := do
  match ← createReplicaDir x.tail localId true with
  | .error err => return err
  | .ok replicaParent =>
    let _ ← getReplicaDentry (some replicaParent) x localId
    createReplica (some replicaParent) x localId

/-- `sfs_create`, which is `sfs_add_entry`. -/
def sfsCreate (N : Nat) (x : Path) : Code Int := do
  let dispatchId ← localDispatch N x.tail
  checked (simpleAddEntry x dispatchId) do
    setReplicaId x dispatchId
    instantiate x true
    return 0

/-- `simple_unlink_not_put(dentry->d_parent->d_inode, dentry)`: the directory is
    that of the replica dentry itself, which has one. -/
def unlinkSlot (x : Path) (p : Nat) : Code Int := do
  let r ← deref (← findReplicaDentry x p)
  simpleUnlinkNotPut (some ⟨r.path.tail, some .dir⟩) x p

def deletePartitionedFile (x : Path) (replicaId metaId : Nat) : Code Int :=
  checked (unlinkSlot x replicaId) (unlinkSlot x metaId)

def sfsUnlink (x : Path) : Code Int :=
  checked (validateFile x) do
    let d ← sfsD x
    let replicaId ← deref d.replicaId
    let delete : Code Int :=
      match d.metaId with
      | some metaId => deletePartitionedFile x replicaId metaId
      | none => unlinkSlot x replicaId
    checked delete do
      cleanDentry x
      return 0

/-! ## `sfs_link` -/

/-- `i_op->link` of the replica dentry of `x`, and that of `y` gets the inode. -/
def linkReplica (replicaParent : Option Replica) (x y : Path) (p : Nat) : Code Int := do
  let old ← deref (← findReplicaDentry x p)
  let i ← deref old.inode
  let _ ← deref (replicaParent.bind Replica.inode)
  let err ← link old.path y p
  onlyIf (err = 0) (storeReplica y p (some ⟨y, some i⟩))
  return err

/-- `simple_add_entry` for a link. -/
def simpleAddLink (x y : Path) (localId : Nat) : Code Int := do
  match ← createReplicaDir y.tail localId true with
  | .error err => return err
  | .ok replicaParent =>
    let _ ← getReplicaDentry (some replicaParent) y localId
    linkReplica (some replicaParent) x y localId

/-- `simple_add_partitioned_entry` for a link: a meta file, and the link to the data file.
    The links of both are stored with their inodes. -/
def simpleAddPartitionedLink (x y : Path) (localId remoteId : Nat) : Code Int := do
  match ← createReplicaDir y.tail localId true with
  | .error err => return err
  | .ok localParent =>
    match ← createReplicaDir y.tail remoteId false with
    | .error err => return err
    | .ok remoteParent =>
      let _ ← getReplicaDentry (some localParent) y localId
      let _ ← getReplicaDentry (some remoteParent) y remoteId
      checked (createReplica (some localParent) y localId) <|
        checked (put y localId (pointerTo remoteId)) <|
        checked (linkReplica (some remoteParent) x y remoteId)
          (put y remoteId (pointerTo localId))

def sfsLink (N : Nat) (x y : Path) : Code Int := do
  let old ← sfsD x
  let replicaId ← deref old.replicaId
  let canTurn ← canTurn2normal N y.tail replicaId
  let newMetaId ← if canTurn then pure none else selectNormalDirRr N y.tail
  let add : Code Int :=
    match newMetaId with
    | none => simpleAddLink x y replicaId
    | some m => simpleAddPartitionedLink x y m replicaId
  checked add do
    instantiate y true
    setReplicaId y replicaId
    onlyIf (newMetaId.isSome = true) (setMetaId y newMetaId)
    return 0

end Sfs
