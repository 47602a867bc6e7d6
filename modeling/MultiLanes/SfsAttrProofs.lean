import MultiLanes.SfsRefusalProofs

/-! # SFS — the attributes of directories

A directory has attributes in every partition that holds it, and once more in the inode
of SFS, by which the VFS checks permissions.  They are stored by different hands:
`i_op->mkdir` of a partition's file system takes the owner from the user who makes the
call, be it to make the directory or to clone it; `sfs_new_inode` stores a mode and
leaves the owner at 0; `sfs_dir_setattr` changes the partitions one by one, and stops at
the first that refuses.

The code is that of the earlier files, with the modes that it passes on: each request
for a directory becomes one with a mode (`withModes`).  What is known of a call then
carries over to it (`Minds.expand`), and what the attributes need is a matter of single
requests (`Even`). -/

namespace SfsAttr

open InteractProg Sfs Function Option List

/-! ## Attributes -/

/-- `i_mode`, `i_uid` and `i_gid` of an inode. -/
structure Attr where
  mode : Nat
  uid : Nat
  gid : Nat
deriving DecidableEq, Repr

/-- The user who makes a call. -/
structure Cred where
  fsuid : Nat
  fsgid : Nat
  groups : List Nat
  capFsetid : Bool
  /-- may use the attributes `trusted.*` -/
  capSysAdmin : Bool

/-- `struct iattr`; a field is `none` when `ia_valid` has no bit for it. -/
structure Iattr where
  mode : Option Nat
  uid : Option Nat
  gid : Option Nat
  size : Bool

/-- `S_IFDIR`. -/
def sIfdir : Nat := 0o40000

/-- `S_ISGID`. -/
def sIsgid : Nat := 0o2000

def hasSgid (mode : Nat) : Bool := mode &&& sIsgid ≠ 0

def dropSgid (mode : Nat) : Nat := if hasSgid mode then mode - sIsgid else mode

/-- `in_group_p`. -/
def Cred.inGroup (c : Cred) (gid : Nat) : Bool :=
  gid == c.fsgid || c.groups.contains gid

/-- The mode that a user may set: the bit `S_ISGID` only for a group of theirs. -/
def Cred.allowed (c : Cred) (gid mode : Nat) : Nat :=
  if c.inGroup gid || c.capFsetid then mode else dropSgid mode

/-- `inode_init_owner`, for a new directory in `dir`. -/
def initOwner (c : Cred) (dir : Attr) (mode : Nat) : Attr :=
  if hasSgid dir.mode then ⟨mode ||| sIsgid, c.fsuid, dir.gid⟩
  else ⟨mode, c.fsuid, c.fsgid⟩

/-- What `inode_change_ok` leaves in `attr`. -/
def inodeChangeOk (c : Cred) (a : Attr) (ia : Iattr) : Iattr :=
  { ia with mode := ia.mode.map (c.allowed (ia.gid.getD a.gid)) }

/-- `setattr_copy`. -/
def setattrCopy (c : Cred) (a : Attr) (ia : Iattr) : Attr where
  mode := (ia.mode.map (c.allowed (ia.gid.getD a.gid))).getD a.mode
  uid := ia.uid.getD a.uid
  gid := ia.gid.getD a.gid

/-! ## Requests -/

/-- The system, with the attributes of the directories: those of each replica, and those of the
    SFS inode that was made last for a name, which is the `d_inode` of a dentry that is positive.
    `mode` is the variable of `sfs_lookup`: the mode of the replica of a name that was found
    last. -/
structure Owned where
  sys : Sys
  replica : Path → Nat → Attr
  inode : Path → Attr
  mode : Path → Option Nat

inductive AttrReq where
  | dir (q : DirReq)
  /-- `i_op->lookup`, and `mode = new->d_inode->i_mode` -/
  | lookup (x : Path) (p : Nat)
  /-- `i_op->mkdir(dir, dentry, mode)` -/
  | mkdir (x : Path) (p mode : Nat)
  /-- `dentry->d_inode->i_mode` -/
  | iMode (x : Path)
  /-- `mode` of `sfs_lookup` -/
  | mode (x : Path)
  /-- `sfs_new_inode(sb, mode)` -/
  | newInode (x : Path) (mode : Nat)
  /-- `notify_change(replica_dentry, attr)` of a directory -/
  | notifyChange (x : Path) (p : Nat) (ia : Iattr)
  /-- and of a file, whose attributes are not followed -/
  | notifyFile (p ino : Nat) (ia : Iattr)
  /-- `setattr_copy(dentry->d_inode, attr)` -/
  | setattrCopy (x : Path) (ia : Iattr)

@[reducible] def AttrReq.Ans : AttrReq → Type
  | .dir q => q.Ans
  | .lookup _ _ => Option Inode
  | .mkdir _ _ _ => Int
  | .iMode _ => Nat
  | .mode _ => Option Nat
  | .newInode _ _ => Unit
  | .notifyChange _ _ _ => Int × Iattr
  | .notifyFile _ _ _ => Int
  | .setattrCopy _ _ => Unit

abbrev AttrSig : Sig := ⟨AttrReq, AttrReq.Ans⟩

abbrev AttrCode (α : Type) : Type := Prog AttrSig α

/-- The mode of a directory that is made: that of the call for its `target`, and
    for one that is cloned `node->dentry->d_inode->i_mode`. -/
def modeFor (target : Option (Path × Nat)) (y : Path) : AttrCode Nat :=
  match target with
  | some (x, mode) =>
    if y = x then pure mode else perform (S := AttrSig) (.iMode y)
  | none => perform (S := AttrSig) (.iMode y)

/-- The requests of the code, with the modes. -/
def withModes (target : Option (Path × Nat)) : (q : DirReq) → AttrCode q.Ans
  | .sfs (.mkdir y p) => do
    let mode ← modeFor target y
    perform (S := AttrSig) (.mkdir y p mode)
  | .sfs (.lookup y p) => perform (S := AttrSig) (.lookup y p)
  | q => perform (S := AttrSig) (.dir q)

def base {α : Type} (c : Code α) : AttrCode α :=
  (lift c).expand (withModes none)

/-! ## The calls -/

def newInode (x : Path) (mode : Nat) : AttrCode Unit :=
  perform (S := AttrSig) (.newInode x mode)

/-- `sfs_mkdir`: the inode is made before the directory. -/
def sfsMkdir (N : Nat) (x : Path) (mode : Nat) : AttrCode Int := do
  newInode x (mode ||| sIfdir)
  (Sfs.sfsMkdir N x).expand (withModes (some (x, mode ||| sIfdir)))

def sfsCreate (N : Nat) (x : Path) : AttrCode Int := base (Sfs.sfsCreate N x)

/-- `sfs_lookup`: what is found last gives the mode of the inode. -/
def sfsLookup (N : Nat) (x : Path) : AttrCode Int := do
  let err ← base (Sfs.sfsLookup N x)
  let d ← base (sfsD x)
  onlyIf (err = 0 ∧ d.OfDir) do
    match ← perform (S := AttrSig) (.mode x) with
    | some mode => newInode x mode
    | none => base oops
  return err

/-- The loop of `sfs_dir_setattr`; `err` is not initialised before it.  The same
    `attr` goes to all replicas, with what `notify_change` has done to it. -/
def notifyReplicas (x : Path) : List Nat → Iattr → Int → AttrCode (Except Int (Int × Iattr))
  | [], ia, err => return .ok (err, ia)
  | p :: ps, ia, err => do
    match ← base (findReplicaDentry x p) with
    | some ⟨path, some _⟩ =>
      let r ← perform (S := AttrSig) (.notifyChange path p ia)
      if r.1 ≠ 0 then return .error r.1 else notifyReplicas x ps r.2 r.1
    | _ => notifyReplicas x ps ia err

def sfsDirSetattr (N : Nat) (x : Path) (ia : Iattr) (junk : Int) : AttrCode Int :=
  if ia.size then return eio
  else do
    match ← notifyReplicas x (range N) ia junk with
    | .error err => return err
    | .ok (err, ia) =>
      perform (S := AttrSig) (.setattrCopy x ia)
      return err

/-- The attributes of files are not followed. -/
def sfsFileSetattr (x : Path) (replicaId : Nat) (ia : Iattr) : AttrCode Int := do
  let ino ← base (fileOf x replicaId)
  perform (S := AttrSig) (.notifyFile replicaId ino ia)

/-- `sfs_setattr`: a directory has no `replica_id`. -/
def sfsSetattr (N : Nat) (x : Path) (ia : Iattr) (junk : Int) : AttrCode Int := do
  let d ← base (sfsD x)
  match d.replicaId with
  | none => sfsDirSetattr N x ia junk
  | some replicaId => sfsFileSetattr x replicaId ia

/-- A call of the VFS. -/
inductive Call
  | lookup (z : Path)
  | create (z : Path)
  | mkdir (z : Path) (mode : Nat)
  | setattr (z : Path) (ia : Iattr)

/-- `junk` is in the variables that are not initialised. -/
def Call.code (N : Nat) (junk : Int) : Call → AttrCode Int
  | .lookup z => sfsLookup N z
  | .create z => sfsCreate N z
  | .mkdir z mode => sfsMkdir N z mode
  | .setattr z ia => sfsSetattr N z ia junk

/-- What the VFS has made sure of. -/
def Call.Ready (s : Sys) : Call → Prop
  | .lookup z => (Op.lookup z).Ready s
  | .create z => (Op.create z).Ready s
  | .mkdir z _ => (Op.mkdir z).Ready s
  | .setattr z _ => s.Has z (·.positive = true)

/-! ## Surroundings -/

def Owned.setReplica (s : Owned) (x : Path) (p : Nat) (a : Attr) : Owned :=
  { s with
    replica := update s.replica x (update (s.replica x) p a) }

def Owned.setInode (s : Owned) (x : Path) (a : Attr) : Owned :=
  { s with inode := update s.inode x a }

/-- After a lookup in a partition. -/
def Owned.found (s : Owned) (x : Path) (p : Nat) (i : Option Inode) : Owned :=
  if i = some .dir then
    { s with mode := update s.mode x (some (s.replica x p).mode) }
  else s

/-- After a mkdir in a partition. -/
def Owned.made (s : Owned) (c : Cred) (x : Path) (p mode : Nat) (err : Int) : Owned :=
  if err = 0 then s.setReplica x p (initOwner c (s.replica x.tail p) mode)
  else s

/-- The surroundings of the user `c`, over those of the code for directories; the
    partitions in `balks` refuse to change attributes. -/
def attrEnv (B : Env DirSig Sys) (balks : Nat → Bool) (c : Cred) : Env AttrSig Owned
  | .dir q, s, a, t => ∃ u, B q s.sys a u ∧ t = { s with sys := u }
  | .lookup x p, s, i, t =>
    ∃ u, B (.sfs (.lookup x p)) s.sys i u ∧ t = { s.found x p i with sys := u }
  | .mkdir x p mode, s, err, t =>
    ∃ u, B (.sfs (.mkdir x p)) s.sys err u ∧ t = { s.made c x p mode err with sys := u }
  | .iMode x, s, m, t => m = (s.inode x).mode ∧ t = s
  | .mode x, s, m, t => m = s.mode x ∧ t = s
  | .newInode x mode, s, _, t => t = s.setInode x ⟨mode, 0, 0⟩
  | .notifyChange x p ia, s, r, t =>
    if balks p then r.1 ≠ 0 ∧ t = s
    else r = (0, inodeChangeOk c (s.replica x p) ia)
      ∧ t = s.setReplica x p (setattrCopy c (s.replica x p) ia)
  | .notifyFile _ _ _, s, _, t => t = s
  | .setattrCopy x ia, s, _, t =>
    t = s.setInode x (setattrCopy c (s.inode x) ia)

/-- The attributes after a mount of fresh partitions: `sfs_alloc_root` stores the
    mode `S_IFDIR`. -/
def mounted (roots : Nat → Attr) (u : Sys) : Owned where
  sys := u
  replica x p := if x = [] then roots p else ⟨0, 0, 0⟩
  inode x := if x = [] then ⟨sIfdir, 0, 0⟩ else ⟨0, 0, 0⟩
  mode _ := none

/-- A user without `CAP_SYS_ADMIN` may find any mark missing. -/
def callerEnv (c : Cred) : Env DirSig Sys := if c.capSysAdmin then harsh.dirEnv else dirEnv

/-- The states that calls lead to, from a mount of fresh partitions; `fair` says
    which calls there are. -/
inductive Reach (fair : Cred → (Nat → Bool) → Call → Owned → Prop) (N : Nat)
    (roots : Nat → Attr) : Owned → Prop
  | mount {u : Sys} {a : Int} :
      Outcome harsh.dirEnv (lift (mountRoot N)) (booted (blank N)) a u →
      Reach fair N roots (mounted roots u)
  | call {s t : Owned} {c : Cred} {balks : Nat → Bool} {o : Call} {a junk : Int} :
      Reach fair N roots s → o.Ready s.sys →
      Outcome (attrEnv (callerEnv c) balks c) (o.code N junk)
        { s with mode := fun _ => none } a t →
      fair c balks o s → Reach fair N roots t
  /-- a dentry with nothing below it is taken from the cache -/
  | forget {s : Owned} {x : Path} : Reach fair N roots s →
      (∀ a, s.sys.mem (a :: x) = none) →
      Reach fair N roots { s with sys := s.sys.forget x }

/-- A change of attributes does not stop half-way: no replica refuses it, or the first one
    does, or it is a change of size, which is an error. -/
def Uncut (balks : Nat → Bool) (d : Disk) (x : Path) (ia : Iattr) : Prop :=
  ia.size = true ∨ (∀ p, d.Holds x p → balks p = false)
    ∨ ∃ q, d.Holds x q ∧ balks q = true ∧ ∀ p < q, ¬ d.Holds x p

/-- A call that does no harm: the marks can be read, directories are made by root, no owner
    is changed and no set-group-ID bit is set, and a `setattr` does not stop half-way. -/
def Harmless (c : Cred) (balks : Nat → Bool) (o : Call) (s : Owned) : Prop :=
  c.capSysAdmin = true ∧
  match o with
  | .lookup _ => True
  | .create _ => c.fsuid = 0 ∧ c.fsgid = 0
  | .mkdir _ mode => c.fsuid = 0 ∧ c.fsgid = 0 ∧ hasSgid mode = false
  | .setattr x ia =>
    (∀ m, ia.mode = some m → hasSgid m = false)
      ∧ (∀ u, ia.uid = some u → u = 0) ∧ (∀ g, ia.gid = some g → g = 0)
      ∧ Uncut balks s.sys.disk x ia

/-! ## Single requests -/

/-- Nobody but root owns a directory, and none has the set-group-ID bit. -/
def Attr.Plain (a : Attr) : Prop := hasSgid a.mode = false ∧ a.uid = 0 ∧ a.gid = 0

/-- The attributes of directories go by their names. -/
structure Even (s : Owned) : Prop where
  same : ∀ {x p b}, s.sys.disk.node x p = some (.dir b) → s.replica x p = s.inode x
  plain : ∀ x, (s.inode x).Plain
  flat : ∀ x p, hasSgid (s.replica x p).mode = false

/-- In the middle of a call, also what it has found, and the inode that it has made. -/
structure Midway (target : Option (Path × Nat)) (s : Owned) : Prop
    extends Even s where
  mode : ∀ {x m}, s.mode x = some m → m = (s.inode x).mode
  target : ∀ {x m}, target = some (x, m) → s.inode x = ⟨m, 0, 0⟩

section Requests

variable {E : Surroundings} {c : Cred} {balks : Nat → Bool} {target : Option (Path × Nat)}
  {s t : Owned} {x : Path} {p : Nat}

theorem Attr.Plain.eq {a : Attr} (h : a.Plain) : a = ⟨a.mode, 0, 0⟩ := by
  obtain ⟨m, u, g⟩ := a
  obtain ⟨-, rfl, rfl⟩ : _ ∧ u = 0 ∧ g = 0 := h
  rfl

variable {u v : Sys} {y : Path} {r : Nat} {b : Bool}

/-- What is a directory after a step of the disks was one before it, unless it was made. -/
theorem step_dir {d d' : Disk} {q : SfsReq} {a : q.Ans} (hq : q.Builds)
    (hs : d.step q = some (a, d')) (hv : d'.node x p = some (.dir b)) :
    (∃ b', d.node x p = some (.dir b')) ∨ q = .mkdir x p := by
  cases q with
  | mkdir y r =>
    rw [Disk.step] at hs
    split at hs
    · cases hs
      by_cases hxy : x = y ∧ p = r
      · exact .inr (by rw [hxy.1, hxy.2])
      · exact .inl ⟨b, (if_neg hxy).symm.trans hv⟩
    · cases hs
      exact .inl ⟨b, hv⟩
  | setNormal y r =>
    rw [Disk.step] at hs
    split at hs
    · cases hs
      exact .inl ⟨b, hv⟩
    · cases hs
      exact .inl ⟨b, hv⟩
    · next b' hn =>
      cases hs
      by_cases hxy : x = y ∧ p = r
      · exact .inl ⟨b', by rw [hxy.1, hxy.2]; exact hn⟩
      · exact .inl ⟨b, (if_neg hxy).symm.trans hv⟩
  | create y r =>
    rw [Disk.step] at hs
    split at hs
    · cases hs
      by_cases hxy : x = y ∧ p = r
      · cases (if_pos hxy).symm.trans hv
      · exact .inl ⟨b, (if_neg hxy).symm.trans hv⟩
    · cases hs
      exact .inl ⟨b, hv⟩
  | _ => first | cases show true = false from hq | cases hs

/-- So is what is a directory after a request. -/
theorem builds_dir {q : SfsReq} {a : q.Ans} (hq : q.Builds) (hE : E.env q u a v)
    (hv : v.disk.node x p = some (.dir b)) :
    (∃ b', u.disk.node x p = some (.dir b')) ∨ q = .mkdir x p := by
  rcases E.disk hE with hd | hs
  · exact .inl ⟨b, hd ▸ hv⟩
  · exact step_dir hq hs hv

/-- A mkdir that fails changes nothing. -/
theorem mkdir_fails {err : Int} (hE : E.env (.mkdir y r) u err v) (h0 : err ≠ 0) :
    v.disk = u.disk := by
  rcases E.disk hE with hd | hs
  · exact hd
  · rw [Disk.step] at hs
    split at hs
    · exact absurd (answer_inj hs).1.symm h0
    · exact (answer_inj hs).2.symm

/-- A request that makes no directory. -/
theorem Midway.step (h : Midway target s)
    (hdir : ∀ {x p b}, u.disk.node x p = some (.dir b) →
      ∃ b', s.sys.disk.node x p = some (.dir b')) :
    Midway target { s with sys := u } where
  same hn := by
    obtain ⟨b', hb'⟩ := hdir hn
    exact h.same hb'
  plain := h.plain
  flat := h.flat
  mode := h.mode
  target := h.target

theorem found_sys (s : Owned) (x : Path) (p : Nat) (i : Option Inode) :
    (s.found x p i).sys = s.sys := by
  unfold Owned.found
  split <;> rfl

theorem node_of_inode {o : Option Obj} (h : o.map Obj.inode = some .dir) :
    ∃ b, o = some (.dir b) := by
  obtain ⟨o, rfl, ho⟩ := map_eq_some_iff.mp h
  cases o with
  | dir b => exact ⟨b, rfl⟩
  | file i => cases ho

/-- A directory is found: it has the attributes of the name. -/
theorem Midway.found (h : Midway target s) {i : Option Inode}
    (hi : i = some .dir → ∃ b, s.sys.disk.node x p = some (.dir b)) :
    Midway target (s.found x p i) := by
  unfold Owned.found
  split
  · next hdir =>
    obtain ⟨b, hb⟩ := hi hdir
    refine ⟨⟨h.same, h.plain, h.flat⟩, fun {y m} hm => ?_, h.target⟩
    show m = (s.inode y).mode
    have hm' : update s.mode x (some (s.replica x p).mode) y = some m := hm
    by_cases hyx : y = x
    · subst hyx
      rw [update_self] at hm'
      rw [← Option.some.inj hm', h.same hb]
    · rw [update_of_ne hyx] at hm'
      exact h.mode hm'
  · exact h

theorem setReplica_replica {q : Nat} {a : Attr} :
    (s.setReplica x p a).replica y q = if y = x ∧ q = p then a else s.replica y q := by
  show update s.replica x (update (s.replica x) p a) y q = _
  by_cases hy : y = x
  · subst hy
    rw [update_self]
    by_cases hq : q = p
    · rw [hq, update_self, if_pos ⟨rfl, rfl⟩]
    · rw [update_of_ne hq, if_neg fun h => hq h.2]
  · rw [update_of_ne hy, if_neg fun h => hy h.1]

/-- A directory is made by root, with the mode of the name. -/
theorem Midway.made (h : Midway target s) (hu : c.fsuid = 0) (hg : c.fsgid = 0)
    {mode : Nat} (hm : s.inode x = ⟨mode, 0, 0⟩) {err : Int}
    (hE : E.env (.mkdir x p) s.sys err u) :
    Midway target { s.made c x p mode err with sys := u } := by
  by_cases h0 : err = 0
  · have hinit : initOwner c (s.replica x.tail p) mode = ⟨mode, 0, 0⟩ := by
      rw [initOwner, h.flat, hu, hg]
      rfl
    rw [Owned.made, if_pos h0, hinit]
    refine ⟨⟨fun {y q b} hn => ?_, h.plain, fun y q => ?_⟩, h.mode, h.target⟩
    · show (s.setReplica x p ⟨mode, 0, 0⟩).replica y q = s.inode y
      rw [setReplica_replica]
      split
      · next hyq => rw [hyq.1, hm]
      · next hyq =>
        rcases builds_dir (q := .mkdir x p) trivial hE hn with ⟨b', hb'⟩ | hnew
        · exact h.same hb'
        · cases hnew
          exact absurd ⟨rfl, rfl⟩ hyq
    · show hasSgid ((s.setReplica x p ⟨mode, 0, 0⟩).replica y q).mode = false
      rw [setReplica_replica]
      split
      · exact (hm ▸ h.plain x).1
      · exact h.flat y q
  · rw [Owned.made, if_neg h0]
    exact h.step fun {y q b} hn => ⟨b, mkdir_fails hE h0 ▸ hn⟩

/-- The mode that a directory is made with is that of its name. -/
theorem sure_modeFor (h : Midway target s) (y : Path) :
    Sure (attrEnv E.dirEnv balks c) (modeFor target y) s
      (fun mode t => t = s ∧ s.inode y = ⟨mode, 0, 0⟩) := by
  have hask : Sure (attrEnv E.dirEnv balks c) (perform (S := AttrSig) (.iMode y)) s
      (fun mode t => t = s ∧ s.inode y = ⟨mode, 0, 0⟩) := by
    refine sure_ask.mpr ?_
    rintro m t ⟨rfl, rfl⟩
    exact sure_ret.mpr ⟨rfl, (h.plain y).eq⟩
  cases target with
  | none => exact hask
  | some xm =>
    obtain ⟨x, m⟩ := xm
    show Sure _ (if y = x then pure m else _) s _
    split
    · next hyx => exact sure_ret.mpr ⟨rfl, hyx ▸ h.target rfl⟩
    · exact hask

/-- A request of the code is answered as before, and the attributes stay even. -/
theorem Midway.request {q : DirReq} (hq : q.Builds)
    (hroot : (∃ y p, q = .sfs (.mkdir y p)) → c.fsuid = 0 ∧ c.fsgid = 0) (h : Midway target s) :
    Sure (attrEnv E.dirEnv balks c) (withModes target q) s
      (fun a t => E.dirEnv q s.sys a t.sys ∧ Midway target t) := by
  -- what is passed on as it is
  have hother : ∀ {r : DirReq}, r.Builds → (∀ y p, r ≠ .sfs (.mkdir y p)) →
      Sure (attrEnv E.dirEnv balks c) (perform (S := AttrSig) (.dir r)) s
        (fun a t => E.dirEnv r s.sys a t.sys ∧ Midway target t) := by
    intro r hr hmk
    refine sure_ask.mpr ?_
    rintro a _ ⟨u, hu, rfl⟩
    refine sure_ret.mpr ⟨hu, h.step fun {x p b} hn => ?_⟩
    cases r with
    | sfs r =>
      exact (builds_dir hr hu hn).resolve_right fun he => hmk x p (congrArg _ he)
    | firstNormal y =>
      obtain ⟨-, rfl⟩ := hu
      exact ⟨b, hn⟩
    | shrink y => exact hr.elim
    | moveTree y z => exact hr.elim
  cases q with
  | sfs q =>
    cases q with
    | mkdir y p =>
      obtain ⟨hu, hg⟩ := hroot ⟨y, p, rfl⟩
      refine sure_bind.mpr ((sure_modeFor h y).mono ?_)
      rintro mode _ ⟨rfl, hm⟩
      refine sure_ask.mpr ?_
      rintro err _ ⟨v, hv, rfl⟩
      exact sure_ret.mpr ⟨hv, h.made hu hg hm hv⟩
    | lookup y p =>
      refine sure_ask.mpr ?_
      rintro i _ ⟨v, hv, rfl⟩
      have hs : sysHandler (.lookup y p) s.sys = some (i, v) :=
        (E.quiet rfl).mp hv
      obtain ⟨hi, rfl⟩ := answer_inj hs
      refine sure_ret.mpr ⟨hv, ?_⟩
      have hfound : Midway target (s.found y p i) := h.found fun hdir =>
        (node_of_inode (hi.trans hdir))
      refine hfound.step fun {x r b} hn => ⟨b, ?_⟩
      rw [found_sys]
      exact hn
    | _ => exact hother hq (fun y p => nofun)
  | _ => exact hother hq (fun y p => nofun)

end Requests

/-! ## The calls keep it -/

/-- Between two calls. -/
def Good (N : Nat) (s : Owned) : Prop := (∃ D, Sane N D s.sys) ∧ Even s

section Calls

variable {E : Surroundings} {c : Cred} {balks : Nat → Bool} {target : Option (Path × Nat)}
  {N : Nat} {D : Path → Prop} {s t : Owned} {x : Path} {p : Nat}

/-- A call starts with its own variables. -/
theorem Even.start (h : Even s) : Midway none { s with mode := fun _ => none } :=
  ⟨⟨h.same, h.plain, h.flat⟩, nofun, nofun⟩

variable {α : Type} {Q : α → Sys → Prop}

/-- Code that is known, with the modes. -/
theorem Midway.minds {G : DirReq → Prop} {b : DirCode α} (h : Midway target s)
    (hG : ∀ {q}, G q → q.Builds ∧ ((∃ y p, q = .sfs (.mkdir y p)) → c.fsuid = 0 ∧ c.fsgid = 0))
    (hb : Minds (S := DirSig) E.dirEnv G b s.sys Q) :
    Sure (attrEnv E.dirEnv balks c) (b.expand (withModes target)) s
      (fun a t => Q a t.sys ∧ Midway target t) :=
  Minds.expand (fun hq hJ => hJ.request (hG hq).1 (hG hq).2) hb h

/-- Code that makes directories for root. -/
theorem Midway.goes {b : DirCode α} (h : Midway target s) (hu : c.fsuid = 0) (hg : c.fsgid = 0)
    (hb : GoesDir E b s.sys Q) :
    Sure (attrEnv E.dirEnv balks c) (b.expand (withModes target)) s
      (fun a t => Q a t.sys ∧ Midway target t) :=
  h.minds (fun hq => ⟨hq, fun _ => ⟨hu, hg⟩⟩) hb

/-- A request that makes no directory. -/
def NoMkdir (q : DirReq) : Prop := q.Builds ∧ ∀ y p, q ≠ .sfs (.mkdir y p)

variable {u : Sys}

theorem Still.noMkdir {b : Code α} {a : α} {v : Sys} (hb : Still b u a v) (hQ : Q a v) :
    Minds (S := DirSig) E.dirEnv NoMkdir (lift b) u Q := by
  induction b generalizing u with
  | ret b =>
    cases hb
    exact hQ
  | ask q k ih =>
    obtain ⟨⟨r, w⟩, hq, hk⟩ :=
      bind_eq_some_iff.mp ((run_ask ..).symm.trans hb)
    obtain ⟨hd, hs⟩ := quietHandler_eq_some hq
    refine ⟨⟨builds_of_quiet hd, ?_⟩, fun y w' hy => ?_⟩
    · rintro y p ⟨⟩
      cases hd
    · cases hs.symm.trans ((E.quiet hd).mp hy)
      exact ih _ hk

/-- Code that changes no disk, for any user. -/
theorem Midway.still {b : Code α} {a : α} (h : Midway none s) (hb : Still b s.sys a u) :
    Sure (attrEnv E.dirEnv balks c) (base b) s
      (fun a' t => (a' = a ∧ t.sys = u) ∧ Midway none t) := by
  have hquiet : Minds (S := DirSig) E.dirEnv NoMkdir (lift b) s.sys
      (fun a' t => a' = a ∧ t = u) := Still.noMkdir hb ⟨rfl, rfl⟩
  have hroot : ∀ {q}, NoMkdir q → q.Builds
      ∧ ((∃ y p, q = .sfs (.mkdir y p)) → c.fsuid = 0 ∧ c.fsgid = 0) := by
    rintro q ⟨hq, hno⟩
    exact ⟨hq, fun ⟨y, p, he⟩ => absurd he (hno y p)⟩
  show Sure (attrEnv E.dirEnv balks c) ((lift b).expand (withModes none)) s _
  exact h.minds hroot hquiet

/-- `SFS_D(dentry)`. -/
theorem sure_sfsD (s : Owned) (x : Path) : Sure (attrEnv E.dirEnv balks c) (base (sfsD x)) s
      (fun d t => t = s ∧ s.sys.mem x = some d) := by
  refine sure_ask.mpr ?_
  rintro d _ ⟨u, hu, rfl⟩
  have hs : sysHandler (.sfsD x) s.sys = some (d, u) := (E.quiet rfl).mp hu
  obtain ⟨d', hd, he⟩ := map_eq_some_iff.mp hs
  cases he
  exact sure_ret.mpr ⟨rfl, hd⟩

theorem hasSgid_dir (mode : Nat) : hasSgid (mode ||| sIfdir) = hasSgid mode := by
  have h : (mode ||| sIfdir) &&& sIsgid = mode &&& sIsgid := by
    rw [Nat.and_or_distrib_right]
    exact Nat.or_zero _
  rw [hasSgid, hasSgid, h]

/-- `sfs_mkdir`. -/
theorem good_mkdir (hN : 0 < N) (hs : Good N s) {mode : Nat} (hr : (Op.mkdir x).Ready s.sys)
    (hu : c.fsuid = 0) (hg : c.fsgid = 0) (hm : hasSgid mode = false) :
    Sure (attrEnv E.dirEnv balks c) (sfsMkdir N x mode)
      { s with mode := fun _ => none } (fun _ t => Good N t) := by
  obtain ⟨⟨D, hD⟩, he⟩ := hs
  obtain ⟨dx, hv⟩ := hD.vacant hr.1 hr.2
  refine sure_ask.mpr ?_
  rintro _ _ rfl
  -- the inode is new, and no partition has the name
  have hmid : Midway (some (x, mode ||| sIfdir))
      (({ s with mode := fun _ => none } : Owned).setInode x ⟨mode ||| sIfdir, 0, 0⟩) := by
    refine ⟨⟨fun {y q b} hn => ?_, fun y => ?_, he.flat⟩, nofun, ?_⟩
    · have hne : y ≠ x := by
        rintro rfl
        cases (hv.none q).symm.trans hn
      exact (he.same hn).trans (update_of_ne hne ..).symm
    · show Attr.Plain (update s.inode x _ y)
      by_cases hy : y = x
      · rw [hy, update_self]
        exact ⟨(hasSgid_dir mode).trans hm, rfl, rfl⟩
      · rw [update_of_ne hy]
        exact he.plain y
    · rintro y m ⟨⟩
      exact update_self ..
  refine (hmid.goes hu hg (goes_sfsMkdir hv hN)).mono ?_
  rintro a t ⟨ht, hmid'⟩
  rcases ht with ht | ht
  · exact ⟨⟨_, ht⟩, hmid'.toEven⟩
  · exact ⟨⟨_, ht⟩, hmid'.toEven⟩

/-- `sfs_create`. -/
theorem good_create (hN : 0 < N) (hs : Good N s)
    (hr : (Op.create x).Ready s.sys) (hu : c.fsuid = 0) (hg : c.fsgid = 0) :
    Sure (attrEnv E.dirEnv balks c) (sfsCreate N x)
      { s with mode := fun _ => none } (fun _ t => Good N t) := by
  obtain ⟨⟨D, hD⟩, he⟩ := hs
  obtain ⟨dx, hv⟩ := hD.vacant hr.1 hr.2
  refine (he.start.goes hu hg (Minds.lift (goes_sfsCreate hv hN))).mono ?_
  rintro a t ⟨⟨ht, -⟩, hmid⟩
  exact ⟨⟨D, ht⟩, hmid.toEven⟩

/-- The inode that a lookup makes has the attributes that the name had. -/
theorem Even.newInode (h : Even s) {m : Nat} (hm : m = (s.inode x).mode) :
    Even (s.setInode x ⟨m, 0, 0⟩) := by
  have hsame : s.setInode x ⟨m, 0, 0⟩ = s := by
    show { s with inode := update s.inode x ⟨m, 0, 0⟩ } = s
    rw [hm, ← (h.plain x).eq, update_eq_self]
  rw [hsame]
  exact h

/-- `sfs_lookup`, for any user. -/
theorem good_lookup (hN : 0 < N) (hs : Good N s) (hr : (Op.lookup x).Ready s.sys) :
    Sure (attrEnv E.dirEnv balks c) (sfsLookup N x)
      { s with mode := fun _ => none } (fun _ t => Good N t) := by
  obtain ⟨⟨D, hD⟩, he⟩ := hs
  obtain ⟨⟨hx, dZ, hZ, hdir⟩, -⟩ := hr
  obtain ⟨a, A, rfl⟩ := exists_cons_of_ne_nil hx
  obtain ⟨u, hstill, hu⟩ := hD.lookup (c := a) hN hZ ((hD.dir_iff hZ).mp hdir)
  refine sure_bind.mpr ((he.start.still hstill).mono ?_)
  rintro err t ⟨⟨rfl, rfl⟩, hmid⟩
  have hgood : Good N t := ⟨⟨D, hu⟩, hmid.toEven⟩
  refine sure_bind.mpr ((sure_sfsD t (a :: A)).mono ?_)
  rintro d _ ⟨rfl, -⟩
  refine sure_bind.mpr ?_
  by_cases hfound : (0 : Int) = 0 ∧ d.OfDir
  · rw [onlyIf_pos hfound]
    refine sure_ask.mpr ?_
    rintro m v ⟨rfl, rfl⟩
    cases hm : v.mode (a :: A) with
    | none => exact sure_ask.mpr nofun
    | some m =>
      refine sure_ask.mpr ?_
      rintro _ _ rfl
      exact sure_ret.mpr (sure_ret.mpr ⟨⟨D, hu⟩, hmid.toEven.newInode (hmid.mode hm)⟩)
  · rw [onlyIf_neg hfound]
    exact sure_ret.mpr (sure_ret.mpr hgood)

/-! ### `sfs_setattr` -/

/-- A change that leaves the owner at root, and sets no set-group-ID bit. -/
structure Iattr.Plain (ia : Iattr) : Prop where
  mode : ∀ m, ia.mode = some m → hasSgid m = false
  uid : ∀ u, ia.uid = some u → u = 0
  gid : ∀ g, ia.gid = some g → g = 0

variable {ia : Iattr} {a : Attr} {dx : SfsDentry}

theorem allowed_eq (c : Cred) (gid : Nat) {m : Nat} (h : hasSgid m = false) :
    c.allowed gid m = m := by
  have hdrop : dropSgid m = m := by
    rw [dropSgid, h]
    rfl
  rw [Cred.allowed, hdrop, ite_self]

theorem Iattr.Plain.map_mode (h : ia.Plain) (gid : Nat) :
    ia.mode.map (c.allowed gid) = ia.mode := by
  cases hm : ia.mode with
  | none => rfl
  | some m => rw [map_some, allowed_eq c gid (h.mode m hm)]

/-- All replicas get the `attr` of the call. -/
theorem Iattr.Plain.changeOk (h : ia.Plain) : inodeChangeOk c a ia = ia := by
  rw [inodeChangeOk, h.map_mode]

theorem Iattr.Plain.copy_flat (h : ia.Plain) (ha : hasSgid a.mode = false) :
    hasSgid (setattrCopy c a ia).mode = false := by
  show hasSgid ((ia.mode.map _).getD a.mode) = false
  rw [h.map_mode]
  cases hm : ia.mode with
  | none => exact ha
  | some m => exact h.mode m hm

theorem Iattr.Plain.copy (h : ia.Plain) (ha : a.Plain) : (setattrCopy c a ia).Plain := by
  obtain ⟨hsgid, hu, hg⟩ := ha
  refine ⟨h.copy_flat hsgid, ?_, ?_⟩
  · show ia.uid.getD a.uid = 0
    cases hm : ia.uid with
    | none => exact hu
    | some u => exact h.uid u hm
  · show ia.gid.getD a.gid = 0
    cases hm : ia.gid with
    | none => exact hg
    | some g => exact h.gid g hm

/-- The slot has a replica. -/
def HasReplica (dx : SfsDentry) (p : Nat) : Prop :=
  ((dx.replicas p).bind Replica.inode).isSome = true

instance (dx : SfsDentry) (p : Nat) : Decidable (HasReplica dx p) :=
  inferInstanceAs (Decidable (_ = true))

/-- The loop has changed the replicas in `ps`. -/
structure Notified (c : Cred) (x : Path) (dx : SfsDentry) (ia : Iattr)
    (ps : List Nat) (s t : Owned) : Prop where
  sys : t.sys = s.sys
  inode : t.inode = s.inode
  others : ∀ {y}, y ≠ x → ∀ q, t.replica y q = s.replica y q
  changed : ∀ q, t.replica x q
    = if q ∈ ps ∧ HasReplica dx q then setattrCopy c (s.replica x q) ia else s.replica x q

variable {ps : List Nat}

/-- A partition without the directory is passed over. -/
theorem Notified.skip (h : Notified c x dx ia ps s t) (hp : ¬ HasReplica dx p) :
    Notified c x dx ia (p :: ps) s t := by
  refine ⟨h.sys, h.inode, h.others, fun q => (h.changed q).trans (if_congr ?_ rfl rfl)⟩
  constructor
  · exact fun hq => ⟨.tail _ hq.1, hq.2⟩
  · rintro ⟨hq, hf⟩
    refine ⟨(mem_cons.mp hq).resolve_left ?_, hf⟩
    rintro rfl
    exact hp hf

/-- A replica is changed before the rest. -/
theorem Notified.next
    (h : Notified c x dx ia ps (s.setReplica x p (setattrCopy c (s.replica x p) ia)) t)
    (hp : HasReplica dx p) (hnd : p ∉ ps) : Notified c x dx ia (p :: ps) s t := by
  refine ⟨h.sys, h.inode, fun {y} hy q => ?_, fun q => (h.changed q).trans ?_⟩
  · rw [h.others hy, setReplica_replica, if_neg fun he => hy he.1]
  · by_cases hq : q = p
    · subst hq
      rw [if_neg fun hin => hnd hin.1, if_pos ⟨.head _, hp⟩, setReplica_replica, if_pos ⟨rfl, rfl⟩]
    · have hsame : (s.setReplica x p (setattrCopy c (s.replica x p) ia)).replica x q
          = s.replica x q := by
        rw [setReplica_replica, if_neg fun he => hq he.2]
      rw [hsame]
      refine if_congr ?_ rfl rfl
      rw [mem_cons, or_iff_right hq]

theorem sure_find (s : Owned) (x : Path) (p : Nat) :
    Sure (attrEnv E.dirEnv balks c) (base (findReplicaDentry x p)) s
      (fun r t => t = s ∧ ∃ d, s.sys.mem x = some d ∧ r = d.replicas p) := by
  have hread : Sure (attrEnv E.dirEnv balks c) (base (sfsD x)) s _ := sure_sfsD s x
  refine sure_ask.mpr fun d t hd => sure_ret.mpr ?_
  obtain ⟨rfl, hmem⟩ := sure_ret.mp (sure_ask.mp hread d t hd)
  exact ⟨rfl, d, hmem, rfl⟩

/-- What `fileOf` makes of the replica that it finds. -/
def fileIn (r : Option Replica) : Code Nat :=
  match r.bind Replica.inode with
  | some (.file i) => pure i
  | _ => oops

theorem sure_fileOf (s : Owned) (x : Path) (p : Nat) :
    Sure (attrEnv E.dirEnv balks c) (base (fileOf x p)) s (fun _ t => t = s) := by
  have hread : Sure (attrEnv E.dirEnv balks c) (base (sfsD x)) s _ := sure_sfsD s x
  refine sure_ask.mpr fun d t hd => ?_
  obtain ⟨rfl, -⟩ := sure_ret.mp (sure_ask.mp hread d t hd)
  show Sure _ (Prog.expand _ (lift (fileIn (d.replicas p)))) t _
  unfold fileIn
  split
  · exact sure_ret.mpr rfl
  · exact sure_ask.mpr fun a => Empty.elim a

/-- A slot without a replica is passed over. -/
theorem sure_notifySkip {err : Int} {Q : Except Int (Int × Iattr) → Owned → Prop}
    (hx : s.sys.mem x = some dx) (hp : ¬ HasReplica dx p)
    (h : Sure (attrEnv E.dirEnv balks c) (notifyReplicas x ps ia err) s Q) :
    Sure (attrEnv E.dirEnv balks c) (notifyReplicas x (p :: ps) ia err) s Q := by
  refine sure_bind.mpr ((sure_find s x p).mono ?_)
  rintro r _ ⟨rfl, d, hd, rfl⟩
  cases hx.symm.trans hd
  have hi : (dx.replicas p).bind Replica.inode = none := by
    rw [← not_isSome_iff_eq_none]
    exact hp
  rcases bind_inode_none hi with hr | ⟨z, hr⟩
  · rw [hr]
    exact h
  · rw [hr]
    exact h

/-- A replica is changed, or refuses. -/
theorem sure_notifyReplica {err : Int}
    {Q : Except Int (Int × Iattr) → Owned → Prop} (hx : s.sys.mem x = some dx)
    (hsound : Sound s.sys.disk x dx) (hp : HasReplica dx p)
    (hdone : balks p = false → Sure (attrEnv E.dirEnv balks c)
      (notifyReplicas x ps (inodeChangeOk c (s.replica x p) ia) 0)
      (s.setReplica x p (setattrCopy c (s.replica x p) ia)) Q)
    (hfail : balks p = true → ∀ e, e ≠ 0 → Q (.error e) s) :
    Sure (attrEnv E.dirEnv balks c) (notifyReplicas x (p :: ps) ia err) s Q := by
  refine sure_bind.mpr ((sure_find s x p).mono ?_)
  rintro r _ ⟨rfl, d, hd, rfl⟩
  cases hx.symm.trans hd
  rename_i s
  obtain ⟨i, hi⟩ := isSome_iff_exists.mp hp
  have hslot : dx.replicas p = some ⟨x, some i⟩ := by
    rcases hsound p with h | h
    · rw [h] at hi
      cases hi
    · rw [h] at hi ⊢
      have hi' : (s.sys.disk.slot x p).inode = some i := hi
      rw [← hi']
      rfl
  rw [hslot]
  refine sure_bind.mpr (sure_ask.mpr fun r t hr => ?_)
  have hr' : if balks p then r.1 ≠ 0 ∧ t = s
      else r = (0, inodeChangeOk c (s.replica x p) ia)
        ∧ t = s.setReplica x p (setattrCopy c (s.replica x p) ia) := hr
  split at hr'
  · next hb =>
    obtain ⟨hr0, rfl⟩ := hr'
    refine sure_ret.mpr ?_
    rw [if_pos hr0]
    exact sure_ret.mpr (hfail hb r.1 hr0)
  · next hb =>
    obtain ⟨rfl, rfl⟩ := hr'
    refine sure_ret.mpr ?_
    rw [if_neg (fun h => h rfl)]
    exact hdone (by simpa using hb)

/-- The loop of `sfs_dir_setattr` when no replica refuses. -/
theorem sure_notifyReplicas (hia : ia.Plain) (hx : s.sys.mem x = some dx)
    (hsound : Sound s.sys.disk x dx) (hok : ∀ p, HasReplica dx p → balks p = false)
    (hnd : ps.Nodup) (err : Int) :
    Sure (attrEnv E.dirEnv balks c) (notifyReplicas x ps ia err) s
      (fun r t => Notified c x dx ia ps s t ∧ ∃ e, r = .ok (e, ia)) := by
  induction ps generalizing s err with
  | nil =>
    exact sure_ret.mpr ⟨⟨rfl, rfl, fun _ _ => rfl,
      fun q => (if_neg fun h => nomatch h.1).symm⟩, err, rfl⟩
  | cons p ps ih =>
    obtain ⟨hp, hnd'⟩ := nodup_cons.mp hnd
    by_cases hyes : HasReplica dx p
    · refine sure_notifyReplica hx hsound hyes (fun _ => ?_)
        fun hb => nomatch (hok p hyes).symm.trans hb
      rw [hia.changeOk]
      have hx' : (s.setReplica x p (setattrCopy c (s.replica x p) ia)).sys.mem x = some dx := hx
      exact (ih hx' hsound hnd' 0).mono fun _ _ h => ⟨h.1.next hyes hp, h.2⟩
    · exact sure_notifySkip hx hyes
        ((ih hx hsound hnd' err).mono fun _ _ h => ⟨h.1.skip hyes, h.2⟩)

/-- The loop when the first replica refuses. -/
theorem sure_notifyRefused {q : Nat} (hx : s.sys.mem x = some dx)
    (hsound : Sound s.sys.disk x dx) (hq : HasReplica dx q) (hb : balks q = true)
    {qs : List Nat} (hps : ∀ p ∈ ps, ¬ HasReplica dx p) (err : Int) :
    Sure (attrEnv E.dirEnv balks c) (notifyReplicas x (ps ++ q :: qs) ia err) s
      (fun r t => t = s ∧ ∃ e, r = .error e) := by
  induction ps with
  | nil =>
    exact sure_notifyReplica hx hsound hq (fun h => nomatch hb.symm.trans h)
      fun _ e _ => ⟨rfl, e, rfl⟩
  | cons p ps ih =>
    exact sure_notifySkip hx (hps p (.head _)) (ih fun r hr => hps r (.tail _ hr))

/-- The slots of a directory are those of the partitions that hold it. -/
theorem hasReplica_iff {d : Disk} (w : World N D d) (hD : D x) (hx : Depicts N d x dx) :
    HasReplica dx p ↔ d.Holds x p := by
  cases hn : d.node x p with
  | none =>
    rw [HasReplica, hx.toReflects.lacks hn]
    exact ⟨nofun, fun ⟨b, hb⟩ => nomatch hn.symm.trans hb⟩
  | some o =>
    obtain ⟨b, rfl⟩ := w.dir_of hD hn
    rw [HasReplica, hx.toReflects.dir hn]
    exact ⟨fun _ => ⟨b, hn⟩, fun _ => rfl⟩

/-- All replicas and the inode have been changed alike. -/
theorem Notified.even (hs : Even s) (hia : ia.Plain) (w : World N D s.sys.disk) (hD : D x)
    (hx : Depicts N s.sys.disk x dx) (h : Notified c x dx ia (range N) s t) :
    Even (t.setInode x (setattrCopy c (t.inode x) ia)) := by
  have hinode : ∀ y, (t.setInode x (setattrCopy c (t.inode x) ia)).inode y
      = if y = x then setattrCopy c (s.inode x) ia else s.inode y := by
    intro y
    show update t.inode x _ y = _
    rw [h.inode]
    by_cases hy : y = x
    · rw [hy, update_self, if_pos rfl]
    · rw [update_of_ne hy, if_neg hy]
  refine ⟨fun {y p b} hn => ?_, fun y => ?_, fun y p => ?_⟩
  · have hn' : s.sys.disk.node y p = some (.dir b) := h.sys ▸ hn
    rw [hinode]
    split
    · next hy =>
      -- the slot of a replica that exists is filled
      subst hy
      have hf : HasReplica dx p := (hasReplica_iff w hD hx).mpr ⟨b, hn'⟩
      show t.replica y p = _
      rw [h.changed, if_pos ⟨mem_range.mpr (w.within hn'), hf⟩, hs.same hn']
    · next hy => exact (h.others hy p).trans (hs.same hn')
  · rw [hinode]
    split
    · exact hia.copy (hs.plain x)
    · exact hs.plain y
  · show hasSgid (t.replica y p).mode = false
    by_cases hy : y = x
    · rw [hy, h.changed]
      split
      · exact hia.copy_flat (hs.flat x p)
      · exact hs.flat x p
    · rw [h.others hy]
      exact hs.flat y p

/-- The same attributes and disks. -/
theorem Even.congr (h : Even s) (hsys : t.sys.disk = s.sys.disk)
    (hrep : t.replica = s.replica) (hinode : t.inode = s.inode) : Even t where
  same hn := by rw [hrep, hinode]; exact h.same (hsys ▸ hn)
  plain x := by rw [hinode]; exact h.plain x
  flat x p := by rw [hrep]; exact h.flat x p

/-- `sfs_setattr`, when it does not stop half-way. -/
theorem good_setattr (hs : Good N s) (hr : (Call.setattr x ia).Ready s.sys)
    (hia : ia.Plain) (hcut : Uncut balks s.sys.disk x ia) (junk : Int) :
    Sure (attrEnv E.dirEnv balks c) (sfsSetattr N x ia junk) { s with mode := fun _ => none }
      (fun _ t => Good N t) := by
  obtain ⟨⟨D, hD⟩, he⟩ := hs
  have hsame : Good N { s with mode := fun _ => none } :=
    ⟨⟨D, hD⟩, he.start.toEven⟩
  refine sure_bind.mpr ((sure_sfsD _ x).mono ?_)
  rintro dx _ ⟨rfl, hx⟩
  obtain ⟨d, hd, hpos⟩ := hr
  cases hx.symm.trans hd
  cases hid : dx.replicaId with
  | some r =>
    refine sure_bind.mpr ((sure_fileOf _ x r).mono ?_)
    rintro i _ rfl
    refine sure_ask.mpr ?_
    rintro a _ rfl
    exact sure_ret.mpr hsame
  | none =>
    have hDx : D x := (hD.dir_iff hx).mp ⟨hpos, hid⟩
    have hdx := hD.dirs hDx hx
    show Sure _ (sfsDirSetattr N x ia junk) _ _
    unfold sfsDirSetattr
    split
    · exact sure_ret.mpr hsame
    · next hsize =>
      have hiff : ∀ {p}, HasReplica dx p ↔ s.sys.disk.Holds x p := hasReplica_iff hD.world hDx hdx
      rcases hcut.resolve_left hsize with hok | ⟨q, hq, hb, hfirst⟩
      · refine sure_bind.mpr ((sure_notifyReplicas hia hx hdx.sound
          (fun p hp => hok p (hiff.mp hp)) nodup_range junk).mono ?_)
        rintro _ t ⟨h, e, rfl⟩
        refine sure_ask.mpr ?_
        rintro _ _ rfl
        refine sure_ret.mpr ⟨⟨D, h.sys ▸ hD⟩, ?_⟩
        exact h.even hsame.2 hia hD.world hDx hdx
      · obtain ⟨b, hn⟩ := hq
        obtain ⟨qs, hqs⟩ := range_split (hD.world.within hn)
        have hrefused : Sure (attrEnv E.dirEnv balks c) (notifyReplicas x (range q ++ q :: qs)
            ia junk) { s with mode := fun _ => none } _ :=
          sure_notifyRefused hx hdx.sound (hiff.mpr ⟨b, hn⟩) hb
            (fun p hp h => hfirst p (mem_range.mp hp) (hiff.mp h)) junk
        rw [← hqs] at hrefused
        refine sure_bind.mpr (hrefused.mono ?_)
        rintro _ _ ⟨rfl, e, rfl⟩
        exact sure_ret.mpr hsame

/-- A harmless call leads from one good state to another. -/
theorem Good.call (hN : 0 < N) {o : Call} {a junk : Int} (hs : Good N s)
    (hr : o.Ready s.sys) (hh : Harmless c balks o s)
    (ho : Outcome (attrEnv (callerEnv c) balks c) (o.code N junk)
      { s with mode := fun _ => none } a t) : Good N t := by
  obtain ⟨hadmin, hh⟩ := hh
  rw [callerEnv, if_pos hadmin] at ho
  cases o with
  | lookup z => exact good_lookup hN hs hr a t ho
  | create z =>
    obtain ⟨hu, hg⟩ := hh
    exact good_create hN hs hr hu hg a t ho
  | mkdir z mode =>
    obtain ⟨hu, hg, hm⟩ := hh
    exact good_mkdir hN hs hr hu hg hm a t ho
  | setattr z ia =>
    obtain ⟨hm, hu, hg, hcut⟩ := hh
    exact good_setattr hs hr ⟨hm, hu, hg⟩ hcut junk a t ho

theorem Good.forget (hs : Good N s) (hx : ∀ a, s.sys.mem (a :: x) = none) :
    Good N { s with sys := s.sys.forget x } := by
  obtain ⟨⟨D, hD⟩, he⟩ := hs
  exact ⟨⟨D, hD.forget hx⟩, he.congr rfl rfl rfl⟩

/-- A mount of partitions whose roots have the attributes of the SFS root. -/
theorem good_mount (hN : 0 < N) {roots : Nat → Attr} (hroots : ∀ p, roots p = ⟨sIfdir, 0, 0⟩)
    {a : Int} (hu : Outcome E.dirEnv (lift (mountRoot N)) (booted (blank N)) a u) :
    Good N (mounted roots u) := by
  obtain ⟨v, hstill, hv⟩ :=
    sane_mount (s := booted (blank N)) world_blank plain_blank hN fun _ => rfl
  have hsure : GoesDir E (lift (mountRoot N)) (booted (blank N))
      (fun _ t => t = v) := Minds.lift (goes_still hstill rfl)
  obtain rfl : u = v := hsure.sure a u hu
  have hrep : ∀ x p, (mounted roots u).replica x p = (mounted roots u).inode x := by
    intro x p
    show (if x = [] then roots p else _) = if x = [] then _ else _
    rw [hroots]
  have hplain : ∀ x, ((mounted roots u).inode x).Plain := by
    intro x
    show Attr.Plain (if x = [] then _ else _)
    split
    · exact ⟨by decide, rfl, rfl⟩
    · exact ⟨by decide, rfl, rfl⟩
  exact ⟨⟨_, hv⟩, fun _ => hrep _ _, hplain, fun x p => (hrep x p).symm ▸ (hplain x).1⟩

/-- The states that harmless calls lead to. -/
theorem Reach.good (hN : 0 < N) {roots : Nat → Attr} (hroots : ∀ p, roots p = ⟨sIfdir, 0, 0⟩)
    (h : Reach Harmless N roots s) : Good N s := by
  induction h with
  | mount hu => exact good_mount hN hroots hu
  | call _ hr ho hh ih => exact ih.call hN hr hh ho
  | forget _ hx ih => exact ih.forget hx

end Calls

/-! ## Concrete runs -/

/-- Surroundings of the user `c` that do what is legal. -/
def attrHandler (c : Cred) : Handler AttrSig Owned
  | .dir q, s =>
    (dirHandler 0 noneLost q s.sys).map fun r => (r.1, { s with sys := r.2 })
  | .lookup x p, s =>
    (dirHandler 0 noneLost (.sfs (.lookup x p)) s.sys).map fun r =>
      (r.1, { s.found x p r.1 with sys := r.2 })
  | .mkdir x p mode, s =>
    (dirHandler 0 noneLost (.sfs (.mkdir x p)) s.sys).map fun r =>
      (r.1, { s.made c x p mode r.1 with sys := r.2 })
  | .iMode x, s => some ((s.inode x).mode, s)
  | .mode x, s => some (s.mode x, s)
  | .newInode x mode, s => some ((), s.setInode x ⟨mode, 0, 0⟩)
  | .notifyChange x p ia, s =>
    some ((0, inodeChangeOk c (s.replica x p) ia),
      s.setReplica x p (setattrCopy c (s.replica x p) ia))
  | .notifyFile _ _ _, s => some ((0 : Int), s)
  | .setattrCopy x ia, s =>
    some ((), s.setInode x (setattrCopy c (s.inode x) ia))

/-- A call in concrete surroundings. -/
def Owned.after (N : Nat) (s : Owned) (c : Cred) (o : Call) : Owned :=
  ((run (attrHandler c) (o.code N 0) { s with mode := fun _ => none }).map Prod.snd).getD s

section Runs

variable {N : Nat} {roots : Nat → Attr} {s t : Owned}
  {fair : Cred → (Nat → Bool) → Call → Owned → Prop} {c : Cred} {o : Call}

instance {u : Sys} : Decidable (o.Ready u) := by
  cases o <;> unfold Call.Ready <;> infer_instance

theorem attrEnv_of_handler {q : AttrReq} {a : q.Ans} (h : attrHandler c q s = some (a, t)) :
    attrEnv harsh.dirEnv (fun _ => false) c q s a t := by
  cases q with
  | dir q =>
    obtain ⟨r, hr, he⟩ := map_eq_some_iff.mp h
    cases he
    exact ⟨r.2, harsh_of_dirHandler hr, rfl⟩
  | lookup x p =>
    have h' : (dirHandler 0 noneLost (.sfs (.lookup x p)) s.sys).map
        (fun r => (r.1, { s.found x p r.1 with sys := r.2 }))
        = some (a, t) := h
    obtain ⟨r, hr, he⟩ := map_eq_some_iff.mp h'
    cases he
    exact ⟨r.2, harsh_of_dirHandler hr, rfl⟩
  | mkdir x p mode =>
    obtain ⟨r, hr, he⟩ := map_eq_some_iff.mp h
    cases he
    exact ⟨r.2, harsh_of_dirHandler hr, rfl⟩
  | iMode x =>
    cases h
    exact ⟨rfl, rfl⟩
  | mode x =>
    cases h
    exact ⟨rfl, rfl⟩
  | newInode x mode => exact (answer_inj h).2.symm
  | notifyChange x p ia =>
    cases h
    exact ⟨rfl, rfl⟩
  | notifyFile p i ia => exact (answer_inj h).2.symm
  | setattrCopy x ia => exact (answer_inj h).2.symm

theorem Reach.after (h : Reach fair N roots s) (hc : c.capSysAdmin = true) (ho : o.Ready s.sys)
    (hf : fair c (fun _ => false) o s) : Reach fair N roots (s.after N c o) := by
  unfold Owned.after
  cases hr : run (attrHandler c) (o.code N 0) { s with mode := fun _ => none } with
  | none => exact h
  | some r =>
    have hout : Outcome (attrEnv (callerEnv c) (fun _ => false) c) (o.code N 0)
        { s with mode := fun _ => none } r.1 r.2 := by
      rw [callerEnv, if_pos hc]
      exact (outcome_env.mpr hr).widen fun _ _ _ _ => attrEnv_of_handler
    exact h.call ho hout hf

end Runs

/-! ## The result -/

end SfsAttr
