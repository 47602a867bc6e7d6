import MultiLanes.OutcomeProofs
import Mathlib.Logic.Function.Basic

/-! # SFS — dentries in memory and files in partitions

SFS spreads one name space over `N` partitions, each with a file system of its own.  A
directory may have a replica in any of them, and is NORMAL in some; a file is an object
in one partition, or a meta file in a normal partition that points to a data file in
another one.  The attribute `trusted.sfs.meta` of a file holds the four links by which a
rename that was interrupted is finished or undone.

This file has the state (`Sys`) and the requests (`SfsReq`) of the code: what it reads
and stores in its dentries, and the operations of the partitions' file systems.  The
latter that change a disk are durable, each at once and in program order, so that a
crash at any moment leaves `Sys.disk`.

`Does` is `Weathers` over these requests, and its rules are equivalences: the code is
followed once, for the crashes, the failures and the result. -/

namespace Sfs

open InteractProg Function Option

/-- A path, leaf first; names are numbered, and the root is `[]`. -/
abbrev Path : Type := List Nat

instance : LawfulBEq Path := inferInstanceAs (LawfulBEq (List Nat))

/-- `trusted.sfs.meta`; `none` is the -1 of the source. -/
structure Ptrs where
  pointer : Option Nat
  rename : Option Nat
  hidden : Option Nat
  stale : Option Nat
deriving DecidableEq, Repr

/-- `-1:-1:-1:-1`. -/
def Ptrs.unset : Ptrs := ⟨none, none, none, none⟩

/-- The links that a rename writes; the other fields are -1. -/
def pointerTo (p : Nat) : Ptrs := { Ptrs.unset with pointer := some p }

def renameTo (p : Nat) : Ptrs := { Ptrs.unset with rename := some p }

def hiddenBy (p : Nat) : Ptrs := { Ptrs.unset with hidden := some p }

def staleAt (p : Nat) : Ptrs := { Ptrs.unset with stale := some p }

/-- The inode of a replica: a directory, or a file with its number. -/
inductive Inode
  | dir
  | file (ino : Nat)
deriving DecidableEq, Repr

/-- A dentry of a partition's file system; it is negative without an inode. -/
structure Replica where
  path : Path
  inode : Option Inode
deriving DecidableEq

/-- `struct sfs_dentry`, with the test `dentry->d_inode` of its dentry. `first_normal_dir_id` is
    `none` while nothing has been stored there: no function initialises it. -/
structure SfsDentry where
  positive : Bool
  replicas : Nat → Option Replica
  replicaId : Option Nat
  metaId : Option Nat
  localCounter : Nat
  normalDirCount : Nat
  firstNormalDirId : Option Nat
  normalDirMap : Nat → Bool

/-- `sfs_dentry_real_alloc`. -/
def SfsDentry.fresh : SfsDentry where
  positive := false
  replicas _ := none
  replicaId := none
  metaId := none
  localCounter := 0
  normalDirCount := 0
  firstNormalDirId := none
  normalDirMap _ := false

/-- `clean_sfs_dentry`. -/
def SfsDentry.clean (d : SfsDentry) : SfsDentry :=
  { SfsDentry.fresh with
    positive := d.positive
    firstNormalDirId := d.firstNormalDirId }

/-- What a path is in a partition: a directory, marked by `trusted.sfs.shadow`
    as normal or not, or a file. -/
inductive Obj
  | dir (normal : Bool)
  | file (ino : Nat)
deriving DecidableEq, Repr

/-- The inode that a lookup finds. -/
def Obj.inode : Obj → Inode
  | .dir _ => .dir
  | .file i => .file i

/-- The disks: what each path is in each partition, the attribute of each inode,
    the next inode number, and a bound of the names that are in use. -/
structure Disk where
  node : Path → Nat → Option Obj
  attr : Nat → Nat → Option Ptrs
  next : Nat
  fan : Nat

/-- The whole: the cached dentries, the disks, and the counter of `dispatch`. -/
structure Sys where
  mem : Path → Option SfsDentry
  disk : Disk
  lastDispatch : Nat

/-! ## Requests -/

/-- The requests of SFS. -/
inductive SfsReq where
  /-- is there a dentry in the cache? -/
  | cached (x : Path)
  /-- `SFS_D(dentry)` -/
  | sfsD (x : Path)
  /-- a dentry is put into the cache -/
  | setD (x : Path) (d : SfsDentry)
  /-- fields of the dentry are stored -/
  | modD (x : Path) (f : SfsDentry → SfsDentry)
  /-- `d_move(old, new)` of the VFS, after which the target is not cached -/
  | moveD (x y : Path)
  /-- `atomic_add_return(1, &last_dispatch)` -/
  | addDispatch
  /-- `atomic_set(&last_dispatch, 0)` -/
  | clearDispatch
  /-- `i_op->lookup` in a partition -/
  | lookup (x : Path) (p : Nat)
  /-- `vfs_getxattr(.., "trusted.sfs.shadow", ..)`: is it "normal"? -/
  | isNormal (x : Path) (p : Nat)
  /-- `vfs_getxattr(.., "trusted.sfs.meta", ..)` -/
  | getxattr (p ino : Nat)
  /-- `i_op->mkdir` -/
  | mkdir (x : Path) (p : Nat)
  /-- `vfs_setxattr(.., "trusted.sfs.shadow", "normal", ..)` -/
  | setNormal (x : Path) (p : Nat)
  /-- `i_op->create` -/
  | create (x : Path) (p : Nat)
  /-- `i_op->link` -/
  | link (x y : Path) (p : Nat)
  /-- `vfs_setxattr(.., "trusted.sfs.meta", ..)` -/
  | setxattr (p ino : Nat) (ptrs : Ptrs)
  /-- `i_op->rename` -/
  | rename (x y : Path) (p : Nat)
  /-- `i_op->unlink` -/
  | unlink (x : Path) (p : Nat)
  /-- `i_op->rmdir` -/
  | rmdir (x : Path) (p : Nat)
  /-- a null pointer is dereferenced, or a field is used that was not stored -/
  | oops
  /-- a loop has outlived its bound -/
  | spin

/-- The answers; those of the durable requests are error codes. -/
@[reducible] def SfsReq.Ans : SfsReq → Type
  | .cached _ => Bool
  | .sfsD _ => SfsDentry
  | .addDispatch => Nat
  | .lookup _ _ => Option Inode
  | .isNormal _ _ => Bool
  | .getxattr _ _ => Option Ptrs
  | .mkdir _ _ => Int
  | .setNormal _ _ => Int
  | .create _ _ => Except Int Nat
  | .link _ _ _ => Int
  | .setxattr _ _ _ => Int
  | .rename _ _ _ => Int
  | .unlink _ _ => Int
  | .rmdir _ _ => Int
  | .oops => Empty
  | .spin => Empty
  | _ => Unit

/-- The signature of SFS. -/
abbrev SfsSig : Sig := ⟨SfsReq, SfsReq.Ans⟩

/-- `-EPERM`, `-ENOENT`, `-EIO`, `-EEXIST`, `-ENOTDIR`, `-EISDIR` and `-ENOTEMPTY`. -/
def eperm : Int := -1

/-- See `eperm`. -/
def enoent : Int := -2

/-- See `eperm`. -/
def eio : Int := -5

/-- See `eperm`. -/
def eexist : Int := -17

/-- See `eperm`. -/
def enotdir : Int := -20

/-- See `eperm`. -/
def eisdir : Int := -21

/-- See `eperm`. -/
def enotempty : Int := -39

def Disk.setNode (d : Disk) (x : Path) (p : Nat) (o : Option Obj) : Disk :=
  { d with node := fun y q => if y = x ∧ q = p then o else d.node y q }

def Disk.setAttr (d : Disk) (p i : Nat) (a : Option Ptrs) : Disk :=
  { d with attr := fun q j => if q = p ∧ j = i then a else d.attr q j }

/-- The name of `x` comes into use. -/
def Disk.grow (d : Disk) (x : Path) : Disk :=
  { d with fan := max d.fan (x.headD 0 + 1) }

/-- A tree is moved in a partition: what was below `x` is below `y`. -/
def Disk.moveTree (d : Disk) (x y : Path) (p : Nat) : Disk :=
  { d with node := fun z q =>
      if q = p then
        if y <:+ z then d.node (z.take (z.length - y.length) ++ x) p
        else if x <:+ z then none
        else d.node z p
      else d.node z q }

/-- A file is moved in a partition, over one that is there. -/
def Disk.moveFile (d : Disk) (x y : Path) (p : Nat) : Disk :=
  ((d.setNode x p none).setNode y p (d.node x p)).grow y

/-- A new file, without attribute. -/
def Disk.addFile (d : Disk) (x : Path) (p : Nat) : Disk :=
  { ((d.setNode x p (some (.file d.next))).setAttr p d.next none).grow x with
    next := d.next + 1 }

/-- A new directory, not marked. -/
def Disk.addDir (d : Disk) (x : Path) (p : Nat) : Disk :=
  (d.setNode x p (some (.dir false))).grow x

/-- A new name for a file. -/
def Disk.addLink (d : Disk) (x y : Path) (p : Nat) : Disk :=
  (d.setNode y p (d.node x p)).grow y

/-- A directory without entries. -/
def Disk.emptyDir (d : Disk) (x : Path) (p : Nat) : Bool :=
  (List.range d.fan).all (fun c => (d.node (c :: x) p).isNone)

/-- A durable request: its answer, and the disks after it.  An operation that is
    legal succeeds, and one that is not changes nothing. -/
def Disk.step (d : Disk) : (q : SfsReq) → Option (q.Ans × Disk)
  | .mkdir x p =>
    match d.node x p with
    | none => some ((0 : Int), d.addDir x p)
    | some _ => some (eexist, d)
  | .setNormal x p =>
    match d.node x p with
    | none => some (enoent, d)
    | some (.file _) => some (enotdir, d)
    | some (.dir _) => some ((0 : Int), d.setNode x p (some (.dir true)))
  | .create x p =>
    match d.node x p with
    | none => some ((.ok d.next : Except Int Nat), d.addFile x p)
    | some _ => some ((.error eexist : Except Int Nat), d)
  | .link x y p =>
    match d.node x p, d.node y p with
    | some (.file _), none => some ((0 : Int), d.addLink x y p)
    | some (.file _), some _ => some (eexist, d)
    | some (.dir _), _ => some (eisdir, d)
    | none, _ => some (enoent, d)
  | .setxattr p i a => some ((0 : Int), d.setAttr p i (some a))
  | .rename x y p =>
    match d.node x p, d.node y p with
    | none, _ => some (enoent, d)
    | some (.file _), some (.dir _) => some (eisdir, d)
    | some (.file _), _ => some ((0 : Int), d.moveFile x y p)
    | some (.dir _), none => some ((0 : Int), (d.moveTree x y p).grow y)
    | some (.dir _), some (.file _) => some (enotdir, d)
    | some (.dir _), some (.dir _) =>
      if d.emptyDir y p then
        some ((0 : Int), (d.moveTree x y p).grow y)
      else some (enotempty, d)
  | .unlink x p =>
    match d.node x p with
    | none => some (enoent, d)
    | some (.dir _) => some (eisdir, d)
    | some (.file _) => some ((0 : Int), d.setNode x p none)
  | .rmdir x p =>
    match d.node x p with
    | none => some (enoent, d)
    | some (.file _) => some (enotdir, d)
    | some (.dir _) =>
      if d.emptyDir x p then some ((0 : Int), d.setNode x p none)
      else some (enotempty, d)
  | _ => none

def Sys.setD (s : Sys) (x : Path) (d : SfsDentry) : Sys :=
  { s with mem := update s.mem x (some d) }

def Sys.onDisk (s : Sys) (d : Disk) : Sys := { s with disk := d }

/-- The dentry of `x` becomes that of `y`. -/
def Sys.moveD (s : Sys) (x y : Path) : Sys :=
  { s with mem := update (update s.mem y (s.mem x)) x none }

/-- The surroundings of SFS when no operation fails that is legal, for a caller who may
    use the attributes `trusted.*`. -/
def sysHandler : Handler SfsSig Sys
  | .cached x, s => some ((s.mem x).isSome, s)
  | .sfsD x, s => (s.mem x).map (fun d => (d, s))
  | .setD x d, s => some ((), s.setD x d)
  | .modD x f, s => (s.mem x).map (fun d => ((), s.setD x (f d)))
  | .moveD x y, s => some ((), s.moveD x y)
  | .addDispatch, s =>
    some (s.lastDispatch + 1, { s with lastDispatch := s.lastDispatch + 1 })
  | .clearDispatch, s => some ((), { s with lastDispatch := 0 })
  | .lookup x p, s => some ((s.disk.node x p).map Obj.inode, s)
  | .isNormal x p, s => some (decide (s.disk.node x p = some (.dir true)), s)
  | .getxattr p i, s => some (s.disk.attr p i, s)
  | q, s => (s.disk.step q).map (fun r => (r.1, s.onDisk r.2))

/-- What a caller is told who may not use the attributes `trusted.*`: `vfs_getxattr` finds
    none, and `vfs_setxattr` stores none.  (`generic_getxattr` in `modify` asks nobody, but
    what it reads goes into a store that is refused.) -/
def SfsReq.denied : (q : SfsReq) → Option q.Ans
  | .isNormal _ _ => some false
  | .getxattr _ _ => some none
  | .setNormal _ _ => some eperm
  | .setxattr _ _ _ => some eperm
  | _ => none

/-- The surroundings of SFS for any caller.  `may` says of which requests the attributes can
    be used: of all by a caller with `CAP_SYS_ADMIN`, of none by any other. -/
def callerHandler (may : SfsReq → Bool) : Handler SfsSig Sys := fun q s =>
  if may q then sysHandler q s
  else
    match q.denied with
    | some a => some (a, s)
    | none => sysHandler q s

/-! ## The requests as programs -/

/-- Code of SFS. -/
abbrev Code (α : Type) : Type := Prog SfsSig α

def cached (x : Path) : Code Bool := perform (S := SfsSig) (.cached x)

def sfsD (x : Path) : Code SfsDentry := perform (S := SfsSig) (.sfsD x)

def setD (x : Path) (d : SfsDentry) : Code Unit :=
  perform (S := SfsSig) (.setD x d)

def modD (x : Path) (f : SfsDentry → SfsDentry) : Code Unit :=
  perform (S := SfsSig) (.modD x f)

def moveD (x y : Path) : Code Unit := perform (S := SfsSig) (.moveD x y)

def addDispatch : Code Nat := perform (S := SfsSig) .addDispatch

def clearDispatch : Code Unit := perform (S := SfsSig) .clearDispatch

def lookup (x : Path) (p : Nat) : Code (Option Inode) :=
  perform (S := SfsSig) (.lookup x p)

def isNormal (x : Path) (p : Nat) : Code Bool :=
  perform (S := SfsSig) (.isNormal x p)

def getxattr (p i : Nat) : Code (Option Ptrs) :=
  perform (S := SfsSig) (.getxattr p i)

def mkdir (x : Path) (p : Nat) : Code Int := perform (S := SfsSig) (.mkdir x p)

def setNormal (x : Path) (p : Nat) : Code Int :=
  perform (S := SfsSig) (.setNormal x p)

def create (x : Path) (p : Nat) : Code (Except Int Nat) :=
  perform (S := SfsSig) (.create x p)

def link (x y : Path) (p : Nat) : Code Int :=
  perform (S := SfsSig) (.link x y p)

def setxattr (p i : Nat) (a : Ptrs) : Code Int :=
  perform (S := SfsSig) (.setxattr p i a)

def rename (x y : Path) (p : Nat) : Code Int :=
  perform (S := SfsSig) (.rename x y p)

def unlink (x : Path) (p : Nat) : Code Int :=
  perform (S := SfsSig) (.unlink x p)

def rmdir (x : Path) (p : Nat) : Code Int := perform (S := SfsSig) (.rmdir x p)

def oops {α : Type} : Code α := .ask (S := SfsSig) .oops nofun

def spin {α : Type} : Code α := .ask (S := SfsSig) .spin nofun

variable {s : Sys}

@[simp] theorem onDisk_mem {d : Disk} : (s.onDisk d).mem = s.mem := rfl

@[simp] theorem onDisk_disk {d : Disk} : (s.onDisk d).disk = d := rfl

@[simp] theorem setD_disk {x : Path} {d : SfsDentry} : (s.setD x d).disk = s.disk := rfl

/-! ## Following the code -/

/-- The requests that are made to fail: the operations of the file systems that
    `rename.c` itself calls and checks. -/
def failing (e : Int) : (q : SfsReq) → Option q.Ans
  | .create _ _ => some (.error e : Except Int Nat)
  | .setxattr _ _ _ => some e
  | .rename _ _ _ => some e
  | _ => none

/-- The code runs from `s` to an end in `Q`; the disks at every moment of it are
    as `I` says, and a run in which one operation fails ends as `G` says. -/
def Does {α : Type} (e : Int) (I : Disk → Prop) (G : α → Sys → Prop)
    (c : Code α) (s : Sys) (Q : α → Sys → Prop) : Prop :=
  Weathers sysHandler (failing e) (fun t => I t.disk) G c s Q

/-- The code runs from `s` to `t` and returns `a`, without a change of the disks
    and without an operation that could fail. -/
structure Calm {α : Type} (c : Code α) (s : Sys) (a : α) (t : Sys) : Prop where
  disk : t.disk = s.disk
  does : ∀ e I G Q, Does e I G c s Q ↔ I s.disk ∧ Q a t

/-- The code runs from `s` to `t` and returns `a`, without an operation that
    could fail; `ds` are the disks it leaves behind on its way. -/
def Made {α : Type} (c : Code α) (s : Sys) (a : α) (t : Sys) (ds : List Disk) : Prop :=
  ∀ e I G Q, Does e I G c s Q ↔ (∀ d ∈ ds, I d) ∧ I t.disk ∧ Q a t

section Rules

variable {α β : Type} {e : Int} {I : Disk → Prop} {G : β → Sys → Prop}
  {s t u : Sys} {x y : Path} {p i : Nat} {d : SfsDentry}
  {Q : β → Sys → Prop}

theorem Does.here {c : Code β} (h : Does e I G c s Q) : I s.disk := by
  have h' := Weathers.here h
  exact h'

theorem Does.mono {c : Code β} {R : β → Sys → Prop} (h : Does e I G c s Q)
    (hR : ∀ b u, Q b u → R b u) : Does e I G c s R := Weathers.mono h hR

variable {b : β} {c : Code α} {a : α} {q : SfsReq} {ds : List Disk} {f : Int → Code β}

@[simp] theorem does_ret : Does e I G (.ret b) s Q ↔ I s.disk ∧ Q b s := Iff.rfl

theorem does_bind {f : α → Code β} : Does e I G (c >>= f) s Q ↔
      Does e I (fun a t => ∀ b u, run sysHandler (f a) t = some (b, u) → G b u)
        c s (fun a t => Does e I G (f a) t Q) := weathers_bind

/-- A part of which all is known. -/
theorem does_calm {f : α → Code β} (h : Calm c s a t) :
    Does e I G (c >>= f) s Q ↔ Does e I G (f a) t Q := by
  rw [does_bind, h.does, and_iff_right_iff_imp]
  exact fun hf => h.disk ▸ hf.here

theorem Calm.ret : Calm (pure b) s b s := ⟨rfl, fun _ _ _ _ => Iff.rfl⟩

theorem Calm.bind {f : α → Code β}
    (h : Calm c s a t) (hf : Calm (f a) t b u) : Calm (c >>= f) s b u :=
  ⟨hf.disk.trans h.disk, fun e I G Q => by
    rw [does_calm h, hf.does, h.disk]⟩

theorem Calm.perform {a : q.Ans} (hq : sysHandler q s = some (a, t)) (hf : ∀ e, failing e q = none)
    (hd : t.disk = s.disk) : Calm (perform (S := SfsSig) q) s a t :=
  ⟨hd, fun e I G Q => by
    refine (weathers_safe hq (hf e)).trans (and_congr_right fun h => ?_)
    exact and_iff_right (show I t.disk from hd ▸ h)⟩

theorem Calm.made {c : Code β} (h : Calm c s b t) : Made c s b t [] := by
  intro e I G Q
  rw [h.does, h.disk]
  exact (and_iff_right nofun).symm

theorem does_made {f : α → Code β} (h : Made c s a t ds) :
    Does e I G (c >>= f) s Q ↔ (∀ d ∈ ds, I d) ∧ Does e I G (f a) t Q := by
  rw [does_bind, h]
  exact and_congr_right fun _ => and_iff_right_iff_imp.mpr Does.here

theorem Made.bind {f : α → Code β}
    {ds' : List Disk} (h : Made c s a t ds) (hf : Made (f a) t b u ds') :
    Made (c >>= f) s b u (ds ++ ds') := by
  intro e I G Q
  rw [does_made h, hf, List.forall_mem_append, and_assoc]

theorem Made.run {c : Code β} (h : Made c s b t ds) :
    InteractProg.run sysHandler c s = some (b, t) := by
  obtain ⟨⟨a, u, hrun, rfl, rfl⟩, -⟩ := weathers_iff.mp
    ((h 0 (fun _ => True) (fun _ _ => True) (fun a u => a = b ∧ u = t)).mpr
        ⟨fun _ _ => trivial, trivial, rfl, rfl⟩)
  exact hrun

/-- A request that reads, or changes the dentries alone. -/
theorem does_quiet {a : q.Ans} {f : q.Ans → Code β} (hq : sysHandler q s = some (a, t))
    (hf : failing e q = none) (hd : t.disk = s.disk) :
    Does e I G (InteractProg.perform (S := SfsSig) q >>= f) s Q ↔ Does e I G (f a) t Q := by
  refine (weathers_safe hq hf).trans (and_iff_right_iff_imp.mpr fun h => ?_)
  exact hd ▸ Does.here h

/-- A request that is not answered. -/
theorem not_does_of_none {f : q.Ans → Code β} (hq : sysHandler q s = none) :
    ¬ Does e I G (InteractProg.perform (S := SfsSig) q >>= f) s Q := by
  rintro ⟨-, -, r, hr, -⟩
  cases hq.symm.trans hr

@[simp] theorem does_cached {f : Bool → Code β} :
    Does e I G (cached x >>= f) s Q ↔ Does e I G (f (s.mem x).isSome) s Q :=
  does_quiet (q := .cached x) rfl rfl rfl

/-- A request for a dentry, which has to be there. -/
theorem does_dentry {g : SfsDentry → q.Ans × Sys} {f : q.Ans → Code β}
    (hq : sysHandler q s = (s.mem x).map g) (hf : failing e q = none)
    (hd : ∀ d, (g d).2.disk = s.disk) :
    Does e I G (InteractProg.perform (S := SfsSig) q >>= f) s Q ↔
      ∃ d, s.mem x = some d ∧ Does e I G (f (g d).1) (g d).2 Q := by
  cases hx : s.mem x with
  | none =>
    rw [hx] at hq
    simp only [reduceCtorEq, false_and, exists_false, iff_false]
    exact not_does_of_none hq
  | some d =>
    rw [hx] at hq
    simp only [Option.some.injEq, exists_eq_left']
    exact does_quiet hq hf (hd d)

@[simp] theorem does_sfsD {f : SfsDentry → Code β} :
    Does e I G (sfsD x >>= f) s Q ↔ ∃ d, s.mem x = some d ∧ Does e I G (f d) s Q :=
  does_dentry (q := .sfsD x) rfl rfl fun _ => rfl

theorem calm_sfsD (h : s.mem x = some d) : Calm (sfsD x) s d s :=
  .perform (congrArg (Option.map (fun d => (d, s))) h) (fun _ => rfl) rfl

@[simp] theorem does_setD {f : Unit → Code β} :
    Does e I G (setD x d >>= f) s Q ↔ Does e I G (f ()) (s.setD x d) Q :=
  does_quiet (q := .setD x d) rfl rfl rfl

@[simp] theorem does_modD {g : SfsDentry → SfsDentry} {f : Unit → Code β} :
    Does e I G (modD x g >>= f) s Q ↔
      ∃ d, s.mem x = some d ∧ Does e I G (f ()) (s.setD x (g d)) Q :=
  does_dentry (q := .modD x g) rfl rfl fun _ => rfl

@[simp] theorem does_modD_last {g : SfsDentry → SfsDentry}
    {G : Unit → Sys → Prop} {Q : Unit → Sys → Prop} :
    Does e I G (modD x g) s Q ↔ ∃ d, s.mem x = some d ∧ I s.disk ∧ Q () (s.setD x (g d)) :=
  does_modD (f := .ret)

@[simp] theorem does_addDispatch {f : Nat → Code β} :
    Does e I G (addDispatch >>= f) s Q ↔ Does e I G (f (s.lastDispatch + 1))
        { s with lastDispatch := s.lastDispatch + 1 } Q :=
  does_quiet (q := .addDispatch) rfl rfl rfl

@[simp] theorem does_clearDispatch {f : Unit → Code β} :
    Does e I G (clearDispatch >>= f) s Q ↔ Does e I G (f ()) { s with lastDispatch := 0 } Q :=
  does_quiet (q := .clearDispatch) rfl rfl rfl

@[simp] theorem does_lookup {f : Option Inode → Code β} :
    Does e I G (lookup x p >>= f) s Q ↔ Does e I G (f ((s.disk.node x p).map Obj.inode)) s Q :=
  does_quiet (q := .lookup x p) rfl rfl rfl

@[simp] theorem does_getxattr {f : Option Ptrs → Code β} :
    Does e I G (getxattr p i >>= f) s Q ↔ Does e I G (f (s.disk.attr p i)) s Q :=
  does_quiet (q := .getxattr p i) rfl rfl rfl

@[simp] theorem does_oops {f : α → Code β} : ¬ Does e I G (oops >>= f) s Q := by
  rintro ⟨-, -, r, hr, -⟩
  cases hr

theorem does_mkdir (hn : s.disk.node x p = none) : Does e I G (mkdir x p >>= f) s Q ↔
      I s.disk ∧ Does e I G (f 0) (s.onDisk (s.disk.addDir x p)) Q := by
  have hq : sysHandler (.mkdir x p) s = some ((0 : Int), s.onDisk (s.disk.addDir x p)) := by
    simp only [sysHandler, Disk.step, hn, map_some]
  exact weathers_safe hq rfl

theorem does_setNormal (hn : ∃ b, s.disk.node x p = some (.dir b)) :
    Does e I G (setNormal x p >>= f) s Q ↔ I s.disk
        ∧ Does e I G (f 0) (s.onDisk (s.disk.setNode x p (some (.dir true))))
          Q := by
  obtain ⟨b, hn⟩ := hn
  have hq : sysHandler (.setNormal x p) s
      = some ((0 : Int), s.onDisk (s.disk.setNode x p (some (.dir true)))) := by
    simp only [sysHandler, Disk.step, hn, map_some]
  exact weathers_safe hq rfl

theorem does_unlink (hn : ∃ i, s.disk.node x p = some (.file i)) :
    Does e I G (unlink x p >>= f) s Q ↔
      I s.disk ∧ Does e I G (f 0) (s.onDisk (s.disk.setNode x p none)) Q := by
  obtain ⟨i, hn⟩ := hn
  have hq : sysHandler (.unlink x p) s = some ((0 : Int), s.onDisk (s.disk.setNode x p none)) := by
    simp only [sysHandler, Disk.step, hn, map_some]
  exact weathers_safe hq rfl

theorem does_link (hx : ∃ i, s.disk.node x p = some (.file i)) (hy : s.disk.node y p = none) :
    Does e I G (link x y p >>= f) s Q ↔
      I s.disk ∧ Does e I G (f 0) (s.onDisk (s.disk.addLink x y p)) Q := by
  obtain ⟨i, hx⟩ := hx
  have hq : sysHandler (.link x y p) s = some ((0 : Int), s.onDisk (s.disk.addLink x y p)) := by
    simp only [sysHandler, Disk.step, hx, hy, map_some]
  exact weathers_safe hq rfl

theorem does_create {f : Except Int Nat → Code β} (hn : s.disk.node x p = none) :
    Does e I G (create x p >>= f) s Q ↔ I s.disk
        ∧ (∀ b u, run sysHandler (f (.error e)) s = some (b, u) → G b u)
        ∧ Does e I G (f (.ok s.disk.next)) (s.onDisk (s.disk.addFile x p))
          Q := by
  have hq : sysHandler (.create x p) s = some ((.ok s.disk.next : Except Int Nat),
          s.onDisk (s.disk.addFile x p)) := by
    simp only [sysHandler, Disk.step, hn, map_some]
  exact weathers_risky hq rfl

theorem does_setxattr {a : Ptrs} : Does e I G (setxattr p i a >>= f) s Q ↔
      I s.disk ∧ (∀ b u, run sysHandler (f e) s = some (b, u) → G b u)
        ∧ Does e I G (f 0) (s.onDisk (s.disk.setAttr p i (some a))) Q := by
  have hq : sysHandler (.setxattr p i a) s
      = some ((0 : Int), s.onDisk (s.disk.setAttr p i (some a))) := rfl
  exact weathers_risky hq rfl

theorem does_rename (hx : ∃ i, s.disk.node x p = some (.file i))
    (hy : ∀ b, s.disk.node y p ≠ some (.dir b)) :
    Does e I G (rename x y p >>= f) s Q ↔
      I s.disk ∧ (∀ b u, run sysHandler (f e) s = some (b, u) → G b u)
        ∧ Does e I G (f 0) (s.onDisk (s.disk.moveFile x y p)) Q := by
  obtain ⟨i, hx⟩ := hx
  have hq : sysHandler (.rename x y p) s = some ((0 : Int), s.onDisk (s.disk.moveFile x y p)) := by
    cases hn : s.disk.node y p with
    | none => simp only [sysHandler, Disk.step, hx, hn, map_some]
    | some o =>
      cases o with
      | dir b => exact absurd hn (hy b)
      | file j => simp only [sysHandler, Disk.step, hx, hn, map_some]
  exact weathers_risky hq rfl

/-! ## States that differ in a dentry and the disks -/

end Rules

/-- The state with another dentry for `x` and other disks. -/
def Sys.one (s : Sys) (x : Path) (dx : SfsDentry) (d : Disk) : Sys :=
  { s with mem := update s.mem x (some dx), disk := d }

section One

variable {s : Sys} {x y : Path} {dx dx' : SfsDentry} {d d' : Disk}

@[simp] theorem one_mem : (s.one x dx d).mem x = some dx :=
  update_self ..

theorem one_mem_of_ne (h : y ≠ x) : (s.one x dx d).mem y = s.mem y :=
  update_of_ne h ..

@[simp] theorem one_disk : (s.one x dx d).disk = d := rfl

@[simp] theorem one_onDisk : (s.one x dx d).onDisk d' = s.one x dx d' := rfl

@[simp] theorem onDisk_one : (s.onDisk d).one x dx d' = s.one x dx d' := rfl

@[simp] theorem one_setD : (s.one x dx d).setD x dx' = s.one x dx' d := by
  simp only [Sys.one, Sys.setD, update_idem]

@[simp] theorem one_one : (s.one x dx d).one x dx' d' = s.one x dx' d' := by
  simp only [Sys.one, update_idem]

theorem setD_eq_one : s.setD x dx = s.one x dx s.disk := rfl

theorem eq_one (h : s.mem x = some dx) : s = s.one x dx s.disk := by
  rw [Sys.one, ← h, update_eq_self]

/-- A dentry that is found is the new one, or was there before. -/
theorem one_some (h : (s.one x dx d).mem y = some dx') :
    y = x ∧ dx' = dx ∨ y ≠ x ∧ s.mem y = some dx' := by
  by_cases hy : y = x
  · rw [hy, one_mem] at h
    exact .inl ⟨hy, (Option.some.inj h).symm⟩
  · exact .inr ⟨hy, (one_mem_of_ne hy).symm.trans h⟩

theorem moveD_mem_of_ne {z : Path} (hx : z ≠ x) (hy : z ≠ y) : (s.moveD x y).mem z = s.mem z := by
  show update (update s.mem y (s.mem x)) x none z = s.mem z
  rw [update_of_ne hx, update_of_ne hy]

/-- After a move there is nothing under the old name. -/
theorem moveD_mem {z : Path} (h : (s.moveD x y).mem z = some dx) :
    (z = y ∧ s.mem x = some dx) ∨ s.mem z = some dx := by
  change update (update s.mem y (s.mem x)) x none z = some dx at h
  by_cases hzx : z = x
  · rw [hzx, update_self] at h
    cases h
  · rw [update_of_ne hzx] at h
    by_cases hzy : z = y
    · rw [hzy, update_self] at h
      exact .inl ⟨hzy, h⟩
    · rw [update_of_ne hzy] at h
      exact .inr h

end One

end Sfs
