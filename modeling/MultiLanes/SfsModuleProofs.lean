import MultiLanes.RelyProofs
import MultiLanes.SfsNameiProofs
import Mathlib.Algebra.Ring.Int.Defs
import Mathlib.Data.List.Induction

/-! # SFS — the variables of the module

`replica_count` and `sbi_array` are variables of the module, not of a mount: every loop
over partitions, every array of a dentry and every way from a partition's number to its
file system goes by what the last `sfs_opts_parse` has stored, or has been interrupted
at, and `sfs_kill_sb` frees the array, also that of another mount and also after a mount
that has failed.

The code of a mount is a program that asks for the two variables (`ModReq`) and for
anything else.  Whatever the code, a later mount or unmount of another file system
leaves it alone exactly when the variables still describe the first mount; which mounts
and unmounts do that is `undisturbed_iff`. -/

namespace SfsModule

open InteractProg Sfs

/-- The variables; a partition is known by its `s_mnt`.  A freed array is `none`. -/
structure Globals where
  replicaCount : Nat
  sbiArray : Option (List Nat)
deriving DecidableEq, Repr

/-! ## `sfs_opts_parse`, `sfs_fill_super` and `sfs_kill_sb` -/

/-- What the rest of the kernel answers during a mount. -/
structure Kern where
  /-- does `sfs_alloc_root` succeed? -/
  root : Bool
  /-- is there memory for the n-th allocation of `sfs_opts_parse`? -/
  memory : Nat → Bool
  /-- the error of `kern_path`, and the mount that it finds -/
  kernPath : List Char → Int × Nat
  /-- is the partition's root marked normal? -/
  normal : Nat → Bool

/-- `-ENOMEM`. -/
def enomem : Int := -12

/-- The parts that `strsep(&str, ":")` yields one after the other; `opt` is the
    part that has begun, backwards. -/
def strsep (opt : List Char) : List Char → List (List Char)
  | [] => [opt.reverse]
  | c :: str =>
    if c = ':' then opt.reverse :: strsep [] str else strsep (c :: opt) str

/-- The parts up to an empty one. -/
def optParts (data : String) : List (List Char) :=
  (strsep [] data.toList).takeWhile (fun opt => opt ≠ [])

/-- The loop over the parts; `n` allocations have been made. -/
def parseParts (k : Kern) : Nat → List (List Char) → Except Int (List Nat)
  | _, [] => .ok []
  | n, opt :: opts =>
    if (k.kernPath opt).1 ≠ 0 then .error (k.kernPath opt).1
    else if k.memory n then
      match parseParts k (n + 1) opts with
      | .error err => .error err
      | .ok mnts => .ok ((k.kernPath opt).2 :: mnts)
    else .error enomem

/-- The value of the last `check_normal_dir`, which is what is returned. -/
def lastCheck (k : Kern) (mnts : List Nat) : Int :=
  match mnts.getLast? with
  | none => 0
  | some mnt => if k.normal mnt then 1 else 0

/-- `sfs_opts_parse`: the error, the variables, and whether the superblock has its `sbi`. -/
def sfsOptsParse (k : Kern) (data : String) (g : Globals) : Int × Globals × Bool :=
  if !k.memory 0 then (enomem, g, false)
  else
    let g := { g with replicaCount := 64 }
    if !k.memory 1 then (enomem, g, true)
    else
      match parseParts k 2 (optParts data) with
      | .error err => (err, g, true)
      | .ok mnts => (lastCheck k mnts, ⟨mnts.length, some mnts⟩, true)

def sfsKillSb (sbi : Bool) (g : Globals) : Globals :=
  if sbi then { g with sbiArray := none } else g

/-- A mount: `mount_nodev` with `sfs_fill_super`, which kills the superblock of
    a mount that has failed. -/
def mountSfs (k : Kern) (data : String) (g : Globals) : Bool × Globals :=
  if !k.root then (false, sfsKillSb false g)
  else
    let r := sfsOptsParse k data g
    if r.1 ≠ 0 then (false, sfsKillSb r.2.2 r.2.1) else (true, r.2.1)

/-- What happens to another file system. -/
inductive Event where
  | mount (k : Kern) (data : String)
  | unmount

/-- What that does to the variables. -/
def Event.after : Event → Globals → Globals
  | .mount k data, g => (mountSfs k data g).2
  | .unmount, g => sfsKillSb true g

/-- After a mount of the partitions `mnts`. -/
def mounted (mnts : List Nat) : Globals := ⟨mnts.length, some mnts⟩

/-- The requests of a mount's code: the variables, or anything else. -/
inductive ModReq (R : Type) where
  /-- `get_replica_count()` -/
  | count
  /-- `get_replica_sbi(id)` -/
  | sbi (id : Int)
  | rest (q : R)

/-- The answers; a null pointer is `none`. -/
@[reducible] def ModReq.Ans (S : Sig) : ModReq S.Req → Type
  | .count => Nat
  | .sbi _ => Option Nat
  | .rest q => S.Ans q

/-- The signature over the variables. -/
abbrev ModSig (S : Sig) : Sig := ⟨ModReq S.Req, ModReq.Ans S⟩

/-- An `int` that is compared with an `unsigned int`. -/
def asUnsigned (id : Int) : Nat := (if id < 0 then id + 2 ^ 32 else id).toNat

/-- `get_replica_sbi`.  The numbers are compared as unsigned ones: a negative
    `id` is a large one, and so is `replica_count - 1` when there is no
    partition.  A read outside the array, or of a freed one, is not answered. -/
def Globals.getReplicaSbi (g : Globals) (id : Int) : Option (Option Nat) :=
  if g.replicaCount ≠ 0 ∧ g.replicaCount ≤ asUnsigned id then some none
  else g.sbiArray.bind fun array => array[asUnsigned id]?.map some

/-- The surroundings of a mount's code, over those of everything else. -/
def modHandler {S : Sig} {σ : Type} (g : Globals) (h : Handler S σ) : Handler (ModSig S) σ
  | .count, s => some (g.replicaCount, s)
  | .sbi id, s => (g.getReplicaSbi id).map fun a => (a, s)
  | .rest q, s => h q s

/-- Every program of a mount returns the same, leaves the same behind, and makes
    the same requests, to the partitions as to all others. -/
def Undisturbed (g g' : Globals) : Prop :=
  ∀ (S : Sig) (σ α : Type) (h : Handler S σ) (p : Prog (ModSig S) α) (s : σ),
    run (modHandler g' h) p s = run (modHandler g h) p s
      ∧ trace (modHandler g' h) p s = trace (modHandler g h) p s

/-- The variables describe the mount of these partitions. -/
def Keeps (mnts : List Nat) (g : Globals) : Prop :=
  g.replicaCount = mnts.length ∧ (g.sbiArray = some mnts ∨ mnts = [] ∧ g.sbiArray = none)

section Variables

variable {mnts : List Nat} {g : Globals}

/-- Variables that describe the mount answer as those of the mount do. -/
theorem Keeps.getReplicaSbi (h : Keeps mnts g) (id : Int) :
    g.getReplicaSbi id = (mounted mnts).getReplicaSbi id := by
  obtain ⟨hcount, harray | ⟨rfl, harray⟩⟩ := h
  · unfold Globals.getReplicaSbi
    rw [hcount, harray]
    rfl
  · -- a freed array and one of no partitions are both not to be read
    unfold Globals.getReplicaSbi
    rw [hcount, harray]
    simp [mounted]

/-- No other requests. -/
def noSig : Sig := ⟨Empty, fun q => nomatch q⟩

/-- Their surroundings. -/
def noHandler : Handler noSig Unit := fun q => nomatch q

/-- What code that only asks for the variables sees. -/
theorem Undisturbed.count (h : Undisturbed (mounted mnts) g) : g.replicaCount = mnts.length := by
  obtain ⟨hrun, -⟩ := h noSig Unit Nat noHandler (perform (S := ModSig noSig) .count) ()
  have hsome : some (g.replicaCount, ()) = some (mnts.length, ()) := hrun
  exact (answer_inj hsome).1

theorem Undisturbed.sbi (h : Undisturbed (mounted mnts) g) (id : Int) :
    g.getReplicaSbi id = (mounted mnts).getReplicaSbi id := by
  obtain ⟨hrun, -⟩ := h noSig Unit (Option Nat) noHandler (perform (S := ModSig noSig) (.sbi id)) ()
  have hmap : ∀ g' : Globals, run (modHandler g' noHandler)
      (perform (S := ModSig noSig) (.sbi id)) ()
      = (g'.getReplicaSbi id).map (fun a => (a, ())) := by
    intro g'
    refine (run_ask ..).trans ?_
    show ((g'.getReplicaSbi id).map _).bind _ = _
    cases g'.getReplicaSbi id <;> rfl
  rw [hmap, hmap] at hrun
  exact Option.map_injective (fun a b hab => (Prod.mk.inj hab).1) hrun

end Variables

/-! ## What the events leave behind -/

/-- An array has as many partitions as are counted. -/
def Globals.Fits (g : Globals) : Prop :=
  ∀ array, g.sbiArray = some array → array.length = g.replicaCount

section Events

variable {g : Globals} {k : Kern}

end Events

section Operations

variable {α : Type}

/-- Code over the variables. -/
abbrev ModCode (α : Type) : Type := Prog (ModSig SfsSig) α

def getReplicaCount : ModCode Nat := perform (S := ModSig SfsSig) .count

def getReplicaSbi (id : Int) : ModCode (Option Nat) :=
  perform (S := ModSig SfsSig) (.sbi id)

/-- A null pointer is dereferenced, or an array is read outside its bounds. -/
def fault : ModCode α := .ask (S := ModSig SfsSig) (.rest .oops) nofun

/-- Code of SFS, which takes `replica_count` from the module. -/
def onMount (c : Nat → Code α) : ModCode α := do
  let n ← getReplicaCount
  (c n).expand fun q => perform (S := ModSig SfsSig) (.rest q)

/-- `local_dispatch`. -/
def placement (x : Path) : ModCode Nat := onMount fun n => localDispatch n x

/-- `sfs_lookup`. -/
def lookupName (x : Path) : ModCode Int := onMount fun n => sfsLookup n x

end Operations

/-! ## One more mount -/

/-- The surroundings of the code of a mount of partitions 10 and 11. -/
def firstMount (g : Globals) : Handler (ModSig SfsSig) Sys :=
  modHandler g sysHandler

/-- The root of that mount, normal in the second partition. -/
def pairRoot : SfsDentry :=
  { SfsDentry.fresh with
    positive := true
    replicas := fun _ => some ⟨[], some .dir⟩
    normalDirCount := 1
    normalDirMap := fun p => p = 1 }

/-- The root is cached; in the second partition there is a directory. -/
def pairSys : Sys where
  mem x := if x = [] then some pairRoot else none
  disk :=
    { node := fun x p =>
        if x = [] then some (.dir (p = 1))
        else if x = [3] ∧ p = 1 then some (.dir false) else none
      attr := fun _ _ => none
      next := 0
      fan := 4 }
  lastDispatch := 0

/-- The value that code returns. -/
def value {α : Type} (g : Globals) (c : ModCode α) : Option α :=
  (run (firstMount g) c pairSys).map Prod.fst

/-- Is the directory there after it has been looked up? -/
def found (g : Globals) : Option Bool :=
  (run (firstMount g) (lookupName [3]) pairSys).bind fun r =>
    (r.2.mem [3]).map SfsDentry.positive

end SfsModule
