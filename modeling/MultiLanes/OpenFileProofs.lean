import Mathlib.Data.Finset.Insert
import Mathlib.Data.Fintype.EquivFin
import MultiLanes.ListingProofs

/-! # SFS — open files and `fsync`

An open SFS file keeps a list of replica files, opened in the partitions: a directory
has one for each partition in which it is normal, a regular file its data file and, when
it is partitioned, its meta file after it.

`fsync` of a directory goes through the list until one `fsync` SUCCEEDS, and returns a
variable that it has not stored when none does; `fsync` of a file takes the head of the
list.  What 0 then promises is said exactly by `sync_covers_iff`. -/

namespace OpenFile

open InteractProg Sfs List

/-! ## `file.c` and `dir.c`: open -/

/-- The requests of open and `fsync`; a `struct file` is its address. -/
inductive FileReq where
  /-- `kmem_cache_alloc(sfs_file_cachep, ..)`: is there memory? -/
  | alloc
  /-- `dentry_open` of the replica in a partition -/
  | dentryOpen (p : Nat)
  | fput (file : Nat)
  /-- `vfs_fsync` and `vfs_fsync_range` -/
  | fsync (file : Nat)
deriving DecidableEq

/-- The answers. -/
@[reducible] def FileReq.Ans : FileReq → Type
  | .alloc => Bool
  | .dentryOpen _ => Except Int Nat
  | .fput _ => Unit
  | .fsync _ => Int

/-- The signature of open and `fsync`. -/
abbrev FileSig : Sig := ⟨FileReq, FileReq.Ans⟩

/-- Code of `file.c`. -/
abbrev FileCode (α : Type) : Type := Prog FileSig α

def alloc : FileCode Bool := perform (S := FileSig) .alloc

def dentryOpen (p : Nat) : FileCode (Except Int Nat) :=
  perform (S := FileSig) (.dentryOpen p)

def fput (file : Nat) : FileCode Unit := perform (S := FileSig) (.fput file)

def vfsFsync (file : Nat) : FileCode Int := perform (S := FileSig) (.fsync file)

/-- `-ENOMEM`. -/
def enomem : Int := -12

/-- `struct sfs_file` of a replica. -/
structure ReplicaFile where
  file : Nat
  replicaId : Nat
deriving DecidableEq, Repr

/-- `struct sfs_file` of a master. -/
structure SfsFile where
  replicas : List ReplicaFile
  isPartitioned : Bool
deriving DecidableEq, Repr

def sfsMasterFileAlloc : FileCode (Except Int SfsFile) := do
  if ← alloc then return .ok ⟨[], false⟩ else return .error enomem

def sfsReplicaFileAlloc (file p : Nat) : FileCode (Except Int ReplicaFile) := do
  if ← alloc then return .ok ⟨file, p⟩ else return .error enomem

/-- `f_add_replica`: at the tail. -/
def SfsFile.addReplica (f : SfsFile) (r : ReplicaFile) : SfsFile :=
  { f with replicas := f.replicas ++ [r] }

/-- `if(unlikely(IS_ERR(..))) goto out;` after `c`, where `out` returns the error. -/
def orOut {α β : Type} (c : FileCode (Except Int α))
    (t : α → FileCode (Except Int β)) : FileCode (Except Int β) := do
  match ← c with
  | .error err => return .error err
  | .ok a => t a

/-- One more replica file; the file is put back when there is no memory. -/
def simpleFileOpen (f : SfsFile) (p : Nat) : FileCode (Except Int SfsFile) :=
  orOut (dentryOpen p) fun file => do
    match ← sfsReplicaFileAlloc file p with
    | .error err =>
      fput file
      return .error err
    | .ok r => return .ok (f.addReplica r)

def sfsFileOpen (replicaId : Nat) (metaId : Option Nat) : FileCode (Except Int SfsFile) :=
  orOut sfsMasterFileAlloc fun f =>
    orOut (simpleFileOpen f replicaId) fun f =>
      match metaId with
      | none => return .ok f
      | some m => simpleFileOpen { f with isPartitioned := true } m

/-- The loop of `sfs_dir_open`. -/
def openReplicas (d : SfsDentry) (f : SfsFile) : List Nat → FileCode (Except Int SfsFile)
  | [] => return .ok f
  | p :: ps =>
    if ((d.replicas p).bind Replica.inode).isNone then openReplicas d f ps
    else if !d.normalDirMap p then openReplicas d f ps
    else orOut (simpleFileOpen f p) fun f => openReplicas d f ps

def sfsDirOpen (N : Nat) (d : SfsDentry) : FileCode (Except Int SfsFile) :=
  orOut sfsMasterFileAlloc fun f => openReplicas d f (range N)

/-! ## `fsync` -/

/-- `sfs_sync_dir`; `ret` is what the variable holds, to which nothing has been assigned. -/
def syncReplicas (ret : Int) : List ReplicaFile → FileCode Int
  | [] => return ret
  | r :: rs => do
    let err ← vfsFsync r.file
    -- if(!err){ ret = err; goto out; }
    if err = 0 then return err else syncReplicas ret rs

def sfsSyncDir (ret : Int) (f : SfsFile) : FileCode Int :=
  syncReplicas ret f.replicas

/-- `sfs_sync_file`.  An open file has a replica; the head of an empty list
    would be `ret`, whatever is there. -/
def sfsSyncFile (ret : Int) (f : SfsFile) : FileCode Int :=
  match f.replicas with
  | [] => return ret
  | r :: _ => vfsFsync r.file

/-- `f_op->fsync`. -/
def fsyncOp (isDir : Bool) (ret : Int) (f : SfsFile) : FileCode Int :=
  if isDir then sfsSyncDir ret f else sfsSyncFile ret f

/-! ## The surroundings -/

/-- The rest of the kernel: the next `struct file`, which allocations and opens
    succeed, and the result of each `fsync`. -/
structure Kernel where
  next : Nat
  allocs : Nat
  memory : Nat → Bool
  refuses : Nat → Option Int
  result : Nat → Int

def fileHandler : Handler FileSig Kernel
  | .alloc, k => some (k.memory k.allocs, { k with allocs := k.allocs + 1 })
  | .dentryOpen p, k =>
    match k.refuses p with
    | some err => some ((.error err : Except Int Nat), k)
    | none =>
      some ((.ok k.next : Except Int Nat), { k with next := k.next + 1 })
  | .fput _, k => some ((), k)
  | .fsync file, k => some (k.result file, k)

/-- A file that has been opened, a directory or not. -/
inductive Opened : Bool → SfsFile → Kernel → Prop
  | file {replicaId : Nat} {metaId : Option Nat} {f : SfsFile} {k k' : Kernel} :
      run fileHandler (sfsFileOpen replicaId metaId) k = some (.ok f, k') →
      Opened false f k'
  | dir {N : Nat} {d : SfsDentry} {f : SfsFile} {k k' : Kernel} :
      run fileHandler (sfsDirOpen N d) k = some (.ok f, k') → Opened true f k'

/-- What `fsync` promises: 0 when it has been called and has succeeded on every
    replica file, and otherwise one of the errors. -/
def SyncCovers (isDir : Bool) (ret : Int) (f : SfsFile) (k : Kernel) : Prop :=
  ∃ r k', run fileHandler (fsyncOp isDir ret f) k = some (r, k')
    ∧ (r = 0 → ∀ x ∈ f.replicas, .fsync x.file ∈ trace fileHandler (fsyncOp isDir ret f) k
          ∧ k.result x.file = 0)
    ∧ (r ≠ 0 → ∃ x ∈ f.replicas, k.result x.file = r)

/-! ## What is on the list -/

section Open

variable {k k' : Kernel} {f g : SfsFile} {p m : Nat} {d : SfsDentry}

/-- A step that may fail, before others: all of them have succeeded. -/
theorem run_orOut {α β : Type} {c : FileCode (Except Int α)} {t : α → FileCode (Except Int β)}
    {b : β} (h : run fileHandler (orOut c t) k = some (.ok b, k')) :
    ∃ a j, run fileHandler c k = some (.ok a, j) ∧ run fileHandler (t a) j = some (.ok b, k') := by
  obtain ⟨r, j, hc, ht⟩ := run_bind_eq_some.mp h
  cases r with
  | error err => simp at ht
  | ok a => exact ⟨a, j, hc, ht⟩

theorem dentryOpen_ok {file : Nat} (h : run fileHandler (dentryOpen p) k = some (.ok file, k')) :
    file = k.next ∧ k'.next = k.next + 1 := by
  rw [dentryOpen, perform, run_ask] at h
  cases hp : k.refuses p with
  | some err => simp [fileHandler, hp] at h
  | none =>
    simp only [fileHandler, hp, Option.bind_some, run_ret, Option.some.injEq,
      Prod.mk.injEq, Except.ok.injEq] at h
    obtain ⟨rfl, rfl⟩ := h
    exact ⟨rfl, rfl⟩

theorem run_fput {file : Nat} : run fileHandler (fput file) k = some ((), k) := rfl

theorem run_alloc :
    run fileHandler alloc k = some (k.memory k.allocs, { k with allocs := k.allocs + 1 }) := rfl

/-- A replica file that is opened is a new one, at the tail. -/
theorem simpleFileOpen_ok (h : run fileHandler (simpleFileOpen f p) k = some (.ok g, k')) :
    g = f.addReplica ⟨k.next, p⟩ ∧ k'.next = k.next + 1 := by
  obtain ⟨file, j, hfile, h⟩ := run_orOut h
  obtain ⟨rfl, hj⟩ := dentryOpen_ok hfile
  rw [sfsReplicaFileAlloc, bind_bind, run_bind_some run_alloc] at h
  cases hm : j.memory j.allocs with
  | false => simp [hm, run_bind_some run_fput] at h
  | true =>
    obtain ⟨rfl, rfl⟩ : f.addReplica ⟨k.next, p⟩ = g ∧ _ = k' := by
      simpa [hm] using h
    exact ⟨rfl, hj⟩

theorem masterFileAlloc_ok (h : run fileHandler sfsMasterFileAlloc k = some (.ok f, k')) :
    f = ⟨[], false⟩ ∧ k'.next = k.next := by
  rw [sfsMasterFileAlloc, run_bind_some run_alloc] at h
  cases hm : k.memory k.allocs with
  | false => simp [hm] at h
  | true =>
    obtain ⟨rfl, rfl⟩ : ⟨[], false⟩ = f ∧ _ = k' := by simpa [hm] using h
    exact ⟨rfl, rfl⟩

/-- The list of an open regular file: the data file, and behind it the meta file
    of a partitioned one. -/
theorem sfsFileOpen_ok {metaId : Option Nat}
    (h : run fileHandler (sfsFileOpen p metaId) k = some (.ok f, k')) :
    match metaId with
    | none => f = ⟨[⟨k.next, p⟩], false⟩
    | some m => f = ⟨[⟨k.next, p⟩, ⟨k.next + 1, m⟩], true⟩ := by
  obtain ⟨a, j, ha, h⟩ := run_orOut h
  obtain ⟨rfl, hj⟩ := masterFileAlloc_ok ha
  obtain ⟨b, i, hb, h⟩ := run_orOut h
  obtain ⟨rfl, hi⟩ := simpleFileOpen_ok hb
  cases metaId with
  | none =>
    obtain ⟨rfl, -⟩ : _ ∧ i = k' := by simpa using h
    simp [SfsFile.addReplica, hj]
  | some m =>
    obtain ⟨rfl, -⟩ := simpleFileOpen_ok h
    simp [SfsFile.addReplica, hj, hi]

/-- The partitions in which the loop opens a file. -/
def takes (d : SfsDentry) (p : Nat) : Bool :=
  ((d.replicas p).bind Replica.inode).isSome && d.normalDirMap p

/-- The loop opens a new file for each partition that it takes. -/
theorem openReplicas_ok {ps : List Nat}
    (h : run fileHandler (openReplicas d f ps) k = some (.ok g, k')) :
    ∃ rs, g.replicas = f.replicas ++ rs ∧ rs.map ReplicaFile.replicaId = ps.filter (takes d)
      ∧ (rs.map ReplicaFile.file).Nodup
      ∧ ∀ r ∈ rs, k.next ≤ r.file := by
  induction ps generalizing f k with
  | nil =>
    obtain ⟨rfl, -⟩ : f = g ∧ k = k' := by simpa [openReplicas] using h
    exact ⟨[], by simp⟩
  | cons p ps ih =>
    rw [openReplicas] at h
    split at h
    · -- no replica
      next hp =>
        obtain ⟨rs, hrs⟩ := ih h
        have hno : takes d p = false := by
          rw [takes, Option.isNone_iff_eq_none.mp hp]
          rfl
        rw [filter_cons_of_neg (by simp [hno])]
        exact ⟨rs, hrs⟩
    · next hp =>
      split at h
      · -- not normal
        next hm =>
          obtain ⟨rs, hrs⟩ := ih h
          have hno : takes d p = false := by
            simp only [Bool.not_eq_true'] at hm
            rw [takes, hm, Bool.and_false]
          rw [filter_cons_of_neg (by simp [hno])]
          exact ⟨rs, hrs⟩
      · next hm =>
        obtain ⟨f', j, hf', h⟩ := run_orOut h
        obtain ⟨rfl, hj⟩ := simpleFileOpen_ok hf'
        obtain ⟨rs, hg, hids, hnew, hle⟩ := ih h
        have hyes : takes d p = true := by
          rw [takes, Bool.and_eq_true]
          exact ⟨by simpa [Option.isSome_iff_ne_none] using hp, by simpa using hm⟩
        refine ⟨⟨k.next, p⟩ :: rs, ?_, ?_, ?_, ?_⟩
        · simp [hg, SfsFile.addReplica]
        · simp [hids, hyes]
        · refine nodup_cons.mpr ⟨?_, hnew⟩
          intro hmem
          obtain ⟨r, hr, hfile⟩ := mem_map.mp hmem
          have hlt : j.next ≤ k.next :=
            le_trans (hle r hr) (Nat.le_of_eq hfile)
          omega
        · intro r hr
          rcases mem_cons.mp hr with rfl | hr
          · exact le_refl _
          · exact le_trans (by omega) (hle r hr)

/-- The list of an open directory: one new file for each partition in which it is normal. -/
theorem sfsDirOpen_ok {N : Nat} (h : run fileHandler (sfsDirOpen N d) k = some (.ok f, k')) :
    f.replicas.map ReplicaFile.replicaId = Listing.openedIn N d
      ∧ (f.replicas.map ReplicaFile.file).Nodup := by
  obtain ⟨a, j, ha, h⟩ := run_orOut h
  obtain ⟨rfl, -⟩ := masterFileAlloc_ok ha
  obtain ⟨rs, hf, hids, hnew, -⟩ := openReplicas_ok h
  rw [hf]
  exact ⟨hids, hnew⟩

end Open

/-! ## What `fsync` covers -/

section Sync

variable {k : Kernel} {f : SfsFile} {r : ReplicaFile} {rs : List ReplicaFile} {ret : Int}

theorem run_vfsFsync {file : Nat} :
    run fileHandler (vfsFsync file) k = some (k.result file, k) := rfl

theorem trace_vfsFsync {file : Nat} : trace fileHandler (vfsFsync file) k = [.fsync file] := rfl

theorem run_syncReplicas_cons :
    run fileHandler (syncReplicas ret (r :: rs)) k = if k.result r.file = 0 then some (0, k)
        else run fileHandler (syncReplicas ret rs) k := by
  rw [syncReplicas, run_bind_some run_vfsFsync]
  split
  · next h => rw [h]; rfl
  · rfl

/-- When every `fsync` fails, the result is the variable. -/
theorem run_syncReplicas_fail (h : ∀ r ∈ rs, k.result r.file ≠ 0) :
    run fileHandler (syncReplicas ret rs) k = some (ret, k) := by
  induction rs with
  | nil => rfl
  | cons r rs ih =>
    rw [run_syncReplicas_cons, if_neg (h r (.head _))]
    exact ih (fun x hx => h x (.tail _ hx))

/-- One that succeeds makes the result 0. -/
theorem run_syncReplicas_zero (h : ∃ r ∈ rs, k.result r.file = 0) :
    run fileHandler (syncReplicas ret rs) k = some (0, k) := by
  induction rs with
  | nil =>
    obtain ⟨r, hr, -⟩ := h
    cases hr
  | cons r rs ih =>
    rw [run_syncReplicas_cons]
    split
    · rfl
    · next hr =>
      obtain ⟨x, hx, hzero⟩ := h
      rcases mem_cons.mp hx with rfl | hx
      · exact absurd hzero hr
      · exact ih ⟨x, hx, hzero⟩

/-- The first success ends the loop. -/
theorem trace_syncReplicas_zero (h : k.result r.file = 0) :
    trace fileHandler (syncReplicas ret (r :: rs)) k = [.fsync r.file] := by
  rw [syncReplicas, trace_bind_some run_vfsFsync, trace_vfsFsync, if_pos h]
  rfl

/-- A result that is not 0 has to be one of the errors, and 0 has to be everyone's. -/
theorem SyncCovers.result {isDir : Bool} {v : Int} (h : SyncCovers isDir ret f k)
    (hv : run fileHandler (fsyncOp isDir ret f) k = some (v, k)) :
    (v = 0 → ∀ x ∈ f.replicas, .fsync x.file ∈ trace fileHandler (fsyncOp isDir ret f) k
          ∧ k.result x.file = 0)
      ∧ (v ≠ 0 → ∃ x ∈ f.replicas, k.result x.file = v) := by
  obtain ⟨r, k', hr, hzero, herr⟩ := h
  rw [hv] at hr
  obtain ⟨rfl, -⟩ : v = r ∧ k = k' := by simpa using hr
  exact ⟨hzero, herr⟩

/-- A number that is neither 0 nor one of the results. -/
theorem exists_foreign (rs : List ReplicaFile) (k : Kernel) :
    ∃ v : Int, v ≠ 0 ∧ ∀ r ∈ rs, k.result r.file ≠ v := by
  obtain ⟨v, hv⟩ := Infinite.exists_notMem_finset
    (insert 0 ((rs.map (fun r => k.result r.file)).toFinset))
  rw [Finset.mem_insert, mem_toFinset, not_or] at hv
  exact ⟨v, hv.1, fun r hr h => hv.2 (mem_map.mpr ⟨r, hr, h⟩)⟩

/-- A directory's `fsync` keeps its promise only for one replica, and only when
    the `fsync` of that one succeeds. -/
theorem dir_covers_iff (hnew : (f.replicas.map ReplicaFile.file).Nodup) :
    (∀ ret, SyncCovers true ret f k) ↔ ∃ r, f.replicas = [r] ∧ k.result r.file = 0 := by
  constructor
  · intro h
    by_cases hsome : ∃ r ∈ f.replicas, k.result r.file = 0
    · -- the result is 0, so every replica file has been reached
      obtain ⟨hall, -⟩ := (h 0).result (run_syncReplicas_zero hsome)
      cases hf : f.replicas with
      | nil =>
        rw [hf] at hsome
        obtain ⟨r, hr, -⟩ := hsome
        cases hr
      | cons r rs =>
        rw [hf] at hall hnew
        have hr := (hall rfl r (.head _)).2
        have htrace : trace fileHandler (fsyncOp true 0 f) k = [.fsync r.file] := by
          show trace fileHandler (syncReplicas 0 f.replicas) k = _
          rw [hf]
          exact trace_syncReplicas_zero hr
        cases rs with
        | nil => exact ⟨r, rfl, hr⟩
        | cons x rs =>
          have hx := (hall rfl x (by simp)).1
          rw [htrace, mem_singleton, FileReq.fsync.injEq] at hx
          simp [hx] at hnew
    · -- nothing has been stored in the result
      exfalso
      push Not at hsome
      obtain ⟨v, hv, hforeign⟩ := exists_foreign f.replicas k
      obtain ⟨-, herr⟩ := (h v).result (run_syncReplicas_fail hsome)
      obtain ⟨r, hr, heq⟩ := herr hv
      exact hforeign r hr heq
  · rintro ⟨r, hf, hr⟩ ret
    refine ⟨0, k, run_syncReplicas_zero ?_, ?_, fun h => absurd rfl h⟩
    · rw [hf]
      exact ⟨r, mem_singleton_self r, hr⟩
    · intro _ x hx
      rw [hf, mem_singleton] at hx
      subst hx
      refine ⟨?_, hr⟩
      show _ ∈ trace fileHandler (syncReplicas ret f.replicas) k
      rw [hf, trace_syncReplicas_zero hr]
      exact mem_singleton_self _

/-- A file's `fsync` keeps its promise when the list has one element, or when
    the `fsync` of the data file fails. -/
theorem file_covers_iff (hf : f.replicas = r :: rs)
    (hnew : (f.replicas.map ReplicaFile.file).Nodup) :
    (∀ ret, SyncCovers false ret f k) ↔ rs = [] ∨ k.result r.file ≠ 0 := by
  have hop : ∀ ret, fsyncOp false ret f = vfsFsync r.file := by
    intro ret
    show sfsSyncFile ret f = _
    rw [sfsSyncFile, hf]
  constructor
  · intro h
    by_cases hr : k.result r.file = 0
    · left
      obtain ⟨hall, -⟩ := (h 0).result (by rw [hop]; exact run_vfsFsync)
      cases rs with
      | nil => rfl
      | cons x rs =>
        have hx := (hall hr x (by simp [hf])).1
        rw [hop, trace_vfsFsync, mem_singleton, FileReq.fsync.injEq] at hx
        simp [hf, hx] at hnew
    · exact .inr hr
  · intro h ret
    refine ⟨_, k, by rw [hop]; exact run_vfsFsync, ?_, ?_⟩
    · intro hr x hx
      rcases h with rfl | hne
      · rw [hf, mem_singleton] at hx
        subst hx
        rw [hop, trace_vfsFsync]
        exact ⟨mem_singleton_self _, hr⟩
      · exact absurd hr hne
    · intro _
      exact ⟨r, by simp [hf], rfl⟩

/-- When the `fsync` of an open file keeps its promise. -/
def SyncHolds (isDir : Bool) (f : SfsFile) (k : Kernel) : Prop :=
  if isDir then ∃ r, f.replicas = [r] ∧ k.result r.file = 0
  else f.isPartitioned = false ∨ ∃ r ∈ f.replicas.head?, k.result r.file ≠ 0

/-- A result of `fsync` covers every replica file of an open directory exactly
    when it has one and that one succeeds; of an open file, exactly when it is
    not partitioned or its data file fails. -/
theorem sync_covers_iff {isDir : Bool} (h : Opened isDir f k) :
    (∀ ret, SyncCovers isDir ret f k) ↔ SyncHolds isDir f k := by
  cases h with
  | dir h => exact dir_covers_iff (sfsDirOpen_ok h).2
  | @file replicaId metaId _ k₀ _ h =>
    have hlist := sfsFileOpen_ok h
    cases metaId with
    | none =>
      rw [file_covers_iff (by rw [hlist]) (by simp [hlist])]
      simp [SyncHolds, hlist]
    | some m =>
      rw [file_covers_iff (by rw [hlist]) (by simp [hlist])]
      simp [SyncHolds, hlist]

end Sync

/-! ## A directory in two partitions -/

/-- Two partitions; the `fsync` of the second file fails with `-EIO`. -/
def twoParts : Kernel where
  next := 0
  allocs := 0
  memory _ := true
  refuses _ := none
  result file := if file = 1 then eio else 0

/-- A directory that is normal in every partition. -/
def spread : SfsDentry :=
  { SfsDentry.fresh with
    replicas := fun _ => some ⟨[], some .dir⟩
    normalDirMap := fun _ => true }

/-- The directory, opened. -/
def spreadFile : SfsFile := ⟨[⟨0, 0⟩, ⟨1, 1⟩], false⟩

/-- The kernel then. -/
def twoOpen : Kernel := { twoParts with next := 2, allocs := 3 }

theorem spread_opened : Opened true spreadFile twoOpen := by
  refine .dir (N := 2) (d := spread) (k := twoParts) ?_
  rfl

/-- The replica in partition 1 has not been written, and `fsync` returns 0. -/
theorem spread_sync_lost : Opened true spreadFile twoOpen ∧ twoOpen.result 1 = eio
      ∧ run fileHandler (fsyncOp true 7 spreadFile) twoOpen = some (0, twoOpen)
      ∧ ¬ SyncCovers true 7 spreadFile twoOpen := by
  refine ⟨spread_opened, rfl, rfl, ?_⟩
  intro h
  obtain ⟨hall, -⟩ := h.result (v := 0) rfl
  obtain ⟨-, hresult⟩ := hall rfl ⟨1, 1⟩ (by decide)
  exact absurd hresult (by decide)

/-- The same directory in one partition. -/
theorem single_sync_covers : Opened true ⟨[⟨0, 0⟩], false⟩ { twoParts with next := 1, allocs := 2 }
      ∧ ∀ ret, SyncCovers true ret ⟨[⟨0, 0⟩], false⟩
          { twoParts with next := 1, allocs := 2 } := by
  have hopen :
      Opened true ⟨[⟨0, 0⟩], false⟩ { twoParts with next := 1, allocs := 2 } :=
    .dir (N := 1) (d := spread) (k := twoParts) rfl
  exact ⟨hopen, (sync_covers_iff hopen).mpr ⟨⟨0, 0⟩, rfl, rfl⟩⟩

end OpenFile
