import Mathlib.Data.List.Basic
import Mathlib.Algebra.Ring.Int.Defs
import Mathlib.Algebra.Ring.Nat

/-! # SFS — the position of an open file

An open SFS file has two positions: `f_pos` of its own `struct file`, which the VFS
reads and stores, and `f_pos` of the replica file, from which the replica's file system
seeks.  The file operations of SFS store the position of every transfer in the replica
file, also when the VFS passes a position that is not the file's.

The VFS is one text, `syscall`, over the operations of the file that is open: those of a
replica file that is opened directly (`direct`), or those of SFS (`sfs`), which pass
them on.  The two agree as long as every seek starts from the file's own position
(`simulates_iff`). -/

namespace Position

/-- `whence` of `llseek`. -/
inductive Whence where
  | seekSet
  | seekCur
  | seekEnd
  | seekData
  | seekHole
deriving DecidableEq, Repr

/-- `struct file`. -/
structure File where
  fPos : Int
  fVersion : Nat
deriving DecidableEq, Repr

/-- A transfer: the value that is returned, the bytes that have gone through,
    the position after it, and what it leaves in the file system. -/
structure Transfer (σ : Type) where
  ret : Int
  bytes : List UInt8
  pos : Int
  store : σ

/-- The file system of a replica.  A transfer goes by the position that it is given, a seek by
    the position of the file; it yields the value that is returned and the new position. -/
structure FileSystem (σ : Type) where
  read : σ → Nat → Int → Transfer σ
  write : σ → List UInt8 → Int → Transfer σ
  aioRead : σ → List Nat → Int → Transfer σ
  aioWrite : σ → List (List UInt8) → Int → Transfer σ
  spliceRead : σ → Nat → Int → Transfer σ
  spliceWrite : σ → List UInt8 → Int → Transfer σ
  llseek : σ → Int → Int → Whence → Int × Int

/-! ## The VFS -/

/-- An open file: its `struct file`, and what is behind it. -/
structure Opened (ρ : Type) where
  file : File
  behind : ρ

/-- What a transfer hands back to the VFS. -/
structure Result where
  ret : Int
  bytes : List UInt8
  pos : Int
deriving DecidableEq, Repr

/-- `struct file_operations`. -/
structure FileOps (ρ : Type) where
  read : Nat → Int → Opened ρ → Result × Opened ρ
  write : List UInt8 → Int → Opened ρ → Result × Opened ρ
  aioRead : List Nat → Int → Opened ρ → Result × Opened ρ
  aioWrite : List (List UInt8) → Int → Opened ρ → Result × Opened ρ
  spliceRead : Nat → Int → Opened ρ → Result × Opened ρ
  spliceWrite : List UInt8 → Int → Opened ρ → Result × Opened ρ
  llseek : Int → Whence → Opened ρ → Int × Opened ρ

/-- The calls.  A splice has a position of its own or none. -/
inductive Call where
  | read (len : Nat)
  | write (data : List UInt8)
  | pread (len : Nat) (pos : Int)
  | pwrite (data : List UInt8) (pos : Int)
  | aioRead (iov : List Nat) (pos : Int)
  | aioWrite (iov : List (List UInt8)) (pos : Int)
  | spliceRead (len : Nat) (off : Option Int)
  | spliceWrite (data : List UInt8) (off : Option Int)
  | llseek (offset : Int) (whence : Whence)
deriving DecidableEq, Repr

/-- What the caller sees. -/
structure Out where
  ret : Int
  bytes : List UInt8
deriving DecidableEq, Repr

/-- `-EINVAL`. -/
def einval : Int := -22

/-- `file_pos_write`. -/
def Opened.setPos {ρ : Type} (o : Opened ρ) (pos : Int) : Opened ρ :=
  { o with file := { o.file with fPos := pos } }

section Vfs

variable {ρ : Type}

/-- The transfer goes by a copy of `f_pos`, which is stored back. -/
def atFilePos (io : Int → Opened ρ → Result × Opened ρ) (o : Opened ρ) : Out × Opened ρ :=
  let r := io o.file.fPos o
  (⟨r.1.ret, r.1.bytes⟩, r.2.setPos r.1.pos)

/-- The transfer goes by a position of its own. -/
def atOwnPos (io : Int → Opened ρ → Result × Opened ρ) (pos : Int)
    (o : Opened ρ) : Out × Opened ρ :=
  let r := io pos o
  (⟨r.1.ret, r.1.bytes⟩, r.2)

/-- `pread64` and `pwrite64`, which refuse a negative position. -/
def positional (io : Int → Opened ρ → Result × Opened ρ) (pos : Int)
    (o : Opened ρ) : Out × Opened ρ :=
  if pos < 0 then (⟨einval, []⟩, o) else atOwnPos io pos o

/-- `do_splice` passes the address of `f_pos` when it is given no offset. -/
def spliced (io : Int → Opened ρ → Result × Opened ρ) (off : Option Int)
    (o : Opened ρ) : Out × Opened ρ :=
  match off with
  | none => atFilePos io o
  | some pos => atOwnPos io pos o

/-- A system call on an open file. -/
def syscall (ops : FileOps ρ) : Call → Opened ρ → Out × Opened ρ
  | .read len, o => atFilePos (ops.read len) o
  | .write data, o => atFilePos (ops.write data) o
  | .pread len pos, o => positional (ops.read len) pos o
  | .pwrite data pos, o => positional (ops.write data) pos o
  | .aioRead iov pos, o => atOwnPos (ops.aioRead iov) pos o
  | .aioWrite iov pos, o => atOwnPos (ops.aioWrite iov) pos o
  | .spliceRead len off, o => spliced (ops.spliceRead len) off o
  | .spliceWrite data off, o => spliced (ops.spliceWrite data) off o
  | .llseek offset whence, o =>
    let r := ops.llseek offset whence o
    (⟨r.1, []⟩, r.2)

/-- A sequence of calls. -/
def session (ops : FileOps ρ) : List Call → Opened ρ → List Out × Opened ρ
  | [], o => ([], o)
  | c :: cs, o =>
    let r := syscall ops c o
    let rest := session ops cs r.2
    (r.1 :: rest.1, rest.2)

end Vfs

/-! ## The replica file, opened directly -/

section Files

variable {σ : Type} (fs : FileSystem σ)

/-- `lseek_execute`: the version is cleared when the position changes. -/
def File.seekTo (f : File) (pos : Int) : File :=
  if pos = f.fPos then f else ⟨pos, 0⟩

def Transfer.result (t : Transfer σ) : Result := ⟨t.ret, t.bytes, t.pos⟩

/-- A transfer of the replica's file system. -/
def transfer (io : σ → Int → Transfer σ) (pos : Int) (o : Opened σ) : Result × Opened σ :=
  let t := io o.behind pos
  (t.result, { o with behind := t.store })

def direct : FileOps σ where
  read len := transfer (fun s => fs.read s len)
  write data := transfer (fun s => fs.write s data)
  aioRead iov := transfer (fun s => fs.aioRead s iov)
  aioWrite iov := transfer (fun s => fs.aioWrite s iov)
  spliceRead len := transfer (fun s => fs.spliceRead s len)
  spliceWrite data := transfer (fun s => fs.spliceWrite s data)
  llseek offset whence o :=
    let r := fs.llseek o.behind o.file.fPos offset whence
    (r.1, { o with file := o.file.seekTo r.2 })

/-! ## `file.c` -/

/-- Behind an SFS file: the replica file, and its file system. -/
structure Replica (σ : Type) where
  file : File
  store : σ

/-- `file_struct_sync`. -/
def fileStructSync (src : File) : File := ⟨src.fPos, src.fVersion⟩

/-- The replica's transfer, and `file_pos_write(replica_file, *ppos)`. -/
def passOn (io : σ → Int → Transfer σ) (ppos : Int) (o : Opened (Replica σ)) :
    Result × Opened (Replica σ) :=
  let t := io o.behind.store ppos
  (t.result, { o with behind := ⟨{ o.behind.file with fPos := t.pos }, t.store⟩ })

/-- The asynchronous transfers store the position they STARTED from. -/
def passOnAio (io : σ → Int → Transfer σ) (pos : Int)
    (o : Opened (Replica σ)) : Result × Opened (Replica σ) :=
  let t := io o.behind.store pos
  (t.result, { o with behind := ⟨{ o.behind.file with fPos := pos }, t.store⟩ })

def sfsFileRead (len : Nat) := passOn (fun s => fs.read s len)

def sfsFileWrite (data : List UInt8) := passOn (fun s => fs.write s data)

def sfsFileAioRead (iov : List Nat) := passOnAio (fun s => fs.aioRead s iov)

def sfsFileAioWrite (iov : List (List UInt8)) :=
  passOnAio (fun s => fs.aioWrite s iov)

def sfsFileSpliceRead (len : Nat) := passOn (fun s => fs.spliceRead s len)

def sfsFileSpliceWrite (data : List UInt8) :=
  passOn (fun s => fs.spliceWrite s data)

/-- The replica file is sought, and the file gets its position, whatever the
    value that is returned. -/
def sfsFileLlseek (offset : Int) (whence : Whence) (o : Opened (Replica σ)) :
    Int × Opened (Replica σ) :=
  let r := fs.llseek o.behind.store o.behind.file.fPos offset whence
  let replicaFile := o.behind.file.seekTo r.2
  (r.1, ⟨fileStructSync replicaFile, ⟨replicaFile, o.behind.store⟩⟩)

/-- `sfs_file_operations`. -/
def sfs : FileOps (Replica σ) where
  read := sfsFileRead fs
  write := sfsFileWrite fs
  aioRead := sfsFileAioRead fs
  aioWrite := sfsFileAioWrite fs
  spliceRead := sfsFileSpliceRead fs
  spliceWrite := sfsFileSpliceWrite fs
  llseek := sfsFileLlseek fs

/-- The positions after an open are 0. -/
def newFile : File := ⟨0, 0⟩

def sfsOpen (s : σ) : Opened (Replica σ) := ⟨newFile, newFile, s⟩

def directOpen (s : σ) : Opened σ := ⟨newFile, s⟩

/-! ## Simulation -/

/-- An SFS file and a replica file at the same place. -/
structure Alike (o : Opened (Replica σ)) (u : Opened σ) : Prop where
  pos : o.file.fPos = u.file.fPos
  store : o.behind.store = u.behind

/-- A seek from the replica's position is one from the file's. -/
def SeekAgrees (c : Call) (o : Opened (Replica σ)) : Prop :=
  ∀ offset whence, c = .llseek offset whence →
    fs.llseek o.behind.store o.behind.file.fPos offset whence
      = fs.llseek o.behind.store o.file.fPos offset whence

/-- Every seek of a sequence is such a one. -/
def SeeksAgree : List Call → Opened (Replica σ) → Prop
  | [], _ => True
  | c :: cs, o => SeekAgrees fs c o ∧ SeeksAgree cs (syscall (sfs fs) c o).2

/-- After each call of the sequence, the same values have been returned and the
    same bytes have gone through, and the files are at the same place. -/
def Simulates (cs : List Call) (o : Opened (Replica σ)) (u : Opened σ) : Prop :=
  ∀ n, (session (sfs fs) (cs.take n) o).1 = (session (direct fs) (cs.take n) u).1
    ∧ Alike (session (sfs fs) (cs.take n) o).2 (session (direct fs) (cs.take n) u).2

section Steps

variable {fs} {o : Opened (Replica σ)} {u : Opened σ} {c : Call} {cs : List Call}

@[simp] theorem seekTo_fPos (f : File) (pos : Int) : (f.seekTo pos).fPos = pos := by
  unfold File.seekTo
  split
  · next h => exact h.symm
  · rfl

/-- A transfer of SFS and one of the replica file, by one position. -/
structure Matches (a : Result × Opened (Replica σ)) (b : Result × Opened σ)
    (o : Opened (Replica σ)) (u : Opened σ) : Prop where
  result : a.1 = b.1
  file : a.2.file = o.file
  file' : b.2.file = u.file
  store : a.2.behind.store = b.2.behind

theorem passOn_matches (h : Alike o u) (io : σ → Int → Transfer σ)
    (pos : Int) : Matches (passOn io pos o) (transfer io pos u) o u := by
  constructor
  · simp only [passOn, transfer, h.store]
  · rfl
  · rfl
  · simp only [passOn, transfer, h.store]

theorem passOnAio_matches (h : Alike o u) (io : σ → Int → Transfer σ)
    (pos : Int) : Matches (passOnAio io pos o) (transfer io pos u) o u := by
  constructor
  · simp only [passOnAio, transfer, h.store]
  · rfl
  · rfl
  · simp only [passOnAio, transfer, h.store]

section Wrappers

variable {io : Int → Opened (Replica σ) → Result × Opened (Replica σ)}
  {io' : Int → Opened σ → Result × Opened σ}

section

variable (h : Alike o u) (hio : ∀ pos, Matches (io pos o) (io' pos u) o u)
include h hio

theorem atFilePos_alike :
    (atFilePos io o).1 = (atFilePos io' u).1 ∧ Alike (atFilePos io o).2 (atFilePos io' u).2 := by
  have hm := hio o.file.fPos
  rw [h.pos] at hm
  refine ⟨?_, ?_, ?_⟩
  · simp only [atFilePos, h.pos, hm.result]
  · simp only [atFilePos, Opened.setPos, h.pos, hm.result]
  · simp only [atFilePos, Opened.setPos, h.pos, hm.store]

theorem atOwnPos_alike (pos : Int) :
    (atOwnPos io pos o).1 = (atOwnPos io' pos u).1
      ∧ Alike (atOwnPos io pos o).2 (atOwnPos io' pos u).2 := by
  have hm := hio pos
  refine ⟨?_, ?_, ?_⟩
  · simp only [atOwnPos, hm.result]
  · simp only [atOwnPos, hm.file, hm.file', h.pos]
  · exact hm.store

theorem positional_alike (pos : Int) :
    (positional io pos o).1 = (positional io' pos u).1
      ∧ Alike (positional io pos o).2 (positional io' pos u).2 := by
  unfold positional
  split
  · exact ⟨rfl, h⟩
  · exact atOwnPos_alike h hio pos

theorem spliced_alike (off : Option Int) :
    (spliced io off o).1 = (spliced io' off u).1
      ∧ Alike (spliced io off o).2 (spliced io' off u).2 := by
  cases off with
  | none => exact atFilePos_alike h hio
  | some pos => exact atOwnPos_alike h hio pos

end

end Wrappers

/-- A seek yields the same value and the same position exactly when it does so
    from both positions. -/
theorem llseek_alike_iff (h : Alike o u) {offset : Int} {whence : Whence} :
    (syscall (sfs fs) (.llseek offset whence) o).1
        = (syscall (direct fs) (.llseek offset whence) u).1
      ∧ Alike (syscall (sfs fs) (.llseek offset whence) o).2
        (syscall (direct fs) (.llseek offset whence) u).2
      ↔ fs.llseek o.behind.store o.behind.file.fPos offset whence
        = fs.llseek o.behind.store o.file.fPos offset whence := by
  have hu : fs.llseek u.behind u.file.fPos offset whence
      = fs.llseek o.behind.store o.file.fPos offset whence := by
    rw [h.pos, h.store]
  constructor
  · rintro ⟨hret, hpos, -⟩
    refine Prod.ext ?_ ?_
    · rw [← hu]
      exact congrArg Out.ret hret
    · rw [← hu]
      simpa [syscall, sfs, direct, sfsFileLlseek, fileStructSync] using hpos
  · intro heq
    rw [← hu] at heq
    refine ⟨?_, ?_, h.store⟩
    · simp only [syscall, sfs, direct, sfsFileLlseek, heq]
    · simp [syscall, sfs, direct, sfsFileLlseek, fileStructSync, heq]

/-- One call keeps the files at the same place, a seek only under its condition. -/
theorem syscall_alike_iff (h : Alike o u) : (syscall (sfs fs) c o).1 = (syscall (direct fs) c u).1
      ∧ Alike (syscall (sfs fs) c o).2 (syscall (direct fs) c u).2
      ↔ SeekAgrees fs c o := by
  -- a call other than a seek satisfies both sides
  have hother : (∀ offset whence, c ≠ .llseek offset whence) →
      SeekAgrees fs c o := fun hc offset whence he => absurd he (hc _ _)
  cases c with
  | read len =>
    exact iff_of_true (atFilePos_alike h (passOn_matches h (fun s => fs.read s len))) (hother nofun)
  | write data =>
    exact iff_of_true (atFilePos_alike h (passOn_matches h (fun s => fs.write s data)))
      (hother nofun)
  | pread len pos =>
    exact iff_of_true (positional_alike h (passOn_matches h _) pos) (hother nofun)
  | pwrite data pos =>
    exact iff_of_true (positional_alike h (passOn_matches h _) pos) (hother nofun)
  | aioRead iov pos =>
    exact iff_of_true (atOwnPos_alike h (passOnAio_matches h _) pos) (hother nofun)
  | aioWrite iov pos =>
    exact iff_of_true (atOwnPos_alike h (passOnAio_matches h _) pos) (hother nofun)
  | spliceRead len off =>
    exact iff_of_true (spliced_alike h (passOn_matches h _) off) (hother nofun)
  | spliceWrite data off =>
    exact iff_of_true (spliced_alike h (passOn_matches h _) off) (hother nofun)
  | llseek offset whence =>
    rw [llseek_alike_iff h]
    constructor
    · rintro heq _ _ ⟨⟩
      exact heq
    · intro hs
      exact hs offset whence rfl

/-- A sequence is simulated when its first call is and the rest is. -/
theorem simulates_cons (h : Alike o u) :
    Simulates fs (c :: cs) o u ↔ ((syscall (sfs fs) c o).1 = (syscall (direct fs) c u).1
        ∧ Alike (syscall (sfs fs) c o).2 (syscall (direct fs) c u).2)
      ∧ Simulates fs cs (syscall (sfs fs) c o).2 (syscall (direct fs) c u).2 := by
  constructor
  · intro hsim
    refine ⟨?_, fun n => ?_⟩
    · obtain ⟨hout, halike⟩ := hsim 1
      exact ⟨List.head_eq_of_cons_eq hout, halike⟩
    · obtain ⟨hout, halike⟩ := hsim (n + 1)
      exact ⟨List.tail_eq_of_cons_eq hout, halike⟩
  · rintro ⟨⟨hout, -⟩, hrest⟩ n
    cases n with
    | zero => exact ⟨rfl, h⟩
    | succ n =>
      obtain ⟨houts, hend⟩ := hrest n
      refine ⟨?_, hend⟩
      show _ :: _ = _ :: _
      rw [hout, houts]

theorem simulates_iff_of_alike (h : Alike o u) : Simulates fs cs o u ↔ SeeksAgree fs cs o := by
  induction cs generalizing o u with
  | nil =>
    refine iff_of_true (fun n => ?_) trivial
    rw [List.take_nil]
    exact ⟨rfl, h⟩
  | cons c cs ih =>
    rw [simulates_cons h, syscall_alike_iff h]
    constructor
    · rintro ⟨hc, hrest⟩
      obtain ⟨-, halike⟩ := (syscall_alike_iff h).mpr hc
      exact ⟨hc, (ih halike).mp hrest⟩
    · rintro ⟨hc, hrest⟩
      obtain ⟨-, halike⟩ := (syscall_alike_iff h).mpr hc
      exact ⟨hc, (ih halike).mpr hrest⟩

end Steps

/-- For every file system and every sequence of calls on a file that has just been opened:
    all values returned, all bytes transferred and all positions are those of the replica
    file opened directly, exactly when every seek of the sequence finds in the replica file
    a position that serves as well as the file's. -/
theorem simulates_iff (cs : List Call) (s : σ) :
    Simulates fs cs (sfsOpen s) (directOpen s) ↔ SeeksAgree fs cs (sfsOpen s) :=
  simulates_iff_of_alike ⟨rfl, rfl⟩

/-! ## Sequences that go by the file's position -/

/-- A call that passes no position of its own. -/
def Call.shared : Call → Bool
  | .read _ | .write _ | .llseek _ _ => true
  | .spliceRead _ off | .spliceWrite _ off => off.isNone
  | _ => false

/-- The two positions of an SFS file are one. -/
def InStep (o : Opened (Replica σ)) : Prop := o.behind.file.fPos = o.file.fPos

variable {fs}

theorem passOn_inStep (io : σ → Int → Transfer σ) (o : Opened (Replica σ)) :
    InStep (atFilePos (passOn io) o).2 := rfl

theorem shared_inStep {c : Call} {o : Opened (Replica σ)}
    (hc : c.shared = true) : InStep (syscall (sfs fs) c o).2 := by
  cases c with
  | read len => exact passOn_inStep _ o
  | write data => exact passOn_inStep _ o
  | spliceRead len off =>
    cases Option.isNone_iff_eq_none.mp hc
    exact passOn_inStep _ o
  | spliceWrite data off =>
    cases Option.isNone_iff_eq_none.mp hc
    exact passOn_inStep _ o
  | llseek offset whence => rfl
  | _ => cases hc

/-- Without `pread`, `pwrite`, asynchronous calls and splices with an offset,
    SFS is the replica file. -/
theorem shared_simulates {cs : List Call} (s : σ) (hcs : ∀ c ∈ cs, c.shared = true) :
    Simulates fs cs (sfsOpen s) (directOpen s) := by
  have hagree : ∀ o : Opened (Replica σ), InStep o → SeeksAgree fs cs o := by
    induction cs with
    | nil => exact fun _ _ => trivial
    | cons c cs ih =>
      intro o ho
      refine ⟨fun offset whence _ => by rw [ho], ?_⟩
      exact ih (fun x hx => hcs x (.tail _ hx)) _ (shared_inStep (hcs c (.head _)))
  exact (simulates_iff_of_alike ⟨rfl, rfl⟩).mpr (hagree _ rfl)

end Files

/-! ## A plain file -/

/-- `generic_file_llseek` of a file of `size` bytes. -/
def genericFileLlseek (maxbytes size fPos offset : Int) (whence : Whence) : Int × Int :=
  let execute (offset : Int) : Int × Int :=
    if offset < 0 ∨ maxbytes < offset then (einval, fPos) else (offset, offset)
  let enxio : Int := -6
  match whence with
  | .seekSet => execute offset
  | .seekEnd => execute (offset + size)
  | .seekCur => if offset = 0 then (fPos, fPos) else execute (fPos + offset)
  | .seekData => if size ≤ offset then (enxio, fPos) else execute offset
  | .seekHole => if size ≤ offset then (enxio, fPos) else execute size

/-- The bytes of a read, which ends at the end of the file. -/
def plainRead (s : List UInt8) (len : Nat) (pos : Int) : Transfer (List UInt8) :=
  let bytes := (s.drop pos.toNat).take len
  ⟨bytes.length, bytes, pos + bytes.length, s⟩

/-- A write; a gap before it is filled with zeros. -/
def plainWrite (s : List UInt8) (data : List UInt8) (pos : Int) : Transfer (List UInt8) :=
  let p := pos.toNat
  let padded := s ++ List.replicate (p - s.length) 0
  ⟨data.length, data, pos + data.length,
    padded.take p ++ data ++ padded.drop (p + data.length)⟩

/-- A file system with one file, which is its bytes. -/
def plain : FileSystem (List UInt8) where
  read := plainRead
  write := plainWrite
  aioRead s iov pos := plainRead s iov.sum pos
  aioWrite s iov pos := plainWrite s iov.flatten pos
  spliceRead := plainRead
  spliceWrite := plainWrite
  llseek s fPos offset whence :=
    genericFileLlseek (2 ^ 63 - 1) s.length fPos offset whence

theorem append_simulates :
    Simulates plain [.llseek 0 .seekEnd, .write [1], .read 2] (sfsOpen [7]) (directOpen [7]) :=
  shared_simulates [7] (by decide)

/-- After a `pread` of two bytes at 4, a file that is at 0 says that it is at 6. -/
theorem pread_moves_position : (session (sfs plain) [.pread 2 4, .llseek 0 .seekCur]
        (sfsOpen (List.replicate 10 7))).1 = [⟨2, [7, 7]⟩, ⟨6, []⟩]
      ∧ (session (direct plain) [.pread 2 4, .llseek 0 .seekCur]
        (directOpen (List.replicate 10 7))).1 = [⟨2, [7, 7]⟩, ⟨0, []⟩] := by
  decide

end Position
