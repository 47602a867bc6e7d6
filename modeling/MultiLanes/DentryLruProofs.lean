import MultiLanes.InodeCacheProofs
import MultiLanes.InterleaveProofs

/-! # Dentry LRU locks

The patch gives a superblock on a loop device a lock of its own for its list of unused
dentries; all others share the global one.  Each function asks `groupfs_get_dlru` for
the lock of a dentry and keeps it in a local variable until it returns, while `mount_fs`
initialises the lock of a superblock and then sets `isloop`, once for every mount of it.

Threads run the functions of `dcache.c` and `mount_fs`, request by request. The state
has the lists, the locks with the threads that are inside, the local variables, and a
record of the changes of `s_dentry_lru` with what was held for them.  `d_lock` and the
flags of a dentry are not part of it: what depends on them is left open.

`OneLock` says that the lists were changed under their locks only and that nobody shares
a lock.  It holds in every run in which `prune_dcache_sb` finds a dentry of the right
kind in its uninitialised variable, and a mount meets neither a holder of the lock nor a
superblock whose list is in use (`careful_oneLock`). -/

namespace DentryLru

open InteractProg InodeCache Function List

/-! ## The state -/

/-- `dcache_lru_lock`, and the one of a superblock. -/
inductive Lock where
  | global
  | own (sb : Nat)
deriving DecidableEq, Repr

/-- The superblocks of the dentries, and `sb->s_root`. -/
structure Dentries where
  sbOf : Nat → Nat
  rootOf : Nat → Nat
  root_sb : ∀ sb, sbOf (rootOf sb) = sb

/-- A list head on the stack of a thread. -/
abbrev ListId : Type := Nat × Nat

/-- A change of `s_dentry_lru`: who made it, and what was held. -/
structure Change where
  sb : Nat
  tid : Nat
  held : Lock → Bool

/-- `linked` says that `d_lru` of a dentry is on a list, `s_dentry_lru` or one of a thread.
    `word` is set while a lock is taken; `holders` are the threads between `spin_lock` and
    `spin_unlock`, and `frames` the local variables of the functions that run, with the
    superblock they work on. -/
structure Dcache where
  isloop : Nat → Bool
  word : Lock → Bool
  holders : Lock → List Nat
  lru : Nat → List Nat
  lists : ListId → List Nat
  linked : Nat → Bool
  nrDentryUnused : Nat → Int
  nrUnused : Int
  frames : Nat → List (Nat × Lock)
  log : List Change

/-- `groupfs_get_dlru`, of a dentry of the superblock. -/
def Dcache.lockOf (s : Dcache) (sb : Nat) : Lock :=
  if s.isloop sb then .own sb else .global

/-! ## Changes of the lists -/

/-- What is done to the lists. -/
inductive ListOp where
  /-- `list_add(&dentry->d_lru, &dentry->d_sb->s_dentry_lru)` -/
  | add (dentry : Nat)
  /-- `__dentry_lru_del` -/
  | del (dentry : Nat)
  /-- `list_add_tail(&dentry->d_lru, list)` -/
  | addTail (dentry : Nat) (list : ListId)
  /-- `list_move(&dentry->d_lru, list)` -/
  | move (dentry : Nat) (list : ListId)
  /-- `list_move_tail(&dentry->d_lru, list)` -/
  | moveTail (dentry : Nat) (list : ListId)
  /-- `list_splice(list, &sb->s_dentry_lru)`; the list is not used again -/
  | splice (list : ListId) (sb : Nat)
  /-- `list_splice_init(&sb->s_dentry_lru, list)` -/
  | spliceInit (sb : Nat) (list : ListId)

/-- The superblock whose dentries are moved. -/
def ListOp.sb (D : Dentries) : ListOp → Nat
  | .add d | .del d | .addTail d _ | .move d _ | .moveTail d _ => D.sbOf d
  | .splice _ sb | .spliceInit sb _ => sb

def Dcache.setLru (s : Dcache) (sb : Nat) (ds : List Nat) : Dcache :=
  { s with lru := update s.lru sb ds }

def Dcache.setList (s : Dcache) (list : ListId) (ds : List Nat) : Dcache :=
  { s with lists := update s.lists list ds }

/-- The dentry is taken off its list. -/
def Dcache.unlink (D : Dentries) (s : Dcache) (d : Nat) : Dcache :=
  { s.setLru (D.sbOf d) ((s.lru (D.sbOf d)).erase d) with
    lists := fun list => (s.lists list).erase d }

/-- `d_lru` is on a list from now on, or empty. -/
def Dcache.setLinked (s : Dcache) (d : Nat) (b : Bool) : Dcache :=
  { s with linked := update s.linked d b }

/-- `s_nr_dentry_unused` and `dentry_stat.nr_unused`. -/
def Dcache.count (s : Dcache) (sb : Nat) (n : Int) : Dcache :=
  { s with
    nrDentryUnused :=
      update s.nrDentryUnused sb (s.nrDentryUnused sb + n)
    nrUnused := s.nrUnused + n }

def Dcache.apply (D : Dentries) (s : Dcache) : ListOp → Dcache
  | .add d =>
    ((s.setLru (D.sbOf d) (d :: s.lru (D.sbOf d))).setLinked d true).count (D.sbOf d) 1
  | .del d => ((s.unlink D d).setLinked d false).count (D.sbOf d) (-1)
  | .addTail d list =>
    ((s.setList list (s.lists list ++ [d])).setLinked d true).count (D.sbOf d) 1
  | .move d list =>
    (s.unlink D d).setList list (d :: (s.unlink D d).lists list)
  | .moveTail d list =>
    (s.unlink D d).setList list ((s.unlink D d).lists list ++ [d])
  | .splice list sb =>
    (s.setLru sb (s.lists list ++ s.lru sb)).setList list []
  | .spliceInit sb list =>
    (s.setList list (s.lru sb ++ s.lists list)).setLru sb []

/-- The change, on the record if it is one of `s_dentry_lru`. -/
def Dcache.change (D : Dentries) (s : Dcache) (tid : Nat) (op : ListOp) : Dcache :=
  { s.apply D op with
    log :=
      if (s.apply D op).lru (op.sb D) = s.lru (op.sb D) then s.log
      else ⟨op.sb D, tid, fun l => decide (tid ∈ s.holders l)⟩ :: s.log }

/-! ## Requests -/

/-- What depends on the rest of the kernel. -/
inductive Query where
  /-- `spin_trylock(&dentry->d_lock)` -/
  | trylock (dentry : Nat)
  /-- `dentry->d_flags & DCACHE_REFERENCED` -/
  | referenced (dentry : Nat)
  /-- `dentry->d_flags & DCACHE_OP_PRUNE` -/
  | opPrune (dentry : Nat)
  /-- `dentry->d_count` -/
  | inUse (dentry : Nat)
  /-- the dentry is still the last of the list, with `d_lock` held -/
  | stillLast (dentry : Nat)
  /-- `cond_resched_lock` lets go of the lock -/
  | resched

inductive DlruReq where
  /-- `groupfs_get_dlru(dentry)`, into a local variable, for work on `sb` -/
  | getDlru (tid sb dentry : Nat)
  /-- the function returns -/
  | ret (tid : Nat)
  | lock (tid : Nat) (l : Lock)
  | unlock (tid : Nat) (l : Lock)
  | change (tid : Nat) (op : ListOp)
  /-- `list_empty(&dentry->d_lru)` -/
  | dLruEmpty (dentry : Nat)
  /-- `sb->s_dentry_lru.prev`, if the list is not empty -/
  | lruPrev (sb : Nat)
  /-- `list->prev`, if the list is not empty -/
  | listPrev (list : ListId)
  /-- `dentry->d_op->d_prune(dentry)` -/
  | dPrune (dentry : Nat)
  /-- the dentries that `dentry_kill` comes through for, from this one upwards -/
  | kill (dentry : Nat)
  | query (q : Query)
  /-- what an uninitialised variable holds -/
  | junk
  /-- `type->mount`: the superblock of the root, or an error -/
  | typeMount
  /-- `spin_lock_init(&sb->dcache_lru_lock)` -/
  | initLock (sb : Nat)
  /-- `sb->isloop = 1` -/
  | setIsloop (sb : Nat)
  /-- `BUG()` -/
  | bug
  /-- the rounds of a loop are used up -/
  | spin

@[reducible] def DlruReq.Ans : DlruReq → Type
  | .getDlru _ _ _ => Lock
  | .dLruEmpty _ | .query _ => Bool
  | .lruPrev _ | .listPrev _ | .typeMount => Option Nat
  | .kill _ => List Nat
  | .junk => Nat
  | .bug | .spin => Empty
  | _ => Unit

abbrev DlruSig : Sig := ⟨DlruReq, DlruReq.Ans⟩

abbrev DlruCode (α : Type) : Type := Prog DlruSig α

def Dcache.push (s : Dcache) (tid : Nat) (f : Nat × Lock) : Dcache :=
  { s with frames := update s.frames tid (f :: s.frames tid) }

def Dcache.pop (s : Dcache) (tid : Nat) : Dcache :=
  { s with frames := update s.frames tid (s.frames tid).tail }

def Dcache.take (s : Dcache) (tid : Nat) (l : Lock) : Dcache :=
  { s with
    word := update s.word l true
    holders := update s.holders l (tid :: s.holders l) }

/-- The lock is free then, whoever held it. -/
def Dcache.release (s : Dcache) (tid : Nat) (l : Lock) : Dcache :=
  { s with
    word := update s.word l false
    holders := update s.holders l ((s.holders l).erase tid) }

/-- `spin_lock` waits until the lock is free; `spin_lock_init` makes it free. -/
def dlruEnv (D : Dentries) : Env DlruSig Dcache
  | .getDlru tid sb d, s, l, t =>
    l = s.lockOf (D.sbOf d) ∧ t = s.push tid (sb, l)
  | .ret tid, s, _, t => t = s.pop tid
  | .lock tid l, s, _, t => s.word l = false ∧ t = s.take tid l
  | .unlock tid l, s, _, t => t = s.release tid l
  | .change tid op, s, _, t => t = s.change D tid op
  | .dLruEmpty d, s, b, t => b = !s.linked d ∧ t = s
  | .lruPrev sb, s, d, t => d = (s.lru sb).getLast? ∧ t = s
  | .listPrev list, s, d, t => d = (s.lists list).getLast? ∧ t = s
  | .initLock sb, s, _, t =>
    t = { s with word := update s.word (.own sb) false }
  | .setIsloop sb, s, _, t =>
    t = { s with isloop := update s.isloop sb true }
  | .dPrune _, s, _, t | .kill _, s, _, t | .query _, s, _, t
  | .junk, s, _, t | .typeMount, s, _, t => t = s
  | .bug, _, _, _ | .spin, _, _, _ => False

def getDlru (tid sb dentry : Nat) : DlruCode Lock :=
  perform (S := DlruSig) (.getDlru tid sb dentry)

def ret (tid : Nat) : DlruCode Unit := perform (S := DlruSig) (.ret tid)

def lock (tid : Nat) (l : Lock) : DlruCode Unit :=
  perform (S := DlruSig) (.lock tid l)

def unlock (tid : Nat) (l : Lock) : DlruCode Unit :=
  perform (S := DlruSig) (.unlock tid l)

def change (tid : Nat) (op : ListOp) : DlruCode Unit :=
  perform (S := DlruSig) (.change tid op)

def dLruEmpty (dentry : Nat) : DlruCode Bool :=
  perform (S := DlruSig) (.dLruEmpty dentry)

def lruPrev (sb : Nat) : DlruCode (Option Nat) :=
  perform (S := DlruSig) (.lruPrev sb)

def listPrev (list : ListId) : DlruCode (Option Nat) :=
  perform (S := DlruSig) (.listPrev list)

def dPrune (dentry : Nat) : DlruCode Unit :=
  perform (S := DlruSig) (.dPrune dentry)

def kill (dentry : Nat) : DlruCode (List Nat) :=
  perform (S := DlruSig) (.kill dentry)

def query (q : Query) : DlruCode Bool := perform (S := DlruSig) (.query q)

def junk : DlruCode Nat := perform (S := DlruSig) .junk

def typeMount : DlruCode (Option Nat) := perform (S := DlruSig) .typeMount

def initLock (sb : Nat) : DlruCode Unit :=
  perform (S := DlruSig) (.initLock sb)

def setIsloop (sb : Nat) : DlruCode Unit :=
  perform (S := DlruSig) (.setIsloop sb)

def bug {α : Type} : DlruCode α := .ask .bug nofun

def spin {α : Type} : DlruCode α := .ask .spin nofun

/-! ## `dcache.c` -/

section Code

variable (D : Dentries) (tid : Nat)

def dentryLruAdd (d : Nat) : DlruCode Unit := do
  let l ← getDlru tid (D.sbOf d) d
  if ← dLruEmpty d then
    lock tid l
    change tid (.add d)
    unlock tid l
  ret tid

def dentryLruDel (d : Nat) : DlruCode Unit := do
  let l ← getDlru tid (D.sbOf d) d
  if !(← dLruEmpty d) then
    lock tid l
    change tid (.del d)
    unlock tid l
  ret tid

def dentryLruPrune (d : Nat) : DlruCode Unit := do
  let l ← getDlru tid (D.sbOf d) d
  if !(← dLruEmpty d) then
    if ← query (.opPrune d) then dPrune d
    lock tid l
    change tid (.del d)
    unlock tid l
  ret tid

def dentryLruMoveList (d : Nat) (list : ListId) : DlruCode Unit := do
  let l ← getDlru tid (D.sbOf d) d
  lock tid l
  if ← dLruEmpty d then change tid (.addTail d list)
  else change tid (.moveTail d list)
  unlock tid l
  ret tid

/-- The dentries that are killed are taken off their lists one by one. -/
def dentryKills : List Nat → DlruCode Unit
  | [] => return
  | d :: ds => do
    dentryLruPrune D tid d
    dentryKills ds

/-- `shrink_dentry_list`, for a number of rounds. -/
def shrinkDentryList (list : ListId) : Nat → DlruCode Unit
  | 0 => spin
  | rounds + 1 => do
    match ← listPrev list with
    | none => return
    | some d =>
      if ← query (.stillLast d) then
        if ← query (.inUse d) then dentryLruDel D tid d
        else
          let ds ← kill d
          dentryKills D tid ds
      shrinkDentryList list rounds

/-- `LIST_HEAD(referenced)` and `LIST_HEAD(tmp)`. -/
def referenced : ListId := (tid, 0)

def tmp : ListId := (tid, 1)

def condReschedLock (l : Lock) : DlruCode Unit := do
  if ← query .resched then
    unlock tid l
    lock tid l

/-- The loop of `prune_dcache_sb`, with the lock taken. -/
def pruneLoop (sb : Nat) (l : Lock) : Nat → Int → DlruCode Unit
  | 0, _ => spin
  | rounds + 1, count => do
    match ← lruPrev sb with
    | none => return
    | some d =>
      if D.sbOf d ≠ sb then bug
      else if !(← query (.trylock d)) then
        unlock tid l
        lock tid l
        pruneLoop sb l rounds count
      else if ← query (.referenced d) then
        change tid (.move d (referenced tid))
        condReschedLock tid l
        pruneLoop sb l rounds count
      else
        change tid (.moveTail d (tmp tid))
        if count - 1 = 0 then return
        else
          condReschedLock tid l
          pruneLoop sb l rounds (count - 1)

/-- `prune_dcache_sb`: the lock is that of the dentry which the variable happens to point at. -/
def pruneDcacheSb (sb : Nat) (count : Int) (rounds : Nat) : DlruCode Unit := do
  let dentry ← junk
  let l ← getDlru tid sb dentry
  lock tid l
  pruneLoop D tid sb l rounds count
  if (← listPrev (referenced tid)).isSome then
    change tid (.splice (referenced tid) sb)
  unlock tid l
  shrinkDentryList D tid (tmp tid) rounds
  ret tid

/-- The loop of `shrink_dcache_sb`, with the lock taken. -/
def shrinkLoop (sb : Nat) (l : Lock) : Nat → DlruCode Unit
  | 0 => spin
  | rounds + 1 => do
    match ← lruPrev sb with
    | none => return
    | some _ =>
      change tid (.spliceInit sb (tmp tid))
      unlock tid l
      shrinkDentryList D tid (tmp tid) rounds
      lock tid l
      shrinkLoop sb l rounds

def shrinkDcacheSb (sb rounds : Nat) : DlruCode Unit := do
  let l ← getDlru tid sb (D.rootOf sb)
  lock tid l
  shrinkLoop D tid sb l rounds
  unlock tid l
  ret tid

end Code

/-- `mount_fs`, as far as the locks go. -/
def mountFs (name : Option String) : DlruCode Unit := do
  match ← typeMount with
  | none => return
  | some sb =>
    if loopName name then
      initLock sb
      setIsloop sb

/-! ## Runs -/

/-- What a thread runs. -/
inductive Task where
  | add (dentry : Nat)
  | del (dentry : Nat)
  | prune (dentry : Nat)
  | moveList (dentry : Nat) (list : ListId)
  | pruneSb (sb : Nat) (count : Int) (rounds : Nat)
  | shrinkSb (sb rounds : Nat)
  | mount (name : Option String)

def Task.code (D : Dentries) (tid : Nat) : Task → DlruCode Unit
  | .add d => dentryLruAdd D tid d
  | .del d => dentryLruDel D tid d
  | .prune d => dentryLruPrune D tid d
  | .moveList d list => dentryLruMoveList D tid d list
  | .pruneSb sb count rounds => pruneDcacheSb D tid sb count rounds
  | .shrinkSb sb rounds => shrinkDcacheSb D tid sb rounds
  | .mount name => mountFs name

/-- Any number of threads; one that starts holds nothing. -/
def dlruMachine (D : Dentries) (E : Env DlruSig Dcache) : Machine DlruSig Dcache Nat Unit where
  env := E
  starts w s := (∃ k : Task, w.rest = k.code D w.own)
    ∧ s.frames w.own = [] ∧ ∀ l, w.own ∉ s.holders l
  apart i j := i ≠ j
  drifts _ _ _ := False
  boots _ _ := False

/-- Nothing runs, no lock is taken, and nothing was changed. -/
structure Booted (s : Dcache) : Prop where
  word : ∀ l, s.word l = false
  holders : ∀ l, s.holders l = []
  frames : ∀ tid, s.frames tid = []
  log : s.log = []

/-- Every change of a list was made under the lock of its superblock, which is
    what `groupfs_get_dlru` gives, and no two threads hold a lock. -/
structure OneLock (s : Dcache) : Prop where
  held : ∀ c ∈ s.log, c.held (s.lockOf c.sb) = true
  one : ∀ l, (s.holders l).length ≤ 1

/-- The dentry that is asked for its lock has the lock of the superblock; a lock is
    initialised while nobody holds it; and `isloop` is set where it is set already, or where
    no function works on the superblock and its list was not changed. -/
def Careful (D : Dentries) : DlruReq → Dcache → Prop
  | .getDlru _ sb d, s => s.lockOf (D.sbOf d) = s.lockOf sb
  | .initLock sb, s => s.holders (.own sb) = []
  | .setIsloop sb, s => s.isloop sb = true
      ∨ ((∀ tid, ∀ f ∈ s.frames tid, f.1 ≠ sb) ∧ ∀ c ∈ s.log, c.sb ≠ sb)
  | _, _ => True

def carefulEnv (D : Dentries) : Env DlruSig Dcache := fun q s x t =>
  Careful D q s ∧ dlruEnv D q s x t

/-! ## The contract -/

structure DlruInv (s : Dcache) : Prop where
  one : ∀ l, (s.holders l).length ≤ 1
  free : ∀ l, s.word l = false → s.holders l = []
  frames : ∀ tid, ∀ f ∈ s.frames tid, f.2 = s.lockOf f.1
  log : ∀ c ∈ s.log, c.held (s.lockOf c.sb) = true

/-- A thread releases what it holds, and changes the lists of superblocks whose lock it holds. -/
def DlruMay (D : Dentries) (k : Nat) : DlruReq → Dcache → Prop
  | .getDlru tid _ _, _ | .ret tid, _ | .lock tid _, _ => tid = k
  | .unlock tid l, s => tid = k ∧ k ∈ s.holders l
  | .change tid op, s => tid = k ∧ k ∈ s.holders (s.lockOf (op.sb D))
  | _, _ => True

/-- The others leave a thread its variables and its locks. -/
structure DlruRely (k : Nat) (s t : Dcache) : Prop where
  frames : t.frames k = s.frames k
  holds : ∀ l, k ∈ t.holders l ↔ k ∈ s.holders l

def dlruContract (D : Dentries) : Contract DlruSig Dcache Nat :=
  ⟨DlruInv, DlruMay D, DlruRely⟩

section Laws

variable {D : Dentries} {s t : Dcache} {tid k : Nat} {l : Lock} {op : ListOp}

/-! What a change of the lists leaves alone. -/

theorem change_rest (s : Dcache) (tid : Nat) (op : ListOp) :
    (s.change D tid op).isloop = s.isloop ∧ (s.change D tid op).word = s.word
      ∧ (s.change D tid op).holders = s.holders
      ∧ (s.change D tid op).frames = s.frames := by
  cases op <;> exact ⟨rfl, rfl, rfl, rfl⟩

/-- What is on the record after a change. -/
theorem mem_change_log {c : Change} (h : c ∈ (s.change D tid op).log) :
    c ∈ s.log ∨ c = ⟨op.sb D, tid, fun l => decide (tid ∈ s.holders l)⟩ := by
  simp only [Dcache.change] at h
  split at h
  · exact .inl h
  · exact (mem_cons.mp h).symm

theorem lockOf_congr (h : t.isloop = s.isloop) (sb : Nat) : t.lockOf sb = s.lockOf sb := by
  rw [Dcache.lockOf, Dcache.lockOf, h]

/-! ### The invariant -/

section

variable (h : DlruInv s)
include h

/-- A thread that holds the lock is the only one. -/
theorem DlruInv.holders_eq (hk : k ∈ s.holders l) : s.holders l = [k] := by
  obtain ⟨a, ha⟩ := length_eq_one_iff.mp (Nat.le_antisymm (h.one l) (length_pos_of_mem hk))
  rw [ha] at hk ⊢
  rw [mem_singleton.mp hk]

theorem DlruInv.push {sb : Nat} (hl : l = s.lockOf sb) :
    DlruInv (s.push tid (sb, l)) where
  one := h.one
  free := h.free
  frames i f hf := by
    have hf' : f ∈ update s.frames tid ((sb, l) :: s.frames tid) i :=
      hf
    by_cases hi : i = tid
    · subst hi
      rw [update_self] at hf'
      rcases mem_cons.mp hf' with rfl | hf'
      · exact hl
      · exact h.frames i f hf'
    · rw [update_of_ne hi] at hf'
      exact h.frames i f hf'
  log := h.log

theorem DlruInv.pop (tid : Nat) : DlruInv (s.pop tid) where
  one := h.one
  free := h.free
  frames i f hf := by
    have hf' : f ∈ update s.frames tid (s.frames tid).tail i := hf
    by_cases hi : i = tid
    · subst hi
      rw [update_self] at hf'
      exact h.frames i f (mem_of_mem_tail hf')
    · rw [update_of_ne hi] at hf'
      exact h.frames i f hf'
  log := h.log

/-- The word and the holders of one lock are changed. -/
theorem DlruInv.setLock {b : Bool} {hs : List Nat}
    (hone : hs.length ≤ 1) (hfree : b = false → hs = []) :
    DlruInv { s with
      word := update s.word l b
      holders := update s.holders l hs } where
  one m := by
    show (update s.holders l hs m).length ≤ 1
    by_cases hm : m = l
    · rw [hm, update_self]
      exact hone
    · rw [update_of_ne hm]
      exact h.one m
  free m := by
    show update s.word l b m = false → update s.holders l hs m = []
    by_cases hm : m = l
    · rw [hm, update_self, update_self]
      exact hfree
    · rw [update_of_ne hm, update_of_ne hm]
      exact h.free m
  frames := h.frames
  log := h.log

theorem DlruInv.take (hw : s.word l = false) : DlruInv (s.take tid l) := by
  refine h.setLock ?_ nofun
  rw [h.free l hw]
  exact Nat.le_refl 1

theorem DlruInv.release (hk : k ∈ s.holders l) : DlruInv (s.release k l) := by
  have hnone : (s.holders l).erase k = [] := by
    rw [h.holders_eq hk, erase_cons_head]
  refine h.setLock ?_ fun _ => hnone
  rw [hnone]
  exact Nat.zero_le 1

theorem DlruInv.initLock {sb : Nat} (hnone : s.holders (.own sb) = []) :
    DlruInv { s with word := update s.word (.own sb) false } := by
  have hset : DlruInv { s with
      word := update s.word (.own sb) false
      holders := update s.holders (.own sb) (s.holders (.own sb)) } :=
    h.setLock (h.one _) fun _ => hnone
  rwa [update_eq_self] at hset

theorem DlruInv.change (hk : tid ∈ s.holders (s.lockOf (op.sb D))) :
    DlruInv (s.change D tid op) := by
  obtain ⟨hisloop, hword, hholders, hframes⟩ := change_rest (D := D) s tid op
  refine ⟨fun m => ?_, fun m => ?_, fun i f hf => ?_, fun c hc => ?_⟩
  · rw [hholders]
    exact h.one m
  · rw [hword, hholders]
    exact h.free m
  · rw [hframes] at hf
    rw [lockOf_congr hisloop]
    exact h.frames i f hf
  · rw [lockOf_congr hisloop]
    rcases mem_change_log hc with hold | rfl
    · exact h.log c hold
    · exact decide_eq_true hk

theorem DlruInv.setIsloop {sb : Nat} (hsb : Careful D (.setIsloop sb) s) :
    DlruInv { s with isloop := update s.isloop sb true } := by
  rcases hsb with hset | ⟨hframes, hlog⟩
  · -- it was set already
    have hsame : update s.isloop sb true = s.isloop := by
      rw [← hset, update_eq_self]
    rw [hsame]
    exact h
  · -- the locks of the other superblocks are the same
    have hlock : ∀ sb', sb' ≠ sb → Dcache.lockOf
        { s with isloop := update s.isloop sb true } sb' = s.lockOf sb' := by
      intro sb' hne
      show (if update s.isloop sb true sb' then _ else _) = _
      rw [update_of_ne hne]
      rfl
    refine ⟨h.one, h.free, fun i f hf => ?_, fun c hc => ?_⟩
    · rw [hlock _ (hframes i f hf)]
      exact h.frames i f hf
    · rw [hlock _ (hlog c hc)]
      exact h.log c hc

/-- Whatever a thread may do keeps it. -/
theorem DlruInv.keep {q : DlruReq} {x : q.Ans}
    (hm : DlruMay D k q s) (hE : carefulEnv D q s x t) : DlruInv t := by
  obtain ⟨hcare, hE⟩ := hE
  cases q with
  | getDlru tid sb d =>
    obtain ⟨rfl, rfl⟩ := hE
    exact h.push hcare
  | ret tid =>
    cases hE
    exact h.pop tid
  | lock tid l =>
    obtain ⟨hw, rfl⟩ := hE
    exact h.take hw
  | unlock tid l =>
    obtain ⟨rfl, hk⟩ := hm
    cases hE
    exact h.release hk
  | change tid op =>
    obtain ⟨rfl, hk⟩ := hm
    cases hE
    exact h.change hk
  | initLock sb =>
    cases hE
    exact h.initLock hcare
  | setIsloop sb =>
    cases hE
    exact h.setIsloop hcare
  | dLruEmpty d | lruPrev sb | listPrev list =>
    obtain ⟨-, rfl⟩ := hE
    exact h
  | dPrune d | kill d | query q | junk | typeMount =>
    cases hE
    exact h
  | bug | spin => cases x

end

/-! ### What the others leave -/

theorem DlruRely.refl (k : Nat) (s : Dcache) : DlruRely k s s :=
  ⟨rfl, fun _ => Iff.rfl⟩

theorem DlruRely.trans {u : Dcache} (h : DlruRely k s t) (h' : DlruRely k t u) : DlruRely k s u :=
  ⟨h'.frames.trans h.frames, fun l => (h'.holds l).trans (h.holds l)⟩

/-- The holders of a lock, but for another thread. -/
theorem rely_holders {hs : List Nat} {b : Bool} (hhs : k ∈ hs ↔ k ∈ s.holders l) :
    DlruRely k s { s with
      word := update s.word l b
      holders := update s.holders l hs } where
  frames := rfl
  holds m := by
    show k ∈ update s.holders l hs m ↔ _
    by_cases hm : m = l
    · rw [hm, update_self]
      exact hhs
    · rw [update_of_ne hm]

theorem rely_frames {fs : List (Nat × Lock)} (hne : k ≠ tid) :
    DlruRely k s { s with frames := update s.frames tid fs } :=
  ⟨update_of_ne hne .., fun _ => Iff.rfl⟩

theorem DlruRely.bear {q : DlruReq} {x : q.Ans} {j : Nat} (hne : j ≠ k)
    (hm : DlruMay D j q s) (hE : dlruEnv D q s x t) : DlruRely k s t := by
  cases q with
  | getDlru tid sb d =>
    cases hm
    obtain ⟨-, rfl⟩ := hE
    exact rely_frames hne.symm
  | ret tid =>
    cases hm
    cases hE
    exact rely_frames hne.symm
  | lock tid l =>
    cases hm
    obtain ⟨-, rfl⟩ := hE
    refine rely_holders ?_
    rw [mem_cons]
    exact or_iff_right hne.symm
  | unlock tid l =>
    obtain ⟨rfl, -⟩ := hm
    cases hE
    exact rely_holders (mem_erase_of_ne hne.symm)
  | change tid op =>
    cases hE
    obtain ⟨-, -, hholders, hframes⟩ := change_rest (D := D) s tid op
    refine ⟨congrFun hframes k, fun l => ?_⟩
    rw [hholders]
  | initLock sb | setIsloop sb =>
    cases hE
    exact ⟨rfl, fun _ => Iff.rfl⟩
  | dLruEmpty d | lruPrev sb | listPrev list =>
    obtain ⟨-, rfl⟩ := hE
    exact .refl k _
  | dPrune d | kill d | query q | junk | typeMount =>
    cases hE
    exact .refl k _
  | bug | spin => cases x

theorem dlru_lawful (D : Dentries) :
    (dlruContract D).Lawful (carefulEnv D) (fun i j : Nat => i ≠ j) where
  refl := DlruRely.refl
  trans := DlruRely.trans
  keep hi hm hE := hi.keep hm hE
  bear hne _ hm hE := .bear hne hm hE.2

end Laws

/-! ## The code keeps to it -/

section Rules

variable {D : Dentries} {tid sb : Nat} {l : Lock} {fs : List (Nat × Lock)}
  {H : List Lock} {α : Type}

/-- The local variables of a thread, and the locks it holds. -/
structure At (tid : Nat) (fs : List (Nat × Lock)) (H : List Lock)
    (s : Dcache) : Prop where
  frames : s.frames tid = fs
  holds : ∀ l, tid ∈ s.holders l ↔ l ∈ H

/-- From `P` on the thread keeps to the contract, and returns in `Q`. -/
abbrev Does (D : Dentries) (tid : Nat) (P : Dcache → Prop) (p : DlruCode α)
    (Q : α → Dcache → Prop) : Prop :=
  (dlruContract D).Triple (carefulEnv D) tid P p Q

theorem at_stable (tid : Nat) (fs : List (Nat × Lock)) (H : List Lock) :
    (dlruContract D).Stable tid (At tid fs H) :=
  fun hr h => ⟨hr.frames.trans h.frames, fun l => (hr.holds l).trans (h.holds l)⟩

theorem Does.bind {β : Type} {P : Dcache → Prop} {p : DlruCode α}
    {f : α → DlruCode β} {Q : α → Dcache → Prop} {R : β → Dcache → Prop}
    (hp : Does D tid P p Q) (hf : ∀ a, Does D tid (Q a) (f a) R) :
    Does D tid P (p >>= f) R := Contract.Triple.bind (dlru_lawful D) hp hf

theorem does_return (a : α) : Does D tid (At tid fs H) (pure a) (fun _ => At tid fs H) :=
  .ret (at_stable tid fs H) fun _ _ h => h

/-- One request. -/
theorem does_step {q : DlruReq} {fs' : q.Ans → List (Nat × Lock)} {H' : List Lock}
    (hm : ∀ s, DlruInv s → At tid fs H s → DlruMay D tid q s)
    (hs : ∀ s x t, DlruInv s → At tid fs H s → dlruEnv D q s x t → At tid (fs' x) H' t) :
    Does D tid (At tid fs H) (perform (S := DlruSig) q) (fun x => At tid (fs' x) H') :=
  Contract.Triple.perform (dlru_lawful D) (at_stable tid fs H) hm
    (fun s x t hi h hE => hs s x t hi h hE.2)
    fun x => .ret (at_stable tid (fs' x) H') fun _ _ h => h

/-- A request that changes nothing. -/
theorem does_quiet {q : DlruReq} (hm : ∀ s, DlruMay D tid q s)
    (hs : ∀ {s x t}, dlruEnv D q s x t → t = s) :
    Does D tid (At tid fs H) (perform (S := DlruSig) q) (fun _ => At tid fs H) :=
  does_step (fun s _ _ => hm s) fun s x t _ h hE => by
    rw [hs hE]
    exact h

theorem does_query (q : Query) : Does D tid (At tid fs H) (query q) (fun _ => At tid fs H) :=
  does_quiet (fun _ => trivial) fun h => h

theorem does_dLruEmpty (d : Nat) : Does D tid (At tid fs H) (dLruEmpty d) (fun _ => At tid fs H) :=
  does_quiet (fun _ => trivial) fun h => h.2

theorem does_lruPrev (sb : Nat) : Does D tid (At tid fs H) (lruPrev sb) (fun _ => At tid fs H) :=
  does_quiet (fun _ => trivial) fun h => h.2

theorem does_listPrev (list : ListId) :
    Does D tid (At tid fs H) (listPrev list) (fun _ => At tid fs H) :=
  does_quiet (fun _ => trivial) fun h => h.2

theorem does_getDlru (sb d : Nat) :
    Does D tid (At tid fs H) (getDlru tid sb d) (fun l => At tid ((sb, l) :: fs) H) := by
  refine does_step (fun _ _ _ => rfl) fun s x t _ h hE => ?_
  obtain ⟨-, rfl⟩ := hE
  refine ⟨?_, h.holds⟩
  show update s.frames tid _ tid = _
  rw [update_self, h.frames]

theorem does_ret {f : Nat × Lock} :
    Does D tid (At tid (f :: fs) H) (ret tid) (fun _ => At tid fs H) := by
  refine does_step (fun _ _ _ => rfl) fun s x t _ h hE => ?_
  cases hE
  refine ⟨?_, h.holds⟩
  show update s.frames tid _ tid = _
  rw [update_self, h.frames]
  rfl

theorem does_lock (l : Lock) :
    Does D tid (At tid fs H) (lock tid l) (fun _ => At tid fs (l :: H)) := by
  refine does_step (fun _ _ _ => rfl) fun s x t _ h hE => ?_
  obtain ⟨-, rfl⟩ := hE
  refine ⟨h.frames, fun m => ?_⟩
  show tid ∈ update s.holders l _ m ↔ _
  by_cases hm : m = l
  · subst hm
    simp
  · rw [update_of_ne hm, h.holds m, mem_cons]
    exact (or_iff_right hm).symm

theorem does_unlock (l : Lock) :
    Does D tid (At tid fs [l]) (unlock tid l) (fun _ => At tid fs []) := by
  have hholds : ∀ {s}, At tid fs [l] s → tid ∈ s.holders l :=
    fun h => (h.holds l).mpr (mem_singleton.mpr rfl)
  refine does_step (fun s _ h => ⟨rfl, hholds h⟩) fun s x t hi h hE => ?_
  cases hE
  refine ⟨h.frames, fun m => ?_⟩
  show tid ∈ update s.holders l _ m ↔ _
  by_cases hm : m = l
  · subst hm
    rw [update_self, hi.holders_eq (hholds h), erase_cons_head]
    exact iff_of_false not_mem_nil not_mem_nil
  · rw [update_of_ne hm, h.holds m]
    simp [hm]

/-- The lock that is held is that of the superblock: the variable was set for it
    and nothing has changed since. -/
theorem does_change (op : ListOp) (hf : (op.sb D, l) ∈ fs) :
    Does D tid (At tid fs [l]) (change tid op) (fun _ => At tid fs [l]) := by
  refine does_step (fun s hi h => ⟨rfl, ?_⟩) fun s x t _ h hE => ?_
  · have hlock : l = s.lockOf (op.sb D) :=
      hi.frames tid (op.sb D, l) (h.frames ▸ hf)
    rw [← hlock, h.holds l]
    exact mem_singleton.mpr rfl
  · cases hE
    obtain ⟨-, -, hholders, hframes⟩ := change_rest (D := D) s tid op
    refine ⟨(congrFun hframes tid).trans h.frames, fun m => ?_⟩
    rw [hholders]
    exact h.holds m

end Rules

/-! ### One function after the other -/

section Functions

variable {D : Dentries} {tid : Nat} {fs : List (Nat × Lock)}

/-- Code that needs no lock when it is entered and holds none when it returns. -/
def Tidy (D : Dentries) (tid : Nat) (p : DlruCode Unit) : Prop :=
  ∀ fs, Does D tid (At tid fs []) p (fun _ => At tid fs [])

/-- The list is changed under the lock, and the function returns. -/
theorem does_underLock {l : Lock} {f : Nat × Lock} (op : ListOp) (hf : (op.sb D, l) ∈ f :: fs) :
    Does D tid (At tid (f :: fs) []) (do lock tid l; change tid op; unlock tid l; ret tid)
      (fun _ => At tid fs []) :=
  (does_lock l).bind fun _ => (does_change op hf).bind fun _ =>
    (does_unlock l).bind fun _ => does_ret

theorem tidy_dentryLruAdd (d : Nat) : Tidy D tid (dentryLruAdd D tid d) := by
  intro fs
  refine (does_getDlru (D.sbOf d) d).bind fun l =>
    (does_dLruEmpty d).bind fun b => ?_
  cases b with
  | false => exact does_ret
  | true => exact does_underLock (.add d) (.head _)

theorem tidy_dentryLruDel (d : Nat) : Tidy D tid (dentryLruDel D tid d) := by
  intro fs
  refine (does_getDlru (D.sbOf d) d).bind fun l =>
    (does_dLruEmpty d).bind fun b => ?_
  cases b with
  | false => exact does_underLock (.del d) (.head _)
  | true => exact does_ret

theorem tidy_dentryLruPrune (d : Nat) : Tidy D tid (dentryLruPrune D tid d) := by
  intro fs
  refine (does_getDlru (D.sbOf d) d).bind fun l =>
    (does_dLruEmpty d).bind fun b => ?_
  cases b with
  | true => exact does_ret
  | false =>
    refine (does_query (.opPrune d)).bind fun b => ?_
    have hdel : Does D tid (At tid ((D.sbOf d, l) :: fs) [])
        (do lock tid l; change tid (.del d); unlock tid l; ret tid)
        (fun _ => At tid fs []) := does_underLock _ (.head _)
    cases b with
    | false => exact hdel
    | true =>
      have hprune : Does D tid (At tid ((D.sbOf d, l) :: fs) []) (dPrune d)
          (fun _ => At tid ((D.sbOf d, l) :: fs) []) :=
        does_quiet (fun _ => trivial) fun h => h
      exact hprune.bind fun _ => hdel

theorem tidy_dentryLruMoveList (d : Nat) (list : ListId) :
    Tidy D tid (dentryLruMoveList D tid d list) := by
  intro fs
  refine (does_getDlru (D.sbOf d) d).bind fun l =>
    (does_lock l).bind fun _ => (does_dLruEmpty d).bind fun b => ?_
  cases b with
  | true =>
    exact (does_change (.addTail d list) (.head _)).bind
      fun _ => (does_unlock l).bind fun _ => does_ret
  | false =>
    exact (does_change (.moveTail d list) (.head _)).bind
      fun _ => (does_unlock l).bind fun _ => does_ret

theorem tidy_dentryKills (ds : List Nat) : Tidy D tid (dentryKills D tid ds) := by
  intro fs
  induction ds with
  | nil => exact does_return ()
  | cons d ds ih => exact (tidy_dentryLruPrune d fs).bind fun _ => ih

theorem does_spin {α : Type} {P : Dcache → Prop} {Q : α → Dcache → Prop} : Does D tid P spin Q :=
  fun _ _ _ _ _ _ => ⟨trivial, nofun⟩

theorem does_bug {α : Type} {P : Dcache → Prop} {Q : α → Dcache → Prop} : Does D tid P bug Q :=
  fun _ _ _ _ _ _ => ⟨trivial, nofun⟩

theorem tidy_shrinkDentryList (list : ListId) (rounds : Nat) :
    Tidy D tid (shrinkDentryList D tid list rounds) := by
  intro fs
  induction rounds with
  | zero => exact does_spin
  | succ rounds ih =>
    refine (does_listPrev list).bind fun prev => ?_
    cases prev with
    | none => exact does_return ()
    | some d =>
      refine (does_query (.stillLast d)).bind fun b => ?_
      cases b with
      | false => exact ih
      | true =>
        refine (does_query (.inUse d)).bind fun b => ?_
        cases b with
        | true => exact (tidy_dentryLruDel d fs).bind fun _ => ih
        | false =>
          have hkill : Does D tid (At tid fs []) (kill d) (fun _ => At tid fs []) :=
            does_quiet (fun _ => trivial) fun h => h
          exact hkill.bind fun ds =>
            (tidy_dentryKills ds fs).bind fun _ => ih

/-- Code that is entered with the lock of the superblock in its variable, and leaves it so. -/
def Locked (D : Dentries) (tid sb : Nat) (l : Lock) (p : DlruCode Unit) : Prop :=
  ∀ fs, Does D tid (At tid ((sb, l) :: fs) [l]) p (fun _ => At tid ((sb, l) :: fs) [l])

theorem locked_relock (sb : Nat) (l : Lock) : Locked D tid sb l (do unlock tid l; lock tid l) :=
  fun _ => (does_unlock l).bind fun _ => does_lock l

theorem locked_condReschedLock (sb : Nat) (l : Lock) :
    Locked D tid sb l (condReschedLock tid l) := by
  intro fs
  refine (does_query .resched).bind fun b => ?_
  cases b with
  | false => exact does_return ()
  | true => exact locked_relock sb l fs

theorem locked_pruneLoop (sb : Nat) (l : Lock) (rounds : Nat) (count : Int) :
    Locked D tid sb l (pruneLoop D tid sb l rounds count) := by
  intro fs
  induction rounds generalizing count with
  | zero => exact does_spin
  | succ rounds ih =>
    refine (does_lruPrev sb).bind fun prev => ?_
    cases prev with
    | none => exact does_return ()
    | some d =>
      by_cases hd : D.sbOf d = sb
      · show Does D tid _ (if D.sbOf d ≠ sb then _ else _) _
        rw [if_neg (not_not.mpr hd)]
        have hf : (D.sbOf d, l) ∈ (sb, l) :: fs := hd ▸ (.head _) ..
        refine (does_query (.trylock d)).bind fun b => ?_
        cases b with
        | false =>
          exact (does_unlock l).bind fun _ => (does_lock l).bind fun _ =>
            ih count
        | true =>
          refine (does_query (.referenced d)).bind fun b => ?_
          cases b with
          | true =>
            exact (does_change (.move d _) hf).bind fun _ =>
              (locked_condReschedLock sb l fs).bind fun _ => ih count
          | false =>
            refine (does_change (.moveTail d _) hf).bind fun _ => ?_
            split
            · exact does_return ()
            · exact (locked_condReschedLock sb l fs).bind fun _ => ih _
      · show Does D tid _ (if D.sbOf d ≠ sb then _ else _) _
        rw [if_pos hd]
        exact does_bug

theorem tidy_pruneDcacheSb (sb : Nat) (count : Int) (rounds : Nat) :
    Tidy D tid (pruneDcacheSb D tid sb count rounds) := by
  intro fs
  have hjunk : Does D tid (At tid fs []) junk (fun _ => At tid fs []) :=
    does_quiet (fun _ => trivial) fun h => h
  refine hjunk.bind fun d => (does_getDlru sb d).bind fun l =>
    (does_lock l).bind fun _ => (locked_pruneLoop sb l rounds count fs).bind
      fun _ => (does_listPrev _).bind fun prev => ?_
  have hrest : Does D tid (At tid ((sb, l) :: fs) [l])
      (do unlock tid l; shrinkDentryList D tid (tmp tid) rounds; ret tid)
      (fun _ => At tid fs []) :=
    (does_unlock l).bind fun _ => (tidy_shrinkDentryList _ rounds _).bind fun _ => does_ret
  cases prev with
  | none => exact hrest
  | some d =>
    exact (does_change (.splice _ sb) (.head _)).bind fun _ => hrest

theorem locked_shrinkLoop (sb : Nat) (l : Lock) (rounds : Nat) :
    Locked D tid sb l (shrinkLoop D tid sb l rounds) := by
  intro fs
  induction rounds with
  | zero => exact does_spin
  | succ rounds ih =>
    refine (does_lruPrev sb).bind fun prev => ?_
    cases prev with
    | none => exact does_return ()
    | some d =>
      exact (does_change (.spliceInit sb _) (.head _)).bind fun _ => (does_unlock l).bind fun _ =>
          (tidy_shrinkDentryList _ rounds _).bind fun _ =>
            (does_lock l).bind fun _ => ih

theorem tidy_shrinkDcacheSb (sb rounds : Nat) : Tidy D tid (shrinkDcacheSb D tid sb rounds) := by
  intro fs
  exact (does_getDlru sb (D.rootOf sb)).bind fun l =>
    (does_lock l).bind fun _ => (locked_shrinkLoop sb l rounds fs).bind
      fun _ => (does_unlock l).bind fun _ => does_ret

theorem tidy_mountFs (name : Option String) : Tidy D tid (mountFs name) := by
  intro fs
  have hmount : Does D tid (At tid fs []) typeMount (fun _ => At tid fs []) :=
    does_quiet (fun _ => trivial) fun h => h
  refine hmount.bind fun root => ?_
  cases root with
  | none => exact does_return ()
  | some sb =>
    show Does D tid _ (if loopName name = true then _ else _) _
    split
    · have hinit : Does D tid (At tid fs []) (initLock sb) (fun _ => At tid fs []) := by
        refine does_step (fun _ _ _ => trivial) fun s x t _ h hE => ?_
        cases hE
        exact ⟨h.frames, h.holds⟩
      have hset : Does D tid (At tid fs []) (setIsloop sb) (fun _ => At tid fs []) := by
        refine does_step (fun _ _ _ => trivial) fun s x t _ h hE => ?_
        cases hE
        exact ⟨h.frames, h.holds⟩
      exact hinit.bind fun _ => hset
    · exact does_return ()

theorem tidy_code (k : Task) : Tidy D tid (k.code D tid) := by
  cases k with
  | add d => exact tidy_dentryLruAdd d
  | del d => exact tidy_dentryLruDel d
  | prune d => exact tidy_dentryLruPrune d
  | moveList d list => exact tidy_dentryLruMoveList d list
  | pruneSb sb count rounds => exact tidy_pruneDcacheSb sb count rounds
  | shrinkSb sb rounds => exact tidy_shrinkDcacheSb sb rounds
  | mount name => exact tidy_mountFs name

end Functions

/-! ## The result -/

theorem Booted.inv {s : Dcache} (h : Booted s) : DlruInv s where
  one l := by
    rw [h.holders l]
    exact Nat.zero_le 1
  free l _ := h.holders l
  frames tid f hf := by
    rw [h.frames tid] at hf
    cases hf
  log c hc := by
    rw [h.log] at hc
    cases hc

theorem dlru_fits (D : Dentries) : (dlruContract D).Fits (dlruMachine D (carefulEnv D)) Booted where
  lawful := dlru_lawful D
  symm := fun h => h.symm
  init := Booted.inv
  starts := by
    rintro ⟨tid, p⟩ s hi ⟨⟨k, hk⟩, hframes, hholders⟩
    have hk : p = k.code D tid := hk
    subst hk
    have hat : At tid [] [] s :=
      ⟨hframes, fun l => iff_of_false (hholders l) not_mem_nil⟩
    exact (tidy_code k [] s hi hat).post fun _ _ _ _ => trivial
  drifts _ h := h.elim
  boots _ h := h.elim

/-- In every run whose steps are careful, the lists are changed under their
    locks and every lock has one holder. -/
theorem careful_oneLock {D : Dentries} {c : Config DlruSig Dcache Nat Unit}
    (hc : (dlruMachine D (carefulEnv D)).Runs Booted c) : OneLock c.state := by
  have hi : DlruInv c.state := (dlru_fits D).inv hc
  exact ⟨hi.log, hi.one⟩

/-! ## Two superblocks -/

/-- Ten dentries for each superblock. -/
def tens : Dentries where
  sbOf d := d / 10
  rootOf sb := sb * 10
  root_sb sb := Nat.mul_div_cancel sb (by decide)

def blank : Dcache where
  isloop _ := false
  word _ := false
  holders _ := []
  lru _ := []
  lists _ := []
  linked _ := false
  nrDentryUnused _ := 0
  nrUnused := 0
  frames _ := []
  log := []

theorem blank_booted : Booted blank :=
  ⟨fun _ => rfl, fun _ => rfl, fun _ => rfl, rfl⟩

/-- A mount from a loop device, and a dentry of it: the list is changed under
    the lock of the superblock. -/
theorem mounted_oneLock : ∃ c, (dlruMachine tens (carefulEnv tens)).Runs Booted c
      ∧ c.state.log.map (·.held (.own 2)) = [true] ∧ OneLock c.state := by
  have hblank : (dlruMachine tens (carefulEnv tens)).Runs Booted (.idle blank) :=
    .init blank_booted
  have hstart : ∀ (s : Dcache) (k : Task), s.frames 0 = [] →
      (∀ l, s.holders l = []) → (dlruMachine tens (carefulEnv tens)).starts
        ⟨0, k.code tens 0⟩ s := by
    intro s k hframes hfree
    refine ⟨⟨k, rfl⟩, hframes, fun l hl => ?_⟩
    rw [hfree l] at hl
    exact nomatch hl
  have hmount := hblank.alone (hstart blank (.mount (some "/dev/loop0")) rfl fun _ => rfl)
    (a := ())
    ⟨some 2, _, ⟨trivial, rfl⟩, (), _, ⟨rfl, rfl⟩, (), _,
      ⟨Or.inr ⟨nofun, nofun⟩, rfl⟩, rfl, rfl⟩
  have hadd := hmount.alone (hstart _ (.add 20) rfl fun _ => rfl) (a := ())
    ⟨_, _, ⟨rfl, rfl, rfl⟩, true, _, ⟨trivial, rfl, rfl⟩, (), _,
      ⟨trivial, rfl, rfl⟩, (), _, ⟨trivial, rfl⟩, (), _, ⟨trivial, rfl⟩, (), _,
      ⟨trivial, rfl⟩, rfl, rfl⟩
  exact ⟨_, hadd, rfl, careful_oneLock hadd⟩

/-- Answers for a run: what is mounted, what the uninitialised variable points
    at, and dentries that are in use. -/
def dlruHandler (D : Dentries) (root : Option Nat) (junk : Nat) : Handler DlruSig Dcache
  | .getDlru tid sb d, s =>
    some (s.lockOf (D.sbOf d), s.push tid (sb, s.lockOf (D.sbOf d)))
  | .ret tid, s => some ((), s.pop tid)
  | .lock tid l, s => if s.word l then none else some ((), s.take tid l)
  | .unlock tid l, s => some ((), s.release tid l)
  | .change tid op, s => some ((), s.change D tid op)
  | .dLruEmpty d, s => some (!s.linked d, s)
  | .lruPrev sb, s => some ((s.lru sb).getLast?, s)
  | .listPrev list, s => some ((s.lists list).getLast?, s)
  | .initLock sb, s =>
    some ((), { s with word := update s.word (.own sb) false })
  | .setIsloop sb, s =>
    some ((), { s with isloop := update s.isloop sb true })
  | .query (.trylock _), s | .query (.inUse _), s | .query (.stillLast _), s =>
    some (true, s)
  | .query _, s => some (false, s)
  | .junk, s => some (junk, s)
  | .typeMount, s => some (root, s)
  | .dPrune _, s => some ((), s)
  | .kill _, s => some ([], s)
  | .bug, _ | .spin, _ => none

theorem dlruHandler_env {D : Dentries} {root : Option Nat} {junk : Nat} {q : DlruReq} {s t : Dcache}
    {x : q.Ans} (h : (dlruHandler D root junk).env q s x t) : dlruEnv D q s x t := by
  cases q with
  | lock tid l =>
    have h' : (if s.word l then none else some ((), s.take tid l)) = some (x, t) := h
    split at h'
    · cases h'
    · next hw =>
      exact ⟨(Bool.not_eq_true _).mp hw, (answer_inj h').2.symm⟩
  | query q =>
    cases q <;> exact (answer_inj h).2.symm
  | bug | spin => cases x
  | getDlru tid sb d =>
    cases h
    exact ⟨rfl, rfl⟩
  | dLruEmpty d | lruPrev sb | listPrev list =>
    cases h
    exact ⟨rfl, rfl⟩
  | _ => exact (answer_inj h).2.symm

/-- A thread that runs alone, where no lock is held. -/
theorem runs_alone {D : Dentries} {s t : Dcache}
    (h : (dlruMachine D (dlruEnv D)).Runs Booted (.idle s)) (root : Option Nat) (junk tid : Nat)
    (k : Task) (hframes : s.frames tid = []) (hfree : ∀ l, s.holders l = [])
    (hrun : run (dlruHandler D root junk) (k.code D tid) s = some ((), t)) :
    (dlruMachine D (dlruEnv D)).Runs Booted (.idle t) := by
  have hstart : (dlruMachine D (dlruEnv D)).starts ⟨tid, k.code D tid⟩ s := by
    refine ⟨⟨k, rfl⟩, hframes, fun l hl => ?_⟩
    rw [hfree l] at hl
    cases hl
  exact h.alone hstart ((outcome_env.mpr hrun).widen fun _ _ _ _ hq => dlruHandler_env hq)

/-- The list of the superblock 1 is pruned with a dentry of the superblock 2 in
    the variable: it is changed under the lock of the superblock 2. -/
theorem prune_wrong_lock : ∃ c, (dlruMachine tens (dlruEnv tens)).Runs Booted c
      ∧ ¬ ∀ e ∈ c.state.log, e.held (c.state.lockOf e.sb) = true := by
  have hblank : (dlruMachine tens (dlruEnv tens)).Runs Booted (.idle blank) :=
    .init blank_booted
  have hmount := runs_alone hblank (some 2) 0 0 (.mount (some "/dev/loop0")) rfl (fun _ => rfl) rfl
  have hadd := runs_alone hmount none 0 0 (.add 10) rfl (fun _ => rfl) rfl
  have hprune := runs_alone hadd none 20 0 (.pruneSb 1 1 3) rfl (fun l => by cases l <;> rfl) rfl
  refine ⟨_, hprune, fun h => ?_⟩
  have hheld := h _ (.head _)
  exact absurd hheld (by decide)

/-- A thread starts in a free place and goes on for some requests. -/
theorem runs_start {D : Dentries} {c : Config DlruSig Dcache Nat Unit} {t : Dcache}
    {p : DlruCode Unit} (h : (dlruMachine D (dlruEnv D)).Runs Booted c) (root : Option Nat)
    (i : Nat) (k : Task) (n : Nat) (hi : c.pool i = none) (hown : ∀ j, c.Owns j → i ≠ j)
    (hframes : c.state.frames i = []) (hholds : ∀ l, i ∉ c.state.holders l)
    (hgo : Machine.goOn (dlruHandler D root 0) n (k.code D i) c.state = some (p, t)) :
    (dlruMachine D (dlruEnv D)).Runs Booted (c.put t i (some ⟨i, p⟩)) := by
  have hstart := h.step (.start (w := ⟨i, k.code D i⟩) hi hown ⟨⟨k, rfl⟩, hframes, hholds⟩)
  have hrun := hstart.goOn dlruHandler_env Config.put_pool hgo
  rwa [Config.put_put] at hrun

/-- The superblock 2 is mounted once more while a thread holds its lock, and the
    next thread takes it too. -/
theorem remount_two_holders : ∃ c, (dlruMachine tens (dlruEnv tens)).Runs Booted c
      ∧ ¬ ∀ l, (c.state.holders l).length ≤ 1 := by
  have hblank : (dlruMachine tens (dlruEnv tens)).Runs Booted (.idle blank) :=
    .init blank_booted
  have hmount := runs_alone hblank (some 2) 0 0 (.mount (some "/dev/loop0")) rfl (fun _ => rfl) rfl
  -- the first thread takes the lock
  have hfirst := runs_start hmount none 0 (.add 20) 3 rfl
    (fun _ h => (Config.not_owns_idle h).elim) rfl (fun _ => nofun) rfl
  have hholders : ∀ {i} l, i ≠ 0 → i ∉ update (fun _ => []) (Lock.own 2) [0] l := by
    intro i l hi
    rw [update_apply]
    split
    · exact fun h => hi (mem_singleton.mp h)
    · exact not_mem_nil
  -- the mount makes it free
  have hagain := runs_start hfirst (some 2) 1 (.mount (some "/dev/loop0")) 3 rfl (fun j h => by
      rcases h.of_put with rfl | h
      · decide
      · exact (Config.not_owns_idle h).elim)
    rfl (fun l => hholders l (by decide)) rfl
  -- and the next one takes it
  have hsecond := runs_start hagain none 2 (.add 21) 3 rfl (fun j h => by
      rcases h.of_put with rfl | h
      · decide
      rcases h.of_put with rfl | h
      · decide
      · exact (Config.not_owns_idle h).elim)
    rfl (fun l => hholders l (by decide)) rfl
  refine ⟨_, hsecond, fun h => ?_⟩
  exact absurd (h (.own 2)) (by decide)

/-- Both halves of the property fail: a list is changed under another lock, and
    a lock has two holders. -/
theorem oneLock_fails : (∃ c, (dlruMachine tens (dlruEnv tens)).Runs Booted c
      ∧ ¬ ∀ e ∈ c.state.log, e.held (c.state.lockOf e.sb) = true)
    ∧ (∃ c, (dlruMachine tens (dlruEnv tens)).Runs Booted c
      ∧ ¬ ∀ l, (c.state.holders l).length ≤ 1)
    ∧ ∃ c, (dlruMachine tens (dlruEnv tens)).Runs Booted c ∧ ¬ OneLock c.state := by
  obtain ⟨c, hc, hheld⟩ := prune_wrong_lock
  exact ⟨prune_wrong_lock, remount_two_holders, c, hc, fun h => hheld h.held⟩

end DentryLru
