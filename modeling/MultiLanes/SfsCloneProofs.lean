import MultiLanes.SfsBranchProofs
import Mathlib.Data.List.Infix

/-! # Branch cloning — the two walks of `sfs_clone_branch`

`sfs_clone_branch` makes the path of an SFS directory in one partition.  An upward walk
goes from the directory to the nearest ancestor whose replica is there and puts the
dentries it passes on a list, the topmost first; a downward walk takes them from the
list, looks each one up or makes it, and carries the replica it is in along.  Both walks
are modelled with all their errors (memory, lookup, mkdir) and with the modes of the new
directories.

The two walks are one recursion over the path (`climb_spec`): what lies between them is
a list that the second undoes.  One step of the recursion says what a node can do
(`cloneNode_spec`), and an induction over the path what the whole branch becomes
(`way_spec`).  The replica is what is returned when the directory's own dentry had none,
which is what the only caller sees to: with an empty list the downward walk has nothing
to return but `-EIO`.  The recursion is also what the code of SFS as a whole is modelled by
(`sfsCloneBranch_agrees`). -/

namespace SfsClone

open InteractProg Sfs Function List Option

/-- See `Sfs.enoent`. -/
def enomem : Int := -12

/-- A call of the walks to the kernel or to the partition, with the error that
    came back (`0`: none). -/
inductive Event
  | kmalloc (err : Int)
  | lookup (x : Path) (err : Int)
  | mkdir (x : Path) (mode : Nat) (err : Int)
deriving DecidableEq

def Event.err : Event → Int
  | .kmalloc err => err
  | .lookup _ err => err
  | .mkdir _ _ err => err

/-- The directory that a `mkdir` is about, and its mode. -/
def Event.wanted : Event → Option (Path × Nat)
  | .mkdir x mode _ => some (x, mode)
  | _ => none

/-- What fails.  Each call is made at most once for a path, so a function of the
    path is every way the calls can turn out. -/
structure Faults where
  kmalloc : Path → Bool
  lookup : Path → Int
  mkdir : Path → Int

/-- One partition as SFS sees it: `replicas[p]` of the SFS dentries, the
    directories on its disk with their modes, and the calls made so far. -/
structure Branch where
  slot : Path → Option Replica
  dir : Path → Option Nat
  log : List Event

def Branch.noted (b : Branch) (ev : Event) : Branch :=
  { b with log := b.log ++ [ev] }

/-- `d_add_replica`. -/
def Branch.setSlot (b : Branch) (x : Path) (r : Replica) : Branch :=
  { b with slot := update b.slot x (some r) }

def Branch.setDir (b : Branch) (x : Path) (mode : Nat) : Branch :=
  { b with dir := update b.dir x (some mode) }

/-- The dentry has a replica, and the replica an inode. -/
def Branch.positive (b : Branch) (x : Path) : Bool :=
  match b.slot x with
  | some r => r.inode.isSome
  | none => false

/-! ## The two walks -/

/-- The upward walk: the replica it stops at and the list it has built.  It
    never ends when the root has no replica, whose parent is the root. -/
def climb (f : Faults) : Path → List Path → Branch →
    Option (Except Int (Replica × List Path) × Branch)
  | [], nodes, b =>
    if f.kmalloc [] then some (.error enomem, b.noted (.kmalloc enomem))
    else
      match b.slot [] with
      | some ⟨y, some i⟩ =>
        some (.ok (⟨y, some i⟩, nodes), b.noted (.kmalloc 0))
      | _ => none
  | a :: A, nodes, b =>
    if f.kmalloc (a :: A) then
      some (.error enomem, b.noted (.kmalloc enomem))
    else
      match b.slot (a :: A) with
      | some ⟨y, some i⟩ =>
        some (.ok (⟨y, some i⟩, nodes), b.noted (.kmalloc 0))
      -- a null slot and a negative one are both put on the list; the test
      -- for `s_data_root` after the second never holds in the SFS tree
      | _ => climb f A ((a :: A) :: nodes) (b.noted (.kmalloc 0))

/-- `get_replica_dentry`: the slot, also a negative one, or else a lookup in the
    replica of the parent. -/
def getReplicaDentry (f : Faults) (replicaParent : Replica) (x : Path)
    (b : Branch) : Except Int Replica × Branch :=
  match b.slot x with
  | some r => (.ok r, b)
  | none =>
    let y := x.headD 0 :: replicaParent.path
    let b := b.noted (.lookup y (f.lookup y))
    if f.lookup y ≠ 0 then (.error (f.lookup y), b)
    else
      let r : Replica := ⟨y, (b.dir y).map fun _ => .dir⟩
      (.ok r, b.setSlot x r)

/-- `dir->i_op->mkdir`: the error, and on success the directory and the inode of its dentry. -/
def replicaMkdir (f : Faults) (dir : Replica) (x : Path) (r : Replica)
    (mode : Nat) (b : Branch) : Int × Branch :=
  let y := x.headD 0 :: dir.path
  let err := if (b.dir y).isSome then eexist else f.mkdir y
  let b := b.noted (.mkdir y mode err)
  if err ≠ 0 then (err, b)
  else (0, (b.setDir y mode).setSlot x { r with inode := some .dir })

/-- The second half of the body: `r` is made in the replica `tmp`. -/
def makeNode (f : Faults) (tmp : Replica) (x : Path) (r : Replica) (mode : Nat)
    (b : Branch) : Except Int Replica × Branch :=
  match replicaMkdir f tmp x r mode b with
  | (err, b) =>
    if err ≠ 0 then (.error err, b)
    else (.ok { r with inode := some .dir }, b)

/-- The body of the downward walk, in the replica `tmp`. -/
def cloneNode (f : Faults) (mode : Path → Nat) (tmp : Replica) (x : Path)
    (b : Branch) : Except Int Replica × Branch :=
  match getReplicaDentry f tmp x b with
  | (.error err, b) => (.error err, b)
  | (.ok r, b) =>
    if r.inode.isSome then (.ok r, b)
    else makeNode f tmp x r (mode x) b

/-- Go on with the replica, or leave with the error. -/
def goOn (p : Except Int Replica × Branch) (k : Replica → Branch → Except Int Replica × Branch) :
    Except Int Replica × Branch :=
  match p with
  | (.error err, b) => (.error err, b)
  | (.ok r, b) => k r b

/-- The downward walk; `ret` is the variable `replica_dentry`. -/
def cloneDown (f : Faults) (mode : Path → Nat) : Replica →
    Except Int Replica → List Path → Branch → Except Int Replica × Branch
  | _, ret, [], b => (ret, b)
  | tmp, _, x :: nodes, b =>
    goOn (cloneNode f mode tmp x b) (fun r => cloneDown f mode r (.ok r) nodes)

/-- `sfs_clone_branch`, for the partition `b` and the modes of the SFS directories. -/
def sfsCloneBranch (f : Faults) (mode : Path → Nat) (x : Path) (b : Branch) :
    Option (Except Int Replica × Branch) :=
  match climb f x [] b with
  | none => none
  | some (.error err, b) => some (.error err, b)
  | some (.ok (found, nodes), b) =>
    some (cloneDown f mode found (.error eio) nodes b)

/-! ## What is asked of it -/

/-- A directory is there only with its parent. -/
def Closed (dir : Path → Option Nat) : Prop :=
  ∀ {a : Nat} {A : Path}, (dir (a :: A)).isSome → (dir A).isSome

/-- The slots are what a lookup would find, the root has its replica, and what
    is there is closed under parents. -/
structure Branch.Sound (b : Branch) : Prop where
  root : b.slot [] = some ⟨[], some .dir⟩
  slot : ∀ {x r}, b.slot x = some r → r = ⟨x, (b.dir x).map fun _ => .dir⟩
  closed : Closed b.dir

/-- The directories of the path of `x` that the partition lacks, parents first. -/
def missing (b : Branch) (x : Path) : List Path :=
  x.tails.reverse.filter (fun y => (b.dir y).isNone)

/-- The directories after those in `xs` were made. -/
def grown (mode : Path → Nat) (b : Branch) (xs : List Path) (y : Path) : Option Nat :=
  if y ∈ xs then some (mode y) else b.dir y

/-- `sfs_clone_branch` ends.  When no call that `counts` fails, it returns the replica of `x`
    and has made the missing directories of the path, in order and with their modes, and nothing
    else; when one fails, it returns that error and what is there is closed under parents. -/
def Clones (counts : Event → Prop) (f : Faults) (mode : Path → Nat) (b : Branch) (x : Path) :
    Prop :=
  ∃ ret b' evs, sfsCloneBranch f mode x b = some (ret, b') ∧ b'.log = b.log ++ evs
    ∧ ((∀ ev ∈ evs, counts ev → ev.err = 0) → ret = .ok ⟨x, some .dir⟩
          ∧ evs.filterMap Event.wanted = (missing b x).map (fun y => (y, mode y))
          ∧ b'.dir = grown mode b (missing b x))
    ∧ ∀ ev ∈ evs, counts ev → ev.err ≠ 0 → ret = .error ev.err ∧ Closed b'.dir

/-- Only a `mkdir` may fail. -/
def ClonesBranch : Faults → (Path → Nat) → Branch → Path → Prop :=
  Clones fun ev => ev.wanted.isSome

/-- So may a `kmalloc` and a lookup. -/
def ClonesOrStops : Faults → (Path → Nat) → Branch → Path → Prop := Clones fun _ => True

section Walks

variable {f : Faults} {mode : Path → Nat} {b b' c : Branch} {x A : Path} {a : Nat}

/-! ## The branch as it changes -/

@[simp] theorem noted_dir (b : Branch) (ev : Event) : (b.noted ev).dir = b.dir := rfl

@[simp] theorem setSlot_dir (b : Branch) (x : Path) (r : Replica) :
    (b.setSlot x r).dir = b.dir := rfl

theorem setSlot_self (b : Branch) (x : Path) (r : Replica) :
    (b.setSlot x r).slot x = some r := update_self ..

theorem setSlot_of_ne {y : Path} (h : y ≠ x) (b : Branch) (r : Replica) :
    (b.setSlot x r).slot y = b.slot y := update_of_ne h ..

theorem setDir_self (b : Branch) (x : Path) (m : Nat) :
    (b.setDir x m).dir x = some m := update_self ..

theorem setDir_of_ne {y : Path} (h : y ≠ x) (b : Branch) (m : Nat) :
    (b.setDir x m).dir y = b.dir y := update_of_ne h ..

/-- A slot with an inode is a directory that is there. -/
theorem Branch.Sound.there (h : b.Sound) (hx : b.positive x = true) :
    b.slot x = some ⟨x, some .dir⟩ ∧ (b.dir x).isSome := by
  rw [Branch.positive] at hx
  cases hr : b.slot x with
  | none =>
    rw [hr] at hx
    cases hx
  | some r =>
    rw [hr, h.slot hr] at hx
    have hd : (b.dir x).isSome := by simpa using hx
    obtain ⟨m, hm⟩ := isSome_iff_exists.mp hd
    exact ⟨by rw [h.slot hr, hm]; rfl, hd⟩

/-- A slot that is not positive is null, or negative with no directory. -/
theorem Branch.Sound.lacks (h : b.Sound) (hx : b.positive x = false) :
    b.slot x = none ∨ (b.slot x = some ⟨x, none⟩ ∧ b.dir x = none) := by
  cases hr : b.slot x with
  | none => exact .inl rfl
  | some r =>
    rw [Branch.positive, hr, h.slot hr] at hx
    have hd : b.dir x = none := by simpa using hx
    exact .inr ⟨by rw [h.slot hr, hd]; rfl, hd⟩

theorem Branch.Sound.noted (h : b.Sound) (ev : Event) : (b.noted ev).Sound :=
  ⟨h.root, h.slot, h.closed⟩

/-- A lookup stores what is there. -/
theorem Branch.Sound.setSlot (h : b.Sound) (hx : b.slot x = none) :
    (b.setSlot x ⟨x, (b.dir x).map fun _ => .dir⟩).Sound := by
  refine ⟨?_, ?_, h.closed⟩
  · have hne : [] ≠ x := fun e => by simp [← e, h.root] at hx
    rw [setSlot_of_ne hne]
    exact h.root
  · intro y r hr
    by_cases hy : y = x
    · subst hy
      rw [setSlot_self] at hr
      exact (Option.some.inj hr).symm
    · rw [setSlot_of_ne hy] at hr
      exact h.slot hr

/-- A directory is made in one that is there. -/
theorem Branch.Sound.setDir (h : b.Sound) (hA : (b.dir A).isSome) (m : Nat) :
    ((b.setDir (a :: A) m).setSlot (a :: A) ⟨a :: A, some .dir⟩).Sound := by
  refine ⟨?_, ?_, ?_⟩
  · rw [setSlot_of_ne (cons_ne_nil a A).symm]
    exact h.root
  · intro y r hr
    rw [setSlot_dir]
    by_cases hy : y = a :: A
    · subst hy
      rw [setSlot_self] at hr
      rw [setDir_self, ← Option.some.inj hr]
      rfl
    · rw [setSlot_of_ne hy] at hr
      rw [setDir_of_ne hy]
      exact h.slot hr
  · intro c C hc
    rw [setSlot_dir] at hc ⊢
    by_cases hC : C = a :: A
    · rw [hC, setDir_self]
      rfl
    · rw [setDir_of_ne hC]
      by_cases hcC : c :: C = a :: A
      · rw [(cons.inj hcC).2]
        exact hA
      · rw [setDir_of_ne hcC] at hc
        exact h.closed hc

/-- What is closed under parents holds every directory above one it holds. -/
theorem Closed.suffix {dir : Path → Option Nat} (h : Closed dir) {y : Path}
    (hx : (dir x).isSome) (hy : y <:+ x) : (dir y).isSome := by
  induction x with
  | nil => exact suffix_nil.mp hy ▸ hx
  | cons a A ih =>
    rcases suffix_cons_iff.mp hy with rfl | hA
    · exact hx
    · exact ih (h hx) hA

theorem missing_cons (b : Branch) (a : Nat) (A : Path) :
    missing b (a :: A) = missing b A ++ if (b.dir (a :: A)).isNone then [a :: A] else [] := by
  rw [missing, tails_cons, reverse_cons, filter_append, filter_cons, filter_nil]
  rfl

theorem mem_missing {y : Path} : y ∈ missing b x ↔ y <:+ x ∧ b.dir y = none := by
  simp [missing]

theorem missing_nil_of_there (h : Closed b.dir) (hx : (b.dir x).isSome) : missing b x = [] := by
  refine eq_nil_iff_forall_not_mem.mpr (fun y hy => ?_)
  obtain ⟨hs, hn⟩ := mem_missing.mp hy
  have := h.suffix hx hs
  rw [hn] at this
  cases this

theorem grown_nil (mode : Path → Nat) (b : Branch) : grown mode b [] = b.dir := by
  funext y
  exact if_neg not_mem_nil

/-! ## The two walks are one recursion -/

theorem goOn_goOn (p : Except Int Replica × Branch)
    (k l : Replica → Branch → Except Int Replica × Branch) :
    goOn (goOn p k) l = goOn p (fun r b => goOn (k r b) l) := by
  obtain ⟨_ | _, b⟩ := p
  · rfl
  · rfl

/-- The branch down to `x`, by recursion over the path. -/
def way (f : Faults) (mode : Path → Nat) : Path → Branch → Except Int Replica × Branch
  | [], b => (.ok ⟨[], some .dir⟩, b)
  | a :: A, b =>
    match b.slot (a :: A) with
    | some ⟨y, some i⟩ => (.ok ⟨y, some i⟩, b)
    | _ => goOn (way f mode A b) (fun r => cloneNode f mode r (a :: A))

/-- Below a dentry without a replica the branch is that of its parent and one node more. -/
theorem way_cons (hx : b.positive (a :: A) = false) :
    way f mode (a :: A) b = goOn (way f mode A b) (fun r => cloneNode f mode r (a :: A)) := by
  rw [Branch.positive] at hx
  rw [way]
  split
  · next y i hs => simp [hs] at hx
  · rfl

theorem way_there (hx : b.slot x = some ⟨x, some .dir⟩) :
    way f mode x b = (.ok ⟨x, some .dir⟩, b) := by
  cases x with
  | nil => rfl
  | cons a A => rw [way, hx]

/-- Where the upward walk stops. -/
theorem climb_there (hx : b.slot x = some ⟨x, some .dir⟩) (nodes : List Path) :
    climb f x nodes b = if f.kmalloc x then some (.error enomem, b.noted (.kmalloc enomem))
      else some (.ok (⟨x, some .dir⟩, nodes), b.noted (.kmalloc 0)) := by
  cases x with
  | nil => rw [climb, hx]
  | cons a A => rw [climb, hx]

/-- Where it goes on. -/
theorem climb_cons (hx : b.positive (a :: A) = false) (nodes : List Path) :
    climb f (a :: A) nodes b = if f.kmalloc (a :: A) then
        some (.error enomem, b.noted (.kmalloc enomem))
      else climb f A ((a :: A) :: nodes) (b.noted (.kmalloc 0)) := by
  rw [Branch.positive] at hx
  rw [climb]
  split
  · rfl
  · split
    · next y i hs => simp [hs] at hx
    · rfl

theorem Branch.Sound.root_positive (h : b.Sound) : b.positive [] = true := by
  rw [Branch.positive, h.root]
  rfl

/-- The calls of the upward walk: `kmalloc`s that succeed. -/
def Quiet (evs : List Event) : Prop :=
  ∀ ev ∈ evs, ev.err = 0 ∧ ev.wanted = none

/-- The upward walk ran out of memory. -/
def ClimbFails (f : Faults) (b : Branch) (x : Path) (nodes : List Path) : Prop :=
  ∃ ks, Quiet ks ∧ climb f x nodes b = some (.error enomem,
    { b with log := b.log ++ ks ++ [.kmalloc enomem] })

/-- The upward walk built a list that the downward walk turns into the branch
    down to `x`, before it goes on with what was on the list. -/
def ClimbEnds (f : Faults) (mode : Path → Nat) (b : Branch) (x : Path) (nodes : List Path) : Prop :=
  ∃ ks found all, Quiet ks ∧ climb f x nodes b
        = some (.ok (found, all), { b with log := b.log ++ ks })
    ∧ ∀ (c : Branch) (ret : Except Int Replica), c.slot = b.slot →
        cloneDown f mode found ret all c = goOn (way f mode x c)
          (fun r => cloneDown f mode r (if b.positive x then ret else .ok r) nodes)

theorem climb_at_there (h : b.Sound) (hx : b.positive x = true) (nodes : List Path) :
    ClimbFails f b x nodes ∨ ClimbEnds f mode b x nodes := by
  have hslot := (h.there hx).1
  by_cases hk : f.kmalloc x
  · refine .inl ⟨[], nofun, ?_⟩
    rw [climb_there hslot, if_pos hk, append_nil]
    rfl
  · refine .inr ⟨[.kmalloc 0], ⟨x, some .dir⟩, nodes, ?_, ?_, ?_⟩
    · intro ev hev
      rw [mem_singleton.mp hev]
      exact ⟨rfl, rfl⟩
    · rw [climb_there hslot, if_neg hk]
      rfl
    · intro c ret hc
      rw [way_there (hc ▸ hslot), hx]
      rfl

variable (f mode x) in
/-- The upward walk ends, whatever the depth. -/
theorem climb_spec (h : b.Sound) (nodes : List Path) :
    ClimbFails f b x nodes ∨ ClimbEnds f mode b x nodes := by
  induction x generalizing b nodes with
  | nil => exact climb_at_there h h.root_positive nodes
  | cons a A ih =>
    cases hx : b.positive (a :: A) with
    | true => exact climb_at_there h hx nodes
    | false =>
      by_cases hk : f.kmalloc (a :: A)
      · refine .inl ⟨[], nofun, ?_⟩
        rw [climb_cons hx, if_pos hk, append_nil]
        rfl
      · have hq : ∀ {ks}, Quiet ks → Quiet (.kmalloc 0 :: ks) := by
          intro ks hks
          exact forall_mem_cons.mpr ⟨⟨rfl, rfl⟩, hks⟩
        rcases ih (h.noted (.kmalloc 0)) ((a :: A) :: nodes) with
          ⟨ks, hks, he⟩ | ⟨ks, found, all, hks, he, hdown⟩
        · refine .inl ⟨_, hq hks, ?_⟩
          rw [climb_cons hx, if_neg hk, he]
          simp [Branch.noted]
        · refine .inr ⟨_, found, all, hq hks, ?_, ?_⟩
          · rw [climb_cons hx, if_neg hk, he]
            simp [Branch.noted]
          · intro c ret hc
            have hcx : c.positive (a :: A) = false := by
              rw [← hx, Branch.positive, Branch.positive, hc]
            -- the node of `a :: A` is the first of the rest of the list
            rw [hdown c ret hc, way_cons hcx, goOn_goOn, hx]
            rfl

/-! ## What a walk has done -/

/-- From `b` to `c` the directories `xs` were made, by calls that all succeeded,
    and only slots on the path of `x` were touched. -/
structure Went (mode : Path → Nat) (b c : Branch) (x : Path)
    (xs : List Path) (evs : List Event) : Prop where
  sound : c.Sound
  slot : ∀ {y}, ¬ y <:+ x → c.slot y = b.slot y
  dir : c.dir = grown mode b xs
  log : c.log = b.log ++ evs
  fine : ∀ ev ∈ evs, ev.err = 0
  made : evs.filterMap Event.wanted = xs.map fun y => (y, mode y)

/-- From `b` to `c` the last call failed, and no other. -/
def Stopped (b c : Branch) (bad : Event) : Prop :=
  bad.err ≠ 0 ∧ Closed c.dir ∧
    ∃ good, (∀ ev ∈ good, Event.err ev = 0) ∧ c.log = b.log ++ good ++ [bad]

theorem Went.refl (mode : Path → Nat) (h : b.Sound) (x : Path) : Went mode b b x [] [] where
  sound := h
  slot _ := rfl
  dir := (grown_nil mode b).symm
  log := (append_nil _).symm
  fine := nofun
  made := rfl

theorem Went.trans {y : Path} {xs ys : List Path} {evs evs' : List Event}
    (h : Went mode b b' x xs evs) (h' : Went mode b' c y ys evs')
    (hxy : x <:+ y) : Went mode b c y (xs ++ ys) (evs ++ evs') where
  sound := h'.sound
  slot {z} hz := (h'.slot hz).trans (h.slot fun hx => hz (hx.trans hxy))
  dir := by
    rw [h'.dir]
    funext z
    rw [grown, grown, h.dir, grown]
    by_cases hy : z ∈ ys
    · simp [hy]
    · simp [hy]
  log := by rw [h'.log, h.log, append_assoc]
  fine := forall_mem_append.mpr ⟨h.fine, h'.fine⟩
  made := by rw [filterMap_append, h.made, h'.made, map_append]

theorem Went.stopped {xs : List Path} {evs : List Event} {bad : Event}
    (h : Went mode b b' x xs evs) (h' : Stopped b' c bad) :
    Stopped b c bad := by
  obtain ⟨hbad, hc, good, hgood, hlog⟩ := h'
  refine ⟨hbad, hc, evs ++ good, forall_mem_append.mpr ⟨h.fine, hgood⟩, ?_⟩
  rw [hlog, h.log, append_assoc b.log]

theorem stopped_noted (h : b.Sound) {bad : Event} (hbad : bad.err ≠ 0) :
    Stopped b (b.noted bad) bad :=
  ⟨hbad, h.closed, [], nofun, by rw [append_nil]; rfl⟩

/-! ## One node -/

theorem ne_of_not_suffix {y : Path} (h : ¬ y <:+ x) : y ≠ x := by
  rintro rfl
  exact h suffix_rfl

variable (mode) in
/-- A lookup that succeeds. -/
theorem went_lookup (h : b.Sound) (hx : b.slot x = none) :
    Went mode b ((b.noted (.lookup x 0)).setSlot x
      ⟨x, (b.dir x).map fun _ => .dir⟩) x [] [.lookup x 0] where
  sound := (h.noted _).setSlot hx
  slot {y} hy := setSlot_of_ne (ne_of_not_suffix hy) _ _
  dir := (grown_nil mode b).symm
  log := rfl
  fine ev hev := by rw [mem_singleton.mp hev]; rfl
  made := rfl

/-- A `mkdir` that succeeds. -/
theorem went_mkdir (h : b.Sound) (hA : (b.dir A).isSome) :
    Went mode b (((b.noted (.mkdir (a :: A) (mode (a :: A)) 0)).setDir
        (a :: A) (mode (a :: A))).setSlot (a :: A) ⟨a :: A, some .dir⟩)
      (a :: A) [a :: A] [.mkdir (a :: A) (mode (a :: A)) 0] where
  sound := (h.noted _).setDir hA _
  slot {y} hy := setSlot_of_ne (ne_of_not_suffix hy) _ _
  dir := by
    funext y
    rw [setSlot_dir, grown]
    by_cases hy : y = a :: A
    · rw [hy, setDir_self, if_pos mem_cons_self]
    · rw [setDir_of_ne hy, if_neg (fun hm => hy (mem_singleton.mp hm))]
      rfl
  log := rfl
  fine ev hev := by rw [mem_singleton.mp hev]; rfl
  made := rfl

/-- A node ends with its replica after `xs` was made, or at a failing call. -/
def NodeEnds (mode : Path → Nat) (b : Branch) (x : Path) (xs : List Path)
    (p : Except Int Replica × Branch) : Prop :=
  (∃ evs, p.1 = .ok ⟨x, some .dir⟩ ∧ Went mode b p.2 x xs evs)
    ∨ ∃ bad, p.1 = .error bad.err ∧ Stopped b p.2 bad

/-- What comes after a walk that succeeded. -/
theorem Went.nodeEnds {y : Path} {xs ys : List Path} {evs : List Event}
    {p : Except Int Replica × Branch} (h : Went mode b b' x xs evs)
    (hp : NodeEnds mode b' y ys p) (hxy : x <:+ y) :
    NodeEnds mode b y (xs ++ ys) p := by
  rcases hp with ⟨evs', hr, hw⟩ | ⟨bad, hr, hs⟩
  · exact .inl ⟨_, hr, h.trans hw hxy⟩
  · exact .inr ⟨bad, hr, h.stopped hs⟩

theorem makeNode_eq (hx : b.dir (a :: A) = none) (m : Nat) :
    makeNode f ⟨A, some .dir⟩ (a :: A) ⟨a :: A, none⟩ m b = if f.mkdir (a :: A) ≠ 0 then
        (.error (f.mkdir (a :: A)), b.noted (.mkdir (a :: A) m (f.mkdir (a :: A))))
      else (.ok ⟨a :: A, some .dir⟩, ((b.noted (.mkdir (a :: A) m (f.mkdir (a :: A)))).setDir
          (a :: A) m).setSlot (a :: A) ⟨a :: A, some .dir⟩) := by
  simp only [makeNode, replicaMkdir, headD_cons, hx, isSome_none,
    Bool.false_eq_true, if_false]
  split
  · rfl
  · rfl

/-- The `mkdir` of a node, in the replica of its parent. -/
theorem makeNode_spec (h : b.Sound) (hA : (b.dir A).isSome) (hx : b.dir (a :: A) = none) :
    NodeEnds mode b (a :: A) [a :: A]
      (makeNode f ⟨A, some .dir⟩ (a :: A) ⟨a :: A, none⟩ (mode (a :: A)) b) := by
  rw [makeNode_eq hx]
  by_cases he : f.mkdir (a :: A) = 0
  · rw [if_neg (not_not_intro he), he]
    exact .inl ⟨_, rfl, went_mkdir h hA⟩
  · rw [if_pos he]
    exact .inr ⟨.mkdir _ _ _, rfl, stopped_noted h he⟩

/-- The node of `a :: A`, whose replica is not known yet. -/
theorem cloneNode_spec (h : b.Sound) (hA : (b.dir A).isSome) (hx : b.positive (a :: A) = false) :
    NodeEnds mode b (a :: A) (if (b.dir (a :: A)).isNone then [a :: A] else [])
      (cloneNode f mode ⟨A, some .dir⟩ (a :: A) b) := by
  rcases h.lacks hx with hs | ⟨hs, hd⟩
  · -- a null slot is looked up first
    rw [cloneNode, getReplicaDentry, hs]
    simp only [headD_cons, noted_dir]
    by_cases he : f.lookup (a :: A) = 0
    · have hw := went_lookup mode h hs
      simp only [he, ne_eq, not_true_eq_false, if_false]
      cases hd : b.dir (a :: A) with
      | some m =>
        rw [hd] at hw
        exact .inl ⟨_, rfl, hw⟩
      | none =>
        rw [hd] at hw
        exact hw.nodeEnds (makeNode_spec (f := f) hw.sound (by exact hA) (by exact hd)) suffix_rfl
    · simp only [he, ne_eq, not_false_eq_true, if_true]
      exact .inr ⟨.lookup _ _, rfl, stopped_noted h he⟩
  · -- a negative one is made without
    rw [cloneNode, getReplicaDentry, hs, hd]
    exact makeNode_spec h hA hd

/-! ## The whole branch -/

theorem not_suffix_tail (a : Nat) (A : Path) : ¬ a :: A <:+ A := by
  intro h
  have hlen : A.length + 1 ≤ A.length := h.length_le
  omega

/-- After the path of `A` was made, the directory is there and the dentry below
    it is as it was. -/
theorem Went.below {evs : List Event} (h : Went mode b b' A (missing b A) evs) :
    (b'.dir A).isSome ∧ b'.dir (a :: A) = b.dir (a :: A)
      ∧ b'.positive (a :: A) = b.positive (a :: A) := by
  refine ⟨?_, ?_, ?_⟩
  · rw [h.dir, grown]
    split
    · rfl
    · next hA =>
      rw [mem_missing, not_and] at hA
      exact isSome_iff_ne_none.mpr (hA suffix_rfl)
  · rw [h.dir, grown, if_neg]
    intro hm
    exact not_suffix_tail a A (mem_missing.mp hm).1
  · rw [Branch.positive, Branch.positive, h.slot (not_suffix_tail a A)]

/-- The branch down to a directory whose replica is known. -/
theorem nodeEnds_there (h : b.Sound) (hx : b.positive x = true) :
    NodeEnds mode b x (missing b x) (way f mode x b) := by
  obtain ⟨hs, hd⟩ := h.there hx
  rw [way_there hs, missing_nil_of_there h.closed hd]
  exact .inl ⟨[], rfl, .refl mode h x⟩

/-- The branch down to any directory: one node more for each name. -/
theorem way_spec (h : b.Sound) : NodeEnds mode b x (missing b x) (way f mode x b) := by
  induction x with
  | nil => exact nodeEnds_there h h.root_positive
  | cons a A ih =>
    cases hx : b.positive (a :: A) with
    | true => exact nodeEnds_there h hx
    | false =>
      rw [way_cons hx, missing_cons]
      generalize way f mode A b = p at ih ⊢
      obtain ⟨r, b'⟩ := p
      rcases ih with ⟨evs, hr, hw⟩ | ⟨bad, hr, hs⟩
      · obtain ⟨hA, hd, hp⟩ := hw.below (a := a)
        obtain rfl : r = .ok ⟨A, some .dir⟩ := hr
        rw [← hd]
        exact hw.nodeEnds (cloneNode_spec hw.sound hA (hp.trans hx)) (suffix_cons a A)
      · obtain rfl : r = .error bad.err := hr
        exact .inr ⟨bad, rfl, hs⟩

variable (f mode x) in
/-- The three ends of `sfs_clone_branch`: a failing call, whose error is
    returned; the empty list; and the replica. -/
theorem sfsCloneBranch_cases (h : b.Sound) :
    ∃ ret b' evs, sfsCloneBranch f mode x b = some (ret, b') ∧ b'.log = b.log ++ evs
      ∧ ((∃ good bad, evs = good ++ [bad] ∧ (∀ ev ∈ good, ev.err = 0)
            ∧ bad.err ≠ 0 ∧ ret = .error bad.err ∧ Closed b'.dir)
        ∨ ((∀ ev ∈ evs, ev.err = 0) ∧ ret = (if b.positive x then .error eio
                else .ok ⟨x, some .dir⟩)
            ∧ evs.filterMap Event.wanted = (missing b x).map (fun y => (y, mode y))
            ∧ b'.dir = grown mode b (missing b x))) := by
  rw [sfsCloneBranch]
  rcases climb_spec f mode x h [] with
    ⟨ks, hks, he⟩ | ⟨ks, found, all, hks, he, hdown⟩
  · rw [he]
    refine ⟨_, _, ks ++ [.kmalloc enomem], rfl, append_assoc .., ?_⟩
    exact .inl ⟨ks, _, rfl, fun ev hev => (hks ev hev).1, by decide, rfl, h.closed⟩
  · rw [he]
    -- the calls of the upward walk come first
    have hc : ({ b with log := b.log ++ ks } : Branch).Sound :=
      ⟨h.root, h.slot, h.closed⟩
    have hway : NodeEnds mode { b with log := b.log ++ ks } x (missing b x)
        (way f mode x { b with log := b.log ++ ks }) := way_spec hc
    have hrun := hdown { b with log := b.log ++ ks } (.error eio) rfl
    generalize way f mode x { b with log := b.log ++ ks } = p at hway hrun
    obtain ⟨r, c⟩ := p
    have hfine : ∀ ev ∈ ks, ev.err = 0 := fun ev hev => (hks ev hev).1
    rcases hway with ⟨evs, hr, hw⟩ | ⟨bad, hr, hbad, hcl, good, hgood, hlog⟩
    · obtain rfl : r = .ok ⟨x, some .dir⟩ := hr
      refine ⟨_, c, ks ++ evs, congrArg some hrun, ?_, .inr ⟨?_, rfl, ?_, hw.dir⟩⟩
      · rw [hw.log, append_assoc]
      · exact forall_mem_append.mpr ⟨hfine, hw.fine⟩
      · have hnone : ks.filterMap Event.wanted = [] :=
          filterMap_eq_nil_iff.mpr fun ev hev => (hks ev hev).2
        rw [filterMap_append, hnone, hw.made]
        rfl
    · obtain rfl : r = .error bad.err := hr
      refine ⟨_, c, ks ++ good ++ [bad], congrArg some hrun, ?_,
        .inl ⟨ks ++ good, bad, rfl, ?_, hbad, rfl, hcl⟩⟩
      · rw [hlog]
        simp
      · exact forall_mem_append.mpr ⟨hfine, hgood⟩

/-- The call that failed is the last one. -/
theorem eq_of_fails {good : List Event} {bad ev : Event} (hgood : ∀ ev ∈ good, ev.err = 0)
    (hev : ev ∈ good ++ [bad]) (herr : ev.err ≠ 0) : ev = bad := by
  rcases mem_append.mp hev with hg | hb
  · exact absurd (hgood ev hg) herr
  · exact mem_singleton.mp hb

/-- A call that makes no directory fails, or none is made: nothing is returned, though
    no `mkdir` fails. -/
theorem not_clonesBranch {e : Int} {v : Event} (hev : v.wanted = none)
    (hrun : sfsCloneBranch f mode x b = some (.error e, b.noted v)) :
    ¬ ClonesBranch f mode b x := by
  rintro ⟨ret, b', evs, hrun', hlog, hall, -⟩
  obtain ⟨rfl, rfl⟩ : .error e = ret ∧ b.noted v = b' := by
    simpa using hrun.symm.trans hrun'
  obtain rfl : [v] = evs := append_cancel_left hlog
  cases (hall (by simp [hev])).1

/-- It clones the branch or stops at a call that fails, for every directory whose own dentry
    has no positive replica yet: `create_replica_dir` calls it for no other. -/
theorem clonesOrStops (h : b.Sound) (hx : b.positive x = false) : ClonesOrStops f mode b x := by
  obtain ⟨ret, b', evs, hrun, hlog, hend⟩ := sfsCloneBranch_cases f mode x h
  rw [hx] at hend
  refine ⟨ret, b', evs, hrun, hlog, ?_⟩
  rcases hend with
    ⟨good, bad, rfl, hgood, hbad, hret, hcl⟩ | ⟨hfine, hret, hmade, hdir⟩
  · constructor
    · intro hall
      exact absurd (hall bad (mem_append_right _ mem_cons_self) trivial) hbad
    · intro ev hev _ herr
      rw [eq_of_fails hgood hev herr]
      exact ⟨hret, hcl⟩
  · constructor
    · intro _
      exact ⟨hret, hmade, hdir⟩
    · intro ev hev _ herr
      exact absurd (hfine ev hev) herr

end Walks

/-- No call fails. -/
def noFaults : Faults where
  kmalloc _ := false
  lookup _ := 0
  mkdir _ := 0

/-! ## The branch inside SFS

The code of SFS as a whole knows no modes and climbs by recursion.  It makes the same
branch. -/

/-- The directories in a partition. -/
def dirsIn (d : Disk) (p : Nat) (x : Path) : Option Nat :=
  match d.node x p with
  | some (.dir _) => some 0
  | _ => none

section InSfs

variable {N p : Nat} {D : Path → Prop} {s : Sys} {d d' : Disk} {x Y : Path}

theorem dirsIn_eq_zero {m : Nat} (h : dirsIn d p x = some m) : m = 0 := by
  unfold dirsIn at h
  split at h
  · exact (Option.some.inj h).symm
  · cases h

theorem dirsIn_of_holds (h : d.Holds x p) : dirsIn d p x = some 0 := by
  obtain ⟨b, hb⟩ := h
  rw [dirsIn, hb]

theorem closed_dirsIn (w : World N D d) : Closed (dirsIn d p) := by
  intro a A h
  unfold dirsIn at h
  split at h
  · next hn => rw [dirsIn_of_holds (w.held hn)]; rfl
  · cases h

/-- The disks that have more directories on the path of `Y`, down to `Y` itself. -/
theorem dirsIn_grown {b : Branch} (w : World N D d') (hb : b.dir = dirsIn d p) (hY : d'.Holds Y p)
    (hoff : ∀ {z q}, ¬ z <:+ Y → d'.node z q = d.node z q) :
    dirsIn d' p = grown (fun _ => 0) b (missing b Y) := by
  funext z
  rw [grown]
  by_cases hz : z <:+ Y
  · have hthere : (dirsIn d' p z).isSome :=
      Closed.suffix (closed_dirsIn w) (by rw [dirsIn_of_holds hY]; rfl) hz
    obtain ⟨m, hm⟩ := isSome_iff_exists.mp hthere
    rw [hm, dirsIn_eq_zero hm]
    split
    · rfl
    · next hold =>
      obtain ⟨n, hn⟩ := ne_none_iff_exists'.mp fun h => hold (mem_missing.mpr ⟨hz, h⟩)
      rw [hb] at hn ⊢
      rw [hn, dirsIn_eq_zero hn]
  · rw [if_neg fun h => hz (mem_missing.mp h).1, hb, dirsIn, dirsIn, hoff hz]

/-- In a partition of any state, `sfs_clone_branch` as it stands in SFS returns the replica
    and leaves the directories that the two walks do. -/
theorem sfsCloneBranch_agrees (w : World N D s.disk) (hs : PathSeen N s Y) (hp : p < N) (hY : D Y)
    {f : Faults} {b b' : Branch} {r : Replica} (hb : b.Sound) (hdir : b.dir = dirsIn s.disk p)
    (hrun : sfsCloneBranch f (fun _ => 0) Y b = some (.ok r, b')) :
    ∃ t ds, Made (Sfs.sfsCloneBranch p Y) s (.ok r) t ds ∧ dirsIn t.disk p = b'.dir := by
  obtain ⟨t, ds, hmade, hk, -, hh, hoff, -⟩ := made_sfsCloneBranch w hs hp hY
  obtain ⟨ret, b'', evs, hrun', -, hend⟩ := sfsCloneBranch_cases f (fun _ => 0) Y hb
  obtain ⟨rfl, rfl⟩ : .ok r = ret ∧ b' = b'' := by simpa using hrun.symm.trans hrun'
  rcases hend with ⟨_, bad, -, -, -, hret, -⟩ | ⟨-, hret, -, hgrown⟩
  · cases hret
  · split at hret
    · cases hret
    · cases hret
      exact ⟨t, ds, hmade, (dirsIn_grown hk.world hdir hh hoff).trans hgrown.symm⟩

end InSfs

/-! ## Two partitions -/

/-- A partition with nothing but its root. -/
def rootOnly : Branch where
  slot x := if x = [] then some ⟨[], some .dir⟩ else none
  dir x := if x = [] then some 0o755 else none
  log := []

theorem rootOnly_sound : rootOnly.Sound where
  root := rfl
  slot {x r} hr := by
    by_cases hx : x = []
    · subst hx
      exact (Option.some.inj hr).symm
    · cases (if_neg hx).symm.trans hr
  closed {a A} h := nomatch h

/-- In such a partition the branch down to `b` in `a` is made. -/
theorem rootOnly_clones :
    rootOnly.Sound ∧ ClonesOrStops noFaults (fun _ => 0o700) rootOnly [1, 0] :=
  ⟨rootOnly_sound, clonesOrStops rootOnly_sound rfl⟩

/-- The same partition after directory `a` was cloned. -/
def withOne : Branch :=
  (rootOnly.setDir [0] 0o700).setSlot [0] ⟨[0], some .dir⟩

/-- `a` has its replica there, and a clone of `a` returns `-EIO` for it; and without
    memory for the list a clone returns `-ENOMEM`.  In both cases no `mkdir` fails. -/
theorem clonesBranch_fails : withOne.Sound ∧ ¬ ClonesBranch noFaults (fun _ => 0o700) withOne [0]
      ∧ ¬ ClonesBranch { noFaults with kmalloc := fun _ => true } (fun _ => 0o700) rootOnly [0] :=
  ⟨rootOnly_sound.setDir rfl 0o700,
    not_clonesBranch (e := eio) (v := .kmalloc 0) rfl rfl,
    not_clonesBranch (e := enomem) (v := .kmalloc enomem) rfl rfl⟩

end SfsClone
