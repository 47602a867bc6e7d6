import Mathlib.Data.List.Basic
import Mathlib.Logic.Function.Basic
import Mathlib.Algebra.Ring.Nat

/-! # SFS directory streams — `dir.c`

A directory of SFS is listed by listing its normal replicas one after the other.  A
subdirectory may be in several of them, so the names of directories are entered in a
hash table and a name that is there already is skipped.

The stream keeps its place in five variables, in the position of each replica's file and
in the hash table.  `sfs_iterate` does not look at whether the caller's buffer was full:
a refused entry ends the replica, and the stream goes on with the next one
(`iterate_take`).  The table is never emptied while the directory keeps its size, so
what a seek lists again lacks every directory that was listed before
(`repositions_iff`).

An entry of the table is allocated with `sizeof(struct dir_entry)`, whose `name` is one
byte long; a name that is longer than the room in the allocation is written past its
end, and then nothing is known of the run (`none`). -/

namespace Readdir

open Function List

/-- A name, as its bytes. -/
abbrev Name : Type := List Nat

/-- `d_type`. -/
inductive DType
  | dir
  | unknown
  | other
deriving DecidableEq, Repr

/-- An entry of a replica. -/
structure Dirent where
  name : Name
  dtype : DType
deriving DecidableEq, Repr

/-- `d_type == DT_DIR || d_type == DT_UNKNOWN`: the entry is looked up in the table. -/
def Dirent.hashed (e : Dirent) : Bool := e.dtype != .other

/-- The name of every directory's entry for itself. -/
def dot : Name := [46]

/-- An open replica: its entries in order and its `i_size`.  A directory lists
    itself first and has a size. -/
structure ReplicaFile where
  entries : List Dirent
  size : Nat
  self : Dirent
  self_first : entries.head? = some self
  self_name : self.name = dot
  self_hashed : self.hashed = true
  size_pos : 0 < size

/-- An open directory: its normal replicas by partition, its own `i_size`, the hash of
    names, and the bytes an allocated `struct dir_entry` has from `name` on. -/
structure Directory where
  replicas : List ReplicaFile
  size : Nat
  hash : Name → Nat
  room : Nat

/-! ## The hash table -/

/-- `struct dir_entry`. -/
structure DirEntry where
  hash : Nat
  name : Name

/-- `struct dir_info`, with the `f_pos` of the replicas' files. -/
structure DirInfo where
  buckets : Nat → List DirEntry
  hashLen : Nat
  lastPos : Nat
  currFile : Option Nat
  endFile : Option Nat
  currMajorPos : Nat
  currMinorPos : Nat
  fPos : Nat → Nat

def caculateHashLen (size : Nat) : Nat := max (size / 32) 64

/-- `sfs_alloc_dir_info`. -/
def sfsAllocDirInfo (D : Directory) : DirInfo where
  buckets _ := []
  hashLen := caculateHashLen D.size
  lastPos := 0
  currFile := none
  endFile := none
  currMajorPos := 0
  currMinorPos := 0
  fPos _ := 0

theorem sfsAllocDirInfo_lastPos (D : Directory) : (sfsAllocDirInfo D).lastPos = 0 := rfl

/-- `dir_lookup`; `dir_string_cmp` compares names of one length. -/
def dirLookup (info : DirInfo) (name : Name) (hash : Nat) : Bool :=
  (info.buckets (hash % info.hashLen)).any
    (fun e => e.hash == hash && e.name.length == name.length && e.name == name)

def dirHashAdd (info : DirInfo) (e : DirEntry) : DirInfo :=
  let i := e.hash % info.hashLen
  { info with
    buckets := update info.buckets i (e :: info.buckets i) }

/-- `sfs_refresh_hash_dirent`. -/
def sfsRefreshHashDirent (D : Directory) (info : DirInfo) : DirInfo :=
  let newHashLen := caculateHashLen D.size
  if newHashLen > info.hashLen + 64 then
    { info with buckets := fun _ => [], hashLen := newHashLen }
  else info

/-! ## The callbacks -/

/-- The caller's buffer: the entries it still takes (`none`: any number), the
    entries it has with their offsets, and every offset it was offered. -/
structure Buffer where
  left : Option Nat
  emitted : List (Dirent × Nat)
  offered : List Nat

/-- The caller's `filldir`: is the entry refused? -/
def filldir (b : Buffer) (e : Dirent) (pos : Nat) : Bool × Buffer :=
  match b.left with
  | some 0 => (true, { b with offered := b.offered ++ [pos] })
  | left =>
    (false, ⟨left.map (· - 1), b.emitted ++ [(e, pos)], b.offered ++ [pos]⟩)

/-- The end of `sfs_filldir`: the entry goes to the caller. -/
def passOn (e : Dirent) (info : DirInfo) (b : Buffer) : Bool × DirInfo × Buffer :=
  let (refused, b') := filldir b e (info.currMajorPos + info.currMinorPos)
  if refused then (true, info, b')
  else
    (false, { info with currMinorPos := info.currMinorPos + e.name.length }, b')

def sfsFilldir (D : Directory) (e : Dirent) (s : DirInfo × Buffer) :
    Option (Bool × DirInfo × Buffer) :=
  let (info, b) := s
  let hash := D.hash e.name
  if e.hashed then
    if dirLookup info e.name hash then
      some (false, { info with currMinorPos := info.currMinorPos + e.name.length }, b)
    else if D.room < e.name.length then none
    else some (passOn e (dirHashAdd info ⟨hash, e.name⟩) b)
  else some (passOn e info b)

/-- `sfs_skip_filldir`. -/
def sfsSkipFilldir (inlinePos : Nat) (e : Dirent) (info : DirInfo) : Option (Bool × DirInfo) :=
  if info.currMinorPos + e.name.length > inlinePos then some (true, info)
  else
    some (false, { info with currMinorPos := info.currMinorPos + e.name.length })

/-- The `iterate` of a replica: it starts at `ctx.pos`, stops when the actor
    refuses an entry, and leaves `ctx.pos` there. -/
def iterateFrom {σ : Type} (actor : Dirent → σ → Option (Bool × σ)) :
    List Dirent → Nat → σ → Option (Nat × σ)
  | [], pos, s => some (pos, s)
  | e :: es, pos, s =>
    match actor e s with
    | none => none
    | some (true, s') => some (pos, s')
    | some (false, s') => iterateFrom actor es (pos + 1) s'

/-! ## `sfs_dir_seek` and `sfs_iterate` -/

/-- The replica that a position lies in, what is left of the position there, and
    the sizes before it. -/
def locate : List (ReplicaFile × Nat) → Nat → Nat → Option (ReplicaFile × Nat) × Nat × Nat
  | [], inlinePos, major => (none, inlinePos, major)
  | (r, i) :: rs, inlinePos, major =>
    if inlinePos ≥ r.size then
      locate rs (inlinePos - r.size) (major + r.size)
    else (some (r, i), inlinePos, major)

def einval : Int := -22

/-- `sfs_dir_seek`.  The skipping pass compares with the whole position, and its
    own `ctx.pos` is dropped. -/
def sfsDirSeek (D : Directory) (info : DirInfo) (pos : Nat) : Option (Int × DirInfo) :=
  match locate D.replicas.zipIdx pos 0 with
  | (none, _, major) =>
    some (einval, { info with currFile := none, currMajorPos := major, currMinorPos := 0 })
  | (some (r, i), inlinePos, major) =>
    let info' : DirInfo :=
      { info with
        currFile := some i
        currMajorPos := major
        currMinorPos := 0
        fPos := update info.fPos i 0 }
    if inlinePos = 0 then some (0, info')
    else
      (iterateFrom (sfsSkipFilldir pos) r.entries 0 info').map (fun a => (0, a.2))

/-- The loop over the replicas from `curr_file` on. -/
def scan (D : Directory) : List (ReplicaFile × Nat) → DirInfo × Buffer → Option (DirInfo × Buffer)
  | [], s => some s
  | (r, i) :: rs, (info, b) =>
    let here : DirInfo := { info with currFile := some i, endFile := some i }
    -- where it stopped is stored in f_pos, and overwritten by the llseek
    match iterateFrom (sfsFilldir D) (r.entries.drop (info.fPos i))
        (info.fPos i) (here, b) with
    | none => none
    | some (_, info', b') =>
      scan D rs
        ({ info' with
            currMajorPos := info'.currMajorPos + r.size
            currMinorPos := 0
            fPos := update info'.fPos i 0 }, b')

/-- What a call returns: the error, `ctx->pos`, the stream and the buffer. -/
structure Call where
  error : Int
  pos : Nat
  info : DirInfo
  buffer : Buffer

/-- `out:` -/
def leave (error : Int) (info : DirInfo) (b : Buffer) : Call :=
  let lastPos := info.currMajorPos + info.currMinorPos
  ⟨error, lastPos, { info with lastPos := lastPos }, b⟩

/-- From `curr_file` on.  `end_file` is dereferenced when there is no `curr_file`. -/
def readOn (D : Directory) (pos : Nat) (info : DirInfo) (b : Buffer) : Option Call :=
  let resume : Option (Option Nat) :=
    match info.currFile, info.endFile with
    | some i, _ => some (some i)
    | none, none => none
    | none, some j =>
      some (if j + 1 < D.replicas.length then some (j + 1) else none)
  match resume with
  | none => none
  | some none => some ⟨0, pos, { info with currFile := none }, b⟩
  | some (some i) =>
    (scan D (D.replicas.zipIdx.drop i) (info, b)).map
      (fun s => leave 0 { s.1 with currFile := none } s.2)

/-- `sfs_iterate` with `ctx->pos = pos`.  Without replicas the first entry of
    the list is the head itself, and the loop ends at once. -/
def sfsIterate (D : Directory) (pos : Nat) (info : DirInfo) (b : Buffer) : Option Call :=
  let sought : Option (Int × DirInfo) :=
    if pos ≠ info.lastPos then
      sfsDirSeek D (sfsRefreshHashDirent D info) pos
    else some (0, info)
  match sought with
  | none => none
  | some (error, info) =>
    if error ≠ 0 then some (leave error info b)
    else if pos = 0 then
      readOn D pos
        { info with
          currFile := some 0
          currMajorPos := 0
          currMinorPos := 0
          fPos := update info.fPos 0 0 } b
    else readOn D pos info b

/-- A buffer that takes `n` entries. -/
def Buffer.taking (n : Option Nat) : Buffer := ⟨n, [], []⟩

/-- What one call with an unlimited buffer on a new stream emits. -/
def listing (D : Directory) : Option (List (Dirent × Nat)) :=
  (sfsIterate D 0 (sfsAllocDirInfo D) (.taking none)).map (·.buffer.emitted)

/-! ## One replica -/

section Iterate

variable {σ τ : Type} {actor : Dirent → σ → Option (Bool × σ)}

/-- What the actor keeps for the entries at hand, a replica keeps. -/
theorem iterateFrom_keeps {P : σ → Prop} {es : List Dirent}
    (hstep : ∀ e ∈ es, ∀ s r s', actor e s = some (r, s') → P s → P s') {pos p : Nat} {s s' : σ}
    (h : iterateFrom actor es pos s = some (p, s')) (hs : P s) : P s' := by
  induction es generalizing pos s with
  | nil =>
    obtain ⟨-, rfl⟩ := Prod.mk.inj (Option.some.inj h)
    exact hs
  | cons e es ih =>
    rw [iterateFrom] at h
    split at h
    · cases h
    · next t ht =>
      obtain ⟨-, rfl⟩ := Prod.mk.inj (Option.some.inj h)
      exact hstep e (.head _) s true t ht hs
    · next t ht =>
      exact ih (fun e' he' => hstep e' (mem_cons_of_mem e he')) h
        (hstep e (.head _) s false t ht hs)

theorem iterateFrom_defined (es : List Dirent)
    (hdef : ∀ e ∈ es, ∀ s, ∃ r, actor e s = some r) (pos : Nat) (s : σ) :
    ∃ r, iterateFrom actor es pos s = some r := by
  induction es generalizing pos s with
  | nil => exact ⟨_, rfl⟩
  | cons e es ih =>
    obtain ⟨⟨refused, t⟩, ht⟩ := hdef e (.head _) s
    rw [iterateFrom, ht]
    cases refused with
    | true => exact ⟨_, rfl⟩
    | false =>
      exact ih (fun e' he' => hdef e' (mem_cons_of_mem e he')) _ _

end Iterate

section Callback

variable {D : Directory} {e : Dirent} {info info' : DirInfo} {b b' : Buffer} {refused : Bool}

/-- The variables that a callback leaves alone. -/
structure Frame (info info' : DirInfo) : Prop where
  hashLen : info'.hashLen = info.hashLen
  lastPos : info'.lastPos = info.lastPos
  currFile : info'.currFile = info.currFile
  endFile : info'.endFile = info.endFile
  major : info'.currMajorPos = info.currMajorPos
  fPos : info'.fPos = info.fPos

theorem Frame.refl (info : DirInfo) : Frame info info :=
  ⟨rfl, rfl, rfl, rfl, rfl, rfl⟩

theorem Frame.trans {a b c : DirInfo} (h : Frame a b) (h' : Frame b c) : Frame a c :=
  ⟨h'.hashLen.trans h.hashLen, h'.lastPos.trans h.lastPos,
    h'.currFile.trans h.currFile, h'.endFile.trans h.endFile,
    h'.major.trans h.major, h'.fPos.trans h.fPos⟩

/-- A hashed name is not in the table, and has room in an entry of it. -/
def New (D : Directory) (e : Dirent) (info : DirInfo) : Prop :=
  e.hashed = true → dirLookup info e.name (D.hash e.name) = false ∧ e.name.length ≤ D.room

/-- The stream with the name of an entry in the table, if it is hashed. -/
def enter (D : Directory) (e : Dirent) (info : DirInfo) : DirInfo :=
  if e.hashed then dirHashAdd info ⟨D.hash e.name, e.name⟩ else info

/-- What `sfs_filldir` does with an entry: it skips a known name; a new one is
    entered and offered to the caller, who is full or takes it. -/
inductive Offers (D : Directory) (e : Dirent) (info : DirInfo) (b : Buffer) :
    Bool → DirInfo → Buffer → Prop
  | known (hashed : e.hashed = true)
      (found : dirLookup info e.name (D.hash e.name) = true) :
      Offers D e info b false
        { info with currMinorPos := info.currMinorPos + e.name.length } b
  | full (new : New D e info) (left : b.left = some 0) :
      Offers D e info b true (enter D e info)
        { b with offered := b.offered
            ++ [(enter D e info).currMajorPos + (enter D e info).currMinorPos] }
  | taken (new : New D e info) (left : b.left ≠ some 0) :
      Offers D e info b false
        { enter D e info with
          currMinorPos := (enter D e info).currMinorPos + e.name.length }
        ⟨b.left.map (· - 1), b.emitted ++ [(e,
            (enter D e info).currMajorPos + (enter D e info).currMinorPos)],
          b.offered ++ [(enter D e info).currMajorPos + (enter D e info).currMinorPos]⟩

theorem passOn_offers (new : New D e info) : Offers D e info b (passOn e (enter D e info) b).1
      (passOn e (enter D e info) b).2.1 (passOn e (enter D e info) b).2.2 := by
  obtain ⟨_ | _ | n, emitted, offered⟩ := b
  · exact .taken new nofun
  · exact .full new rfl
  · exact .taken new (by simp)

theorem sfsFilldir_offers (h : sfsFilldir D e (info, b) = some (refused, info', b')) :
    Offers D e info b refused info' b' := by
  unfold sfsFilldir at h
  dsimp only at h
  split at h
  · next hh =>
    split at h
    · next hl =>
      obtain ⟨rfl, rfl, rfl⟩ : false = refused ∧ _ = info' ∧ b = b' := by
        simpa using h
      exact .known hh hl
    · next hl =>
      split at h
      · cases h
      · next hroom =>
        have hp := passOn_offers (D := D) (e := e) (b := b) fun _ =>
          ⟨Bool.eq_false_iff.mpr hl, Nat.le_of_not_lt hroom⟩
        rw [enter, if_pos hh, Option.some.inj h] at hp
        exact hp
  · next hh =>
    have hnew : New D e info := fun h' => absurd h' hh
    have hp := passOn_offers (b := b) hnew
    rw [enter, if_neg hh, Option.some.inj h] at hp
    exact hp

theorem sfsFilldir_defined (hfit : e.hashed = true → e.name.length ≤ D.room)
    (s : DirInfo × Buffer) : ∃ r, sfsFilldir D e s = some r := by
  obtain ⟨info, b⟩ := s
  unfold sfsFilldir
  dsimp only
  split
  · next hh =>
    split
    · exact ⟨_, rfl⟩
    · rw [if_neg (not_lt.mpr (hfit hh))]
      exact ⟨_, rfl⟩
  · exact ⟨_, rfl⟩

theorem enter_frame (D : Directory) (e : Dirent) (info : DirInfo) :
    Frame info (enter D e info) := by
  unfold enter
  split
  · exact ⟨rfl, rfl, rfl, rfl, rfl, rfl⟩
  · exact Frame.refl info

theorem Offers.frame (h : Offers D e info b refused info' b') : Frame info info' := by
  cases h with
  | known => exact ⟨rfl, rfl, rfl, rfl, rfl, rfl⟩
  | full => exact enter_frame D e info
  | taken => exact (enter_frame D e info).trans ⟨rfl, rfl, rfl, rfl, rfl, rfl⟩

/-- A full buffer stays full and gets nothing. -/
theorem Offers.stays_full (h : Offers D e info b refused info' b')
    (hb : b.left = some 0) : b'.left = some 0 ∧ b'.emitted = b.emitted := by
  cases h with
  | known => exact ⟨hb, rfl⟩
  | full => exact ⟨hb, rfl⟩
  | taken _ hl => exact absurd hb hl

/-- An unlimited buffer refuses nothing. -/
theorem Offers.unlimited (h : Offers D e info b refused info' b') (hb : b.left = none) :
    refused = false ∧ b'.left = none ∧ b.emitted <+: b'.emitted := by
  cases h with
  | known => exact ⟨rfl, hb, prefix_refl _⟩
  | full _ hl => cases hb.symm.trans hl
  | taken => exact ⟨rfl, by rw [hb]; rfl, prefix_append _ _⟩

end Callback

/-! ## A limited call beside an unlimited one -/

/-- The unlimited side has no limit; the limited side has either done the same
    so far, or is full and has the first `n` entries. -/
structure Twin (n : Nat) (s u : DirInfo × Buffer) : Prop where
  unlimited : u.2.left = none
  side : (s.1 = u.1 ∧ s.2.emitted = u.2.emitted ∧ u.2.emitted.length ≤ n ∧
      s.2.left = some (n - u.2.emitted.length)) ∨
    (s.2.left = some 0 ∧ n ≤ u.2.emitted.length ∧ s.2.emitted = u.2.emitted.take n)

section Twin

variable {D : Directory} {n : Nat}

variable {s s' u u' : DirInfo × Buffer} {es : List Dirent} {pos p : Nat}

/-- Once the limited side is full, both sides may go on by themselves. -/
theorem Twin.full (hn : n ≤ u.2.emitted.length) (he : s.2.emitted = u.2.emitted.take n)
    (hs' : s'.2.left = some 0 ∧ s'.2.emitted = s.2.emitted)
    (hu' : u'.2.left = none ∧ u.2.emitted <+: u'.2.emitted) : Twin n s' u' := by
  obtain ⟨l, hl⟩ := hu'.2
  refine ⟨hu'.1, .inr ⟨hs'.1, ?_, ?_⟩⟩
  · rw [← hl, length_append]
    exact Nat.le_add_right_of_le hn
  · rw [hs'.2, he, ← hl, take_append_of_le_length hn]

theorem step_full {l : List (Dirent × Nat)} (e : Dirent) (s : DirInfo × Buffer) (r : Bool)
    (s' : DirInfo × Buffer) (h : sfsFilldir D e s = some (r, s'))
    (hs : s.2.left = some 0 ∧ s.2.emitted = l) :
    s'.2.left = some 0 ∧ s'.2.emitted = l := by
  have hs' := (sfsFilldir_offers h).stays_full hs.1
  exact ⟨hs'.1, hs'.2.trans hs.2⟩

theorem step_unlimited {l : List (Dirent × Nat)} (e : Dirent) (s : DirInfo × Buffer) (r : Bool)
    (s' : DirInfo × Buffer) (h : sfsFilldir D e s = some (r, s'))
    (hs : s.2.left = none ∧ l <+: s.2.emitted) :
    s'.2.left = none ∧ l <+: s'.2.emitted := by
  have hs' := (sfsFilldir_offers h).unlimited hs.1
  exact ⟨hs'.2.1, hs.2.trans hs'.2.2⟩

theorem iterateFrom_full (h : iterateFrom (sfsFilldir D) es pos s = some (p, s'))
    (hs : s.2.left = some 0) :
    s'.2.left = some 0 ∧ s'.2.emitted = s.2.emitted :=
  iterateFrom_keeps (fun e _ => step_full e) h ⟨hs, rfl⟩

theorem iterateFrom_unlimited (h : iterateFrom (sfsFilldir D) es pos u = some (p, u'))
    (hu : u.2.left = none) :
    u'.2.left = none ∧ u.2.emitted <+: u'.2.emitted :=
  iterateFrom_keeps (fun e _ => step_unlimited e) h ⟨hu, prefix_refl _⟩

/-- One entry, while both sides have done the same: the limited side is full now,
    or both have done the same again. -/
theorem Offers.twin {e : Dirent} {info info₁ info₂ : DirInfo} {b b₁ c c₁ : Buffer} {r r' : Bool}
    (hs : Offers D e info b r info₁ b₁) (hu : Offers D e info c r' info₂ c₁)
    (hleft : c.left = none) (hem : b.emitted = c.emitted)
    (hlen : c.emitted.length ≤ n) (hb : b.left = some (n - c.emitted.length)) :
    r' = false ∧ ((r = true ∧ b₁.left = some 0 ∧ n ≤ c₁.emitted.length
        ∧ b₁.emitted = c₁.emitted.take n)
      ∨ (r = false ∧ info₁ = info₂ ∧ b₁.emitted = c₁.emitted
        ∧ c₁.emitted.length ≤ n ∧ b₁.left = some (n - c₁.emitted.length))) := by
  cases hu with
  | full _ hl => cases hleft.symm.trans hl
  | known hh hk =>
    cases hs with
    | known => exact ⟨rfl, .inr ⟨rfl, rfl, hem, hlen, hb⟩⟩
    | full hnew _ => cases hk.symm.trans (hnew hh).1
    | taken hnew _ => cases hk.symm.trans (hnew hh).1
  | taken hnew _ =>
    cases hs with
    | known hh hk => cases hk.symm.trans (hnew hh).1
    | full _ hf =>
      have hz : n - c.emitted.length = 0 :=
        Option.mem_unique hb hf
      refine ⟨rfl, .inl ⟨rfl, hf, ?_, ?_⟩⟩
      · rw [length_append]
        omega
      · rw [take_append_of_le_length (by omega)]
        exact hem.trans (take_of_length_le hlen).symm
    | taken _ hf =>
      have hz : n - c.emitted.length ≠ 0 := fun h0 => hf (by rw [hb, h0])
      have hone : ∀ x : Dirent × Nat, (c.emitted ++ [x]).length = c.emitted.length + 1 := by simp
      refine ⟨rfl, .inr ⟨rfl, rfl, by rw [hem], ?_, ?_⟩⟩
      · rw [hone]
        omega
      · rw [hone, hb, Option.map_some, Nat.sub_sub]

/-- One replica. -/
theorem iterateFrom_twin {q : Nat} (ht : Twin n s u)
    (hs : iterateFrom (sfsFilldir D) es pos s = some (p, s'))
    (hu : iterateFrom (sfsFilldir D) es pos u = some (q, u')) :
    Twin n s' u' := by
  rcases ht.side with ⟨hinfo, hem, hlen, hleft⟩ | ⟨hfull, hn, hem⟩
  · induction es generalizing pos s u with
    | nil =>
      cases Option.some.inj hs
      cases Option.some.inj hu
      exact ht
    | cons e es ih =>
      obtain ⟨info, b⟩ := s
      obtain ⟨info', c⟩ := u
      obtain rfl : info = info' := hinfo
      rw [iterateFrom] at hs hu
      cases hfs : sfsFilldir D e (info, b) with
      | none => rw [hfs] at hs; exact nomatch hs
      | some rs =>
        cases hfu : sfsFilldir D e (info, c) with
        | none => rw [hfu] at hu; exact nomatch hu
        | some ru =>
          obtain ⟨r, s₁⟩ := rs
          obtain ⟨r', u₁⟩ := ru
          have hone := (sfsFilldir_offers hfs).twin
            (sfsFilldir_offers hfu) ht.unlimited hem hlen hleft
          have hu₁ := ((sfsFilldir_offers hfu).unlimited ht.unlimited).2.1
          rw [hfs] at hs
          rw [hfu] at hu
          rcases hone with ⟨rfl, ⟨rfl, hf₁, hn₁, he₁⟩ | ⟨rfl, hside⟩⟩
          · cases Option.some.inj hs
            exact Twin.full hn₁ he₁ ⟨hf₁, rfl⟩ (iterateFrom_unlimited hu hu₁)
          · exact ih ⟨hu₁, .inl hside⟩ hs hu hside.1 hside.2.1 hside.2.2.1 hside.2.2.2
  · exact Twin.full hn hem (iterateFrom_full hs hfull) (iterateFrom_unlimited hu ht.unlimited)

end Twin

/-! ## The loop over the replicas -/

section Scan

variable {D : Directory} {n : Nat}

/-- The stream after a replica. -/
def nextReplica (r : ReplicaFile) (i : Nat) (s : DirInfo × Buffer) : DirInfo × Buffer :=
  ({ s.1 with
      currMajorPos := s.1.currMajorPos + r.size
      currMinorPos := 0
      fPos := update s.1.fPos i 0 }, s.2)

/-- The stream before a replica. -/
def enterReplica (i : Nat) (s : DirInfo × Buffer) : DirInfo × Buffer :=
  ({ s.1 with currFile := some i, endFile := some i }, s.2)

variable {rs : List (ReplicaFile × Nat)} {s t u : DirInfo × Buffer}

theorem scan_cons {r : ReplicaFile} {i : Nat} : scan D ((r, i) :: rs) s = some t ↔
      ∃ p s', iterateFrom (sfsFilldir D) (r.entries.drop (s.1.fPos i))
          (s.1.fPos i) (enterReplica i s) = some (p, s') ∧
        scan D rs (nextReplica r i s') = some t := by
  obtain ⟨info, b⟩ := s
  rw [scan]
  show (match iterateFrom (sfsFilldir D) (r.entries.drop (info.fPos i))
      (info.fPos i) (enterReplica i (info, b)) with
    | none => none
    | some (_, info', b') => scan D rs (nextReplica r i (info', b'))) = some t ↔ _
  cases hit : iterateFrom (sfsFilldir D) (r.entries.drop (info.fPos i))
      (info.fPos i) (enterReplica i (info, b)) with
  | none =>
    constructor
    · exact nofun
    · rintro ⟨p, s', h, -⟩
      cases h
  | some ps =>
    constructor
    · exact fun h => ⟨ps.1, ps.2, rfl, h⟩
    · rintro ⟨p, s', h, hs⟩
      obtain rfl : ps = (p, s') := Option.some.inj h
      exact hs

/-- What the callback keeps and the steps between two replicas, the loop keeps. -/
theorem scan_keeps {P : DirInfo × Buffer → Prop} (hin : ∀ i s, P s → P (enterReplica i s))
    (hout : ∀ r i s, P s → P (nextReplica r i s))
    (hstep : ∀ e s r s', sfsFilldir D e s = some (r, s') → P s → P s')
    (h : scan D rs s = some t) (hs : P s) : P t := by
  induction rs generalizing s with
  | nil =>
    cases h
    exact hs
  | cons ri rs ih =>
    obtain ⟨p, s', hit, hrest⟩ := scan_cons.mp h
    exact ih hrest (hout _ _ _ (iterateFrom_keeps (fun e _ => hstep e) hit (hin _ _ hs)))

theorem scan_full (h : scan D rs s = some t) (hs : s.2.left = some 0) :
    t.2.left = some 0 ∧ t.2.emitted = s.2.emitted :=
  scan_keeps (fun _ _ h => h) (fun _ _ _ h => h) step_full h ⟨hs, rfl⟩

theorem scan_unlimited (h : scan D rs u = some t) (hu : u.2.left = none) :
    t.2.left = none ∧ u.2.emitted <+: t.2.emitted :=
  scan_keeps (fun _ _ h => h) (fun _ _ _ h => h) step_unlimited h ⟨hu, prefix_refl _⟩

theorem scan_twin {s' u' : DirInfo × Buffer} (ht : Twin n s u)
    (hs : scan D rs s = some s') (hu : scan D rs u = some u') :
    Twin n s' u' := by
  induction rs generalizing s u with
  | nil =>
    cases hs
    cases hu
    exact ht
  | cons ri rs ih =>
    rcases ht.side with ⟨hinfo, hside⟩ | ⟨hfull, hn, hem⟩
    · obtain ⟨r, i⟩ := ri
      obtain ⟨info, b⟩ := s
      obtain ⟨info', c⟩ := u
      obtain rfl : info = info' := hinfo
      obtain ⟨p, s₁, hit, hrest⟩ := scan_cons.mp hs
      obtain ⟨q, u₁, hit', hrest'⟩ := scan_cons.mp hu
      have hin : Twin n (enterReplica i (info, b)) (enterReplica i (info, c)) :=
        ⟨ht.unlimited, .inl ⟨rfl, hside⟩⟩
      have hout := iterateFrom_twin hin hit hit'
      have hnext : Twin n (nextReplica r i s₁) (nextReplica r i u₁) := by
        refine ⟨hout.unlimited, ?_⟩
        rcases hout.side with ⟨hi, ho⟩ | ho
        · refine .inl ⟨?_, ho⟩
          rw [nextReplica, nextReplica, hi]
        · exact .inr ho
      exact ih hnext hrest hrest'
    · exact Twin.full hn hem (scan_full hs hfull) (scan_unlimited hu ht.unlimited)

/-- Where the loop ends. -/
theorem scan_place (h : scan D rs s = some t) :
    t.1.currMajorPos = s.1.currMajorPos + (rs.map (·.1.size)).sum ∧
      t.1.endFile = (rs.getLast?.map (·.2)).or s.1.endFile ∧
      t.1.hashLen = s.1.hashLen ∧
      (s.1.currMinorPos = 0 → t.1.currMinorPos = 0) := by
  induction rs generalizing s with
  | nil =>
    cases h
    exact ⟨rfl, rfl, rfl, id⟩
  | cons ri rs ih =>
    obtain ⟨r, i⟩ := ri
    obtain ⟨p, s', hit, hrest⟩ := scan_cons.mp h
    have hframe : Frame (enterReplica i s).1 s'.1 :=
      iterateFrom_keeps (P := fun v => Frame (enterReplica i s).1 v.1)
        (fun e _ v r v' hf hk => hk.trans (sfsFilldir_offers hf).frame) hit
        (Frame.refl _)
    obtain ⟨hmajor, hend, hlen, hminor⟩ := ih hrest
    have hend' : (nextReplica r i s').1.endFile = some i := hframe.endFile
    refine ⟨?_, ?_, hlen.trans hframe.hashLen, fun _ => hminor rfl⟩
    · rw [hmajor, map_cons, sum_cons, ← add_assoc]
      show s'.1.currMajorPos + r.size + _ = _
      rw [hframe.major]
      rfl
    · rw [hend, hend', getLast?_cons]
      cases rs.getLast? <;> rfl

/-- Every name that is to be hashed has room in its entry of the table. -/
def Fits (D : Directory) : Prop :=
  ∀ r ∈ D.replicas, ∀ e ∈ r.entries, e.hashed = true → e.name.length ≤ D.room

instance : Decidable (Fits D) := by
  unfold Fits
  infer_instance

theorem scan_defined
    (hfit : ∀ ri ∈ rs, ∀ e ∈ ri.1.entries, e.hashed = true → e.name.length ≤ D.room)
    (s : DirInfo × Buffer) :
    ∃ t, scan D rs s = some t := by
  induction rs generalizing s with
  | nil => exact ⟨s, rfl⟩
  | cons ri rs ih =>
    obtain ⟨r, i⟩ := ri
    obtain ⟨⟨p, s'⟩, hit⟩ := iterateFrom_defined (r.entries.drop (s.1.fPos i)) (fun e he s =>
        sfsFilldir_defined (hfit (r, i) (.head _) e
          (mem_of_mem_drop he)) s) (s.1.fPos i) (enterReplica i s)
    obtain ⟨t, ht⟩ := ih (fun ri hri => hfit ri (.tail _ hri)) (nextReplica r i s')
    exact ⟨t, scan_cons.mpr ⟨p, s', hit, ht⟩⟩

/-- The names in the table have room. -/
def Table (D : Directory) (info : DirInfo) : Prop :=
  ∀ i, ∀ e ∈ info.buckets i, e.name.length ≤ D.room

variable {info : DirInfo}

theorem dirLookup_mem {name : Name} {hash : Nat} (h : dirLookup info name hash = true) :
    ∃ e ∈ info.buckets (hash % info.hashLen), e.name = name := by
  obtain ⟨e, he, hc⟩ := any_eq_true.mp h
  simp only [Bool.and_eq_true, beq_iff_eq] at hc
  exact ⟨e, he, hc.2⟩

theorem dirHashAdd_buckets (info : DirInfo) (e : DirEntry) (i : Nat) :
    (dirHashAdd info e).buckets i = if i = e.hash % info.hashLen then
        e :: info.buckets (e.hash % info.hashLen)
      else info.buckets i := by
  rw [dirHashAdd]
  exact update_apply _ _ _ _

theorem New.table {e : Dirent} (h : New D e info)
    (ht : Table D info) : Table D (enter D e info) := by
  unfold enter
  split
  · next hh =>
    intro i x hx
    rw [dirHashAdd_buckets] at hx
    split at hx
    · rcases mem_cons.mp hx with rfl | hx
      · exact (h hh).2
      · exact ht _ x hx
    · exact ht i x hx
  · exact ht

theorem Offers.table {e : Dirent} {info' : DirInfo} {b b' : Buffer} {refused : Bool}
    (h : Offers D e info b refused info' b') (ht : Table D info) :
    Table D info' ∧ (e.hashed = true → e.name.length ≤ D.room) := by
  cases h with
  | known _ hk =>
    -- a name that is found was entered once, and had room then
    obtain ⟨x, hx, hname⟩ := dirLookup_mem hk
    exact ⟨ht, fun _ => hname ▸ ht _ x hx⟩
  | full hnew _ => exact ⟨hnew.table ht, fun hh => (hnew hh).2⟩
  | taken hnew _ => exact ⟨hnew.table ht, fun hh => (hnew hh).2⟩

theorem iterateFrom_fits {es : List Dirent} {pos p : Nat} {u' : DirInfo × Buffer}
    (h : iterateFrom (sfsFilldir D) es pos u = some (p, u'))
    (hu : u.2.left = none) (ht : Table D u.1) :
    ∀ e ∈ es, e.hashed = true → e.name.length ≤ D.room := by
  induction es generalizing pos u with
  | nil => exact nofun
  | cons e es ih =>
    rw [iterateFrom] at h
    split at h
    · cases h
    · next t ht' => exact nomatch ((sfsFilldir_offers ht').unlimited hu).1
    · next t ht' =>
      have hf := (sfsFilldir_offers ht').table ht
      have hrest := ih h ((sfsFilldir_offers ht').unlimited hu).2.1 hf.1
      intro x hx
      rcases mem_cons.mp hx with rfl | hx
      · exact hf.2
      · exact hrest x hx

theorem iterateFrom_stream {es : List Dirent} {pos p : Nat} {s' : DirInfo × Buffer}
    (h : iterateFrom (sfsFilldir D) es pos s = some (p, s')) :
    Frame s.1 s'.1 ∧ (Table D s.1 → Table D s'.1) := by
  refine iterateFrom_keeps (P := fun v => Frame s.1 v.1 ∧ (Table D s.1 → Table D v.1)) ?_ h
    ⟨Frame.refl _, id⟩
  rintro e - v r v' hf ⟨hk, ht⟩
  have ho := sfsFilldir_offers hf
  exact ⟨hk.trans ho.frame, fun h0 => (ho.table (ht h0)).1⟩

theorem scan_fits (h : scan D rs u = some t) (hu : u.2.left = none) (ht : Table D u.1)
    (hpos : ∀ i, u.1.fPos i = 0) :
    ∀ ri ∈ rs, ∀ e ∈ ri.1.entries, e.hashed = true → e.name.length ≤ D.room := by
  induction rs generalizing u with
  | nil => exact nofun
  | cons ri rs ih =>
    obtain ⟨r, i⟩ := ri
    obtain ⟨p, u', hit, hrest⟩ := scan_cons.mp h
    rw [hpos i, drop_zero] at hit
    obtain ⟨hframe, htab⟩ := iterateFrom_stream hit
    have hpos' : ∀ j, (nextReplica r i u').1.fPos j = 0 := by
      intro j
      show update u'.1.fPos i 0 j = 0
      rw [hframe.fPos, update_apply]
      split
      · rfl
      · exact hpos j
    have hrest' := ih hrest (iterateFrom_unlimited hit hu).1 (htab ht) hpos'
    intro x hx
    rcases mem_cons.mp hx with rfl | hx
    · exact iterateFrom_fits hit hu ht
    · exact hrest' x hx

end Scan

/-! ## Calls on a stream -/

section Calls

variable {D : Directory}

/-- The stream at its start. -/
def rewound (info : DirInfo) : DirInfo :=
  { info with
    currFile := some 0
    currMajorPos := 0
    currMinorPos := 0
    fPos := update info.fPos 0 0 }

/-- A call at position 0 once the seek, if there is one, has been made. -/
def readAll (D : Directory) (info : DirInfo) (b : Buffer) : Option Call :=
  (scan D D.replicas.zipIdx (rewound info, b)).map
    (fun s => leave 0 { s.1 with currFile := none } s.2)

theorem fits_zipIdx : Fits D ↔ ∀ ri ∈ D.replicas.zipIdx, ∀ e ∈ ri.1.entries,
    e.hashed = true → e.name.length ≤ D.room := by
  constructor
  · intro h ri hri
    exact h ri.1 (fst_mem_of_mem_zipIdx hri)
  · intro h r hr
    obtain ⟨i, hi, rfl⟩ := mem_iff_getElem.mp hr
    exact h (D.replicas[i], i) (mk_mem_zipIdx_iff_getElem?.mpr (getElem?_eq_getElem hi))

/-- A call from the start ends at the end of the directory. -/
theorem readAll_place {info : DirInfo} {b : Buffer} {c : Call} (h : readAll D info b = some c) :
    c.error = 0 ∧ c.pos = (D.replicas.map (·.size)).sum ∧
      c.info.lastPos = c.pos ∧ c.info.currFile = none ∧
      c.info.endFile = (D.replicas.zipIdx.getLast?.map (·.2)).or info.endFile ∧
      c.info.hashLen = info.hashLen := by
  obtain ⟨t, hscan, rfl⟩ := Option.map_eq_some_iff.mp h
  obtain ⟨hmajor, hend, hlen, hminor⟩ := scan_place hscan
  have hsizes : D.replicas.zipIdx.map (·.1.size) = D.replicas.map (·.size) := by
    have h := congrArg (map ReplicaFile.size) (zipIdx_map_fst 0 D.replicas)
    rw [map_map] at h
    exact h
  refine ⟨rfl, ?_, rfl, rfl, hend, hlen⟩
  show t.1.currMajorPos + t.1.currMinorPos = _
  rw [hmajor, hminor rfl, hsizes]
  exact zero_add _

theorem readAll_defined (hfit : Fits D) (info : DirInfo) (b : Buffer) :
    ∃ c, readAll D info b = some c := by
  obtain ⟨t, ht⟩ := scan_defined (fits_zipIdx.mp hfit) (rewound info, b)
  exact ⟨_, Option.map_eq_some_iff.mpr ⟨t, ht, rfl⟩⟩

/-- A new stream is listed when every name has room, and only then. -/
theorem listing_isSome_iff : (∃ l, listing D = some l) ↔ Fits D := by
  constructor
  · rintro ⟨l, hl⟩
    obtain ⟨c, hc, -⟩ := Option.map_eq_some_iff.mp hl
    obtain ⟨t, hscan, -⟩ := Option.map_eq_some_iff.mp hc
    refine fits_zipIdx.mpr (scan_fits hscan rfl nofun (fun i => ?_))
    show update (fun _ => 0) 0 0 i = 0
    rw [update_apply]
    split <;> rfl
  · intro hfit
    obtain ⟨c, hc⟩ := readAll_defined hfit (sfsAllocDirInfo D) (.taking none)
    exact ⟨_, Option.map_eq_some_iff.mpr ⟨c, hc, rfl⟩⟩

/-- A call with a buffer for `n` entries emits the first `n` of the listing, and
    ends at the end of the directory all the same. -/
theorem iterate_take {l : List (Dirent × Nat)} (hl : listing D = some l) (n : Nat) :
    ∃ c, sfsIterate D 0 (sfsAllocDirInfo D) (.taking (some n)) = some c ∧
      c.buffer.emitted = l.take n := by
  have hfit := listing_isSome_iff.mp ⟨l, hl⟩
  obtain ⟨u, hu, rfl⟩ := Option.map_eq_some_iff.mp hl
  obtain ⟨u', hscan', rfl⟩ := Option.map_eq_some_iff.mp hu
  obtain ⟨s', hscan⟩ := scan_defined (fits_zipIdx.mp hfit)
    (rewound (sfsAllocDirInfo D), Buffer.taking (some n))
  refine ⟨_, Option.map_eq_some_iff.mpr ⟨s', hscan, rfl⟩, ?_⟩
  have hstart : Twin n (rewound (sfsAllocDirInfo D), Buffer.taking (some n))
      (rewound (sfsAllocDirInfo D), Buffer.taking none) :=
    ⟨rfl, .inl ⟨rfl, rfl, Nat.zero_le n, rfl⟩⟩
  have hend := scan_twin hstart hscan hscan'
  show s'.2.emitted = u'.2.emitted.take n
  rcases hend.side with ⟨-, hem, hlen, -⟩ | ⟨-, -, hem⟩
  · rw [hem, take_of_length_le hlen]
  · exact hem

/-- A call at the end of the directory emits nothing. -/
theorem sfsIterate_end {info : DirInfo} {pos : Nat} (b : Buffer)
    (hlast : info.lastPos = pos) (hpos : pos ≠ 0) (hcurr : info.currFile = none)
    {j : Nat} (hend : info.endFile = some j) (hj : D.replicas.length ≤ j + 1) :
    sfsIterate D pos info b = some ⟨0, pos, info, b⟩ := by
  subst hlast
  obtain ⟨buckets, hashLen, lastPos, currFile, endFile, major, minor, fPos⟩ := info
  obtain rfl : currFile = none := hcurr
  obtain rfl : endFile = some j := hend
  unfold sfsIterate
  rw [if_neg (by simp)]
  dsimp only
  rw [if_neg (by simp), if_neg hpos, readOn]
  dsimp only
  rw [if_neg (not_lt.mpr hj)]

end Calls

/-! ## A listing in pieces -/

section Chunks

variable {D : Directory}

/-- Successive calls, the `k`th with a buffer for `caps k` entries, until one
    emits nothing; the last argument is what they emit together. -/
inductive Chunks (D : Directory) (caps : Nat → Nat) :
    Nat → Nat → DirInfo → List (Dirent × Nat) → Prop
  | stop {k pos : Nat} {info : DirInfo} {c : Call}
      (call : sfsIterate D pos info (.taking (some (caps k))) = some c)
      (nothing : c.buffer.emitted = []) : Chunks D caps k pos info []
  | more {k pos : Nat} {info : DirInfo} {c : Call} {l : List (Dirent × Nat)}
      (call : sfsIterate D pos info (.taking (some (caps k))) = some c)
      (some_entries : c.buffer.emitted ≠ [])
      (rest : Chunks D caps (k + 1) c.pos c.info l) :
      Chunks D caps k pos info (c.buffer.emitted ++ l)

/-- The listing in pieces is the listing in one call. -/
def ChunksAgree (D : Directory) (caps : Nat → Nat) : Prop :=
  ∃ l, listing D = some l ∧ Chunks D caps 0 0 (sfsAllocDirInfo D) l

/-- A directory with a replica has a last one, and its sizes add up. -/
theorem last_replica (hr : D.replicas ≠ []) :
    D.replicas.zipIdx.getLast?.map (·.2) = some (D.replicas.length - 1) ∧
      (D.replicas.map (·.size)).sum ≠ 0 := by
  obtain ⟨r, rs, hrs⟩ := exists_cons_of_ne_nil hr
  constructor
  · rw [getLast?_zipIdx, getLast?_eq_some_getLast hr]
    exact congrArg (fun n => some (n - 1)) (zero_add _)
  · rw [hrs, map_cons, sum_cons]
    have := r.size_pos
    omega

/-- After a first call that emits something, the next one emits nothing. -/
theorem chunks_iff {caps : Nat → Nat} {l m : List (Dirent × Nat)} (hl : listing D = some l) :
    Chunks D caps 0 0 (sfsAllocDirInfo D) m ↔ m = l.take (caps 0) := by
  obtain ⟨c, hc, hem⟩ := iterate_take hl (caps 0)
  by_cases hnil : c.buffer.emitted = []
  · constructor
    · intro h
      cases h with
      | stop call nothing => exact hnil.symm.trans hem
      | more call some_entries rest =>
        cases hc.symm.trans call
        exact absurd hnil some_entries
    · rintro rfl
      rw [← hem, hnil]
      exact .stop hc hnil
  · have hr : D.replicas ≠ [] := by
      intro h0
      obtain ⟨t, hscan, rfl⟩ := Option.map_eq_some_iff.mp
        (show readAll D (sfsAllocDirInfo D) _ = some c from hc)
      rw [h0] at hscan
      cases hscan
      exact hnil rfl
    obtain ⟨hlast, hsum⟩ := last_replica hr
    obtain ⟨-, hpos, hlp, hcurr, hend, -⟩ := readAll_place hc
    have hend' : c.info.endFile = some (D.replicas.length - 1) := by
      rw [hend, hlast]
      rfl
    have hstop : ∀ {m'}, Chunks D caps 1 c.pos c.info m' ↔ m' = [] := by
      intro m'
      have hj : D.replicas.length ≤ D.replicas.length - 1 + 1 := by omega
      have hcall := sfsIterate_end (.taking (some (caps 1))) hlp (hpos ▸ hsum) hcurr hend' hj
      constructor
      · intro h
        cases h with
        | stop call nothing => rfl
        | more call some_entries rest =>
          cases hcall.symm.trans call
          exact absurd rfl some_entries
      · rintro rfl
        exact .stop hcall rfl
    constructor
    · intro h
      cases h with
      | stop call nothing =>
        cases hc.symm.trans call
        exact absurd nothing hnil
      | more call some_entries rest =>
        cases hc.symm.trans call
        rw [hstop.mp rest, append_nil, hem]
    · rintro rfl
      have h := Chunks.more hc hnil (hstop.mpr rfl)
      rw [append_nil, hem] at h
      exact h

/-- A listing in pieces is complete exactly when the first buffer takes all of
    it: what a full buffer refuses is not offered again. -/
theorem chunksAgree_iff (D : Directory) (caps : Nat → Nat) :
    ChunksAgree D caps ↔ Fits D ∧ ∀ l, listing D = some l → l.length ≤ caps 0 := by
  constructor
  · rintro ⟨l, hl, hc⟩
    refine ⟨listing_isSome_iff.mp ⟨l, hl⟩, fun l' hl' => ?_⟩
    obtain rfl : l = l' := Option.mem_unique hl hl'
    have hlen := congrArg length ((chunks_iff hl).mp hc)
    rw [length_take] at hlen
    omega
  · rintro ⟨hfit, hlen⟩
    obtain ⟨l, hl⟩ := listing_isSome_iff.mpr hfit
    refine ⟨l, hl, (chunks_iff hl).mpr ?_⟩
    exact (List.take_of_length_le (hlen l hl)).symm

theorem dot_name : (⟨dot, .dir⟩ : Dirent).name = dot := rfl

theorem dot_hashed : (⟨dot, .dir⟩ : Dirent).hashed = true := rfl

/-- A directory has a size. -/
theorem dirSize_pos : 0 < 4096 := by decide

/-- A replica with the entries `.`, `..` and one file. -/
def oneFile : ReplicaFile where
  entries := [⟨dot, .dir⟩, ⟨[46, 46], .dir⟩, ⟨[97], .other⟩]
  size := 4096
  self := ⟨dot, .dir⟩
  self_first := rfl
  self_name := dot_name
  self_hashed := dot_hashed
  size_pos := dirSize_pos

/-- A directory with one normal replica. -/
def smallDir : Directory := ⟨[oneFile], 4096, sum, 26⟩

theorem smallDir_listing : listing smallDir =
    some [(⟨dot, .dir⟩, 0), (⟨[46, 46], .dir⟩, 1), (⟨[97], .other⟩, 3)] := rfl

/-- A buffer for two entries: the file is never listed. -/
theorem smallDir_pieces_lose : ¬ ChunksAgree smallDir (fun _ => 2) := by
  rintro ⟨l, hl, hc⟩
  obtain rfl := Option.mem_unique smallDir_listing hl
  exact absurd ((chunks_iff hl).mp hc) (by decide)

end Chunks

/-! ## Seeks -/

section Seek

variable {D : Directory}

/-- The name is in the table. -/
def Known (D : Directory) (info : DirInfo) (name : Name) : Prop :=
  dirLookup info name (D.hash name) = true

variable {info : DirInfo} {m : Name} {e : Dirent} {s : DirInfo × Buffer}
  {rs : List (ReplicaFile × Nat)} {t : DirInfo × Buffer}

theorem known_iff {name : Name} :
    Known D info name ↔ ∃ e ∈ info.buckets (D.hash name % info.hashLen),
        e.hash = D.hash name ∧ e.name = name := by
  unfold Known dirLookup
  rw [any_eq_true]
  constructor
  · rintro ⟨e, he, hc⟩
    simp only [Bool.and_eq_true, beq_iff_eq] at hc
    exact ⟨e, he, hc.1.1, hc.2⟩
  · rintro ⟨e, he, hh, rfl⟩
    exact ⟨e, he, by simp [hh]⟩

theorem known_add {n : Name} :
    Known D (dirHashAdd info ⟨D.hash n, n⟩) m ↔ m = n ∨ Known D info m := by
  rw [known_iff, known_iff, dirHashAdd_buckets]
  show (∃ e ∈ if D.hash m % info.hashLen = D.hash n % info.hashLen then _ else _, _) ↔ _
  by_cases hmod : D.hash m % info.hashLen = D.hash n % info.hashLen
  · rw [if_pos hmod, ← hmod]
    constructor
    · rintro ⟨e, he, hh, hn⟩
      rcases mem_cons.mp he with rfl | he
      · exact .inl hn.symm
      · exact .inr ⟨e, he, hh, hn⟩
    · rintro (rfl | ⟨e, he, hh, hn⟩)
      · exact ⟨_, mem_cons_self, rfl, rfl⟩
      · exact ⟨e, mem_cons_of_mem _ he, hh, hn⟩
  · rw [if_neg hmod]
    constructor
    · exact .inr
    · rintro (rfl | h)
      · exact absurd rfl hmod
      · exact h

theorem known_enter :
    Known D (enter D e info) m ↔ (e.hashed = true ∧ m = e.name) ∨ Known D info m := by
  unfold enter
  split
  · next hh => rw [known_add, and_iff_right hh]
  · next hh => rw [or_iff_right fun h => hh h.1]

/-- What a callback knows and emits: a hashed name is known afterwards, a known
    name stays known, and no hashed name is emitted that was known. -/
theorem sfsFilldir_known {info' : DirInfo} {b b' : Buffer} {refused : Bool}
    (h : sfsFilldir D e (info, b) = some (refused, info', b')) :
    (e.hashed = true → Known D info' e.name) ∧ (∀ m, Known D info m → Known D info' m) ∧
      (b'.emitted = b.emitted ∨ (∃ pos, b'.emitted = b.emitted ++ [(e, pos)]) ∧
          (e.hashed = true → ¬ Known D info e.name)) := by
  have hself : e.hashed = true → Known D (enter D e info) e.name :=
    fun hh => known_enter.mpr (.inl ⟨hh, rfl⟩)
  have hold : ∀ m, Known D info m → Known D (enter D e info) m :=
    fun m hm => known_enter.mpr (.inr hm)
  cases sfsFilldir_offers h with
  | known _ hk => exact ⟨fun _ => hk, fun m hm => hm, .inl rfl⟩
  | full => exact ⟨hself, hold, .inl rfl⟩
  | taken hnew _ =>
    exact ⟨hself, hold, .inr ⟨⟨_, rfl⟩, fun hh hk =>
      nomatch (hnew hh).1.symm.trans hk⟩⟩

/-- An unlimited buffer gets every entry whose name is not known. -/
theorem sfsFilldir_emits {info' : DirInfo} {b b' : Buffer} {refused : Bool}
    (h : sfsFilldir D e (info, b) = some (refused, info', b'))
    (hb : b.left = none) (hk : ¬ Known D info e.name) :
    ∃ pos, b'.emitted = b.emitted ++ [(e, pos)] := by
  cases sfsFilldir_offers h with
  | known _ hl => exact absurd hl hk
  | full _ hf => cases hb.symm.trans hf
  | taken => exact ⟨_, rfl⟩

theorem step_known (e : Dirent) (s : DirInfo × Buffer) (r : Bool)
    (s' : DirInfo × Buffer) (h : sfsFilldir D e s = some (r, s'))
    (hm : Known D s.1 m) : Known D s'.1 m := (sfsFilldir_known h).2.1 m hm

theorem iterateFrom_known {es : List Dirent} {pos p : Nat} {s' : DirInfo × Buffer}
    (h : iterateFrom (sfsFilldir D) es pos s = some (p, s'))
    (hm : Known D s.1 m) : Known D s'.1 m :=
  iterateFrom_keeps (P := fun v => Known D v.1 m) (fun e _ => step_known e) h hm

theorem scan_known (h : scan D rs s = some t) (hm : Known D s.1 m) : Known D t.1 m :=
  scan_keeps (P := fun v => Known D v.1 m) (fun _ _ h => h) (fun _ _ _ h => h) step_known h hm

/-- `name` is known, and no hashed entry of that name has been emitted. -/
structure Filtered (D : Directory) (name : Name) (s : DirInfo × Buffer) :
    Prop where
  known : Known D s.1 name
  absent : ∀ x ∈ s.2.emitted, x.1.hashed = true → x.1.name ≠ name

theorem scan_filtered {name : Name} (h : scan D rs s = some t) (hs : Filtered D name s) :
    Filtered D name t := by
  refine scan_keeps (P := Filtered D name) (fun _ _ h => ⟨h.known, h.absent⟩)
    (fun _ _ _ h => ⟨h.known, h.absent⟩) ?_ h hs
  rintro e ⟨info, b⟩ r ⟨info', b'⟩ hf hv
  obtain ⟨-, hkeep, hem⟩ := sfsFilldir_known hf
  refine ⟨hkeep name hv.known, ?_⟩
  rcases hem with hem | ⟨⟨pos, hem⟩, hnew⟩
  · exact fun x hx => hv.absent x (hem ▸ hx)
  · intro x hx hh
    rcases mem_append.mp (hem ▸ hx) with hx | hx
    · exact hv.absent x hx hh
    · cases mem_singleton.mp hx
      rintro rfl
      exact hnew hh hv.known

/-- The first replica is entered with its own entry: `.` is known from then on,
    and an unlimited buffer on a new stream gets it. -/
theorem scan_self {r : ReplicaFile} {i : Nat} (h : scan D ((r, i) :: rs) s = some t)
    (hpos : s.1.fPos i = 0) :
    Known D t.1 dot ∧ (s.2.left = none → (∀ j, s.1.buckets j = []) →
        ∃ pos, (r.self, pos) ∈ t.2.emitted) := by
  obtain ⟨p, s', hit, hrest⟩ := scan_cons.mp h
  obtain ⟨es, hes⟩ : ∃ es, r.entries = r.self :: es := by
    have hfirst := r.self_first
    cases hr : r.entries with
    | nil => rw [hr] at hfirst; exact nomatch hfirst
    | cons e es =>
      rw [hr] at hfirst
      exact ⟨es, by rw [Option.some.inj hfirst]⟩
  rw [hpos, drop_zero, hes, iterateFrom] at hit
  obtain ⟨info, b⟩ := s
  -- the state after the first entry, and the rest of the replica from there
  obtain ⟨refused, ⟨info₁, b₁⟩, hfill, hknown, hmore⟩ : ∃ refused v,
      sfsFilldir D r.self (enterReplica i (info, b)) = some (refused, v) ∧
      (∀ m, Known D v.1 m → Known D s'.1 m) ∧
      (v.2.left = none → s'.2.left = none ∧ v.2.emitted <+: s'.2.emitted) := by
    split at hit
    · cases hit
    · next v hv =>
      obtain ⟨-, rfl⟩ := Prod.mk.inj (Option.some.inj hit)
      exact ⟨true, v, hv, fun m hm => hm, fun hl => ⟨hl, prefix_refl _⟩⟩
    · next v hv =>
      exact ⟨false, v, hv, fun m hm => iterateFrom_known hit hm, iterateFrom_unlimited hit⟩
  constructor
  · have hself := hknown _ ((sfsFilldir_known hfill).1 r.self_hashed)
    rw [r.self_name] at hself
    exact scan_known hrest hself
  · intro hleft hempty
    have hnew : ¬ Known D (enterReplica i (info, b)).1 r.self.name := by
      rw [known_iff]
      rintro ⟨e, he, -⟩
      exact nomatch (hempty _ ▸ he : e ∈ [])
    obtain ⟨pos, hem⟩ := sfsFilldir_emits hfill hleft hnew
    obtain ⟨hl', hpre⟩ := hmore ((sfsFilldir_offers hfill).unlimited hleft).2.1
    have hpre' := hpre.trans (scan_unlimited hrest hl').2
    refine ⟨pos, hpre'.subset ?_⟩
    show (r.self, pos) ∈ b₁.emitted
    rw [hem]
    exact mem_append_right _ (.head _)

/-! A stream between calls, and calls in a row. -/

/-- The position, the stream, and the offsets passed to the caller so far. -/
structure Session where
  pos : Nat
  info : DirInfo
  offered : List Nat

def Session.opened (D : Directory) : Session := ⟨0, sfsAllocDirInfo D, []⟩

/-- One call of `sfs_iterate`, with a buffer for `n` entries. -/
def Session.call (D : Directory) (s : Session) (n : Option Nat) : Option Session :=
  (sfsIterate D s.pos s.info (.taking n)).map
    (fun c => ⟨c.pos, c.info, s.offered ++ c.buffer.offered⟩)

/-- The stream after calls with the given buffers. -/
def Session.after (D : Directory) : Session → List (Option Nat) → Option Session
  | s, [] => some s
  | s, n :: ns => (s.call D n).bind (fun s' => s'.after D ns)

/-- What a call emits after a seek to `q`. -/
def Session.emitsFrom (D : Directory) (s : Session) (q : Nat) : Option (List Dirent) :=
  (sfsIterate D q s.info (.taking none)).map (·.buffer.emitted.map Prod.fst)

/-- After calls with the buffers `caps`, a seek to the start lists everything again, and a
    seek to an offset the caller was given lists the entries from there on. -/
def Repositions (D : Directory) (caps : List (Option Nat)) : Prop :=
  ∃ s l, (Session.opened D).after D caps = some s ∧ listing D = some l ∧
    s.emitsFrom D 0 = some (l.map Prod.fst) ∧
    ∀ q ∈ s.offered, s.emitsFrom D q = some ((l.filter (fun x => q ≤ x.2)).map Prod.fst)

/-- The stream stands at the end of the directory. -/
structure AtEnd (D : Directory) (s : Session) : Prop where
  last : s.info.lastPos = s.pos
  pos : s.pos = (D.replicas.map (·.size)).sum
  curr : s.info.currFile = none
  ended : s.info.endFile = some (D.replicas.length - 1)
  hashLen : s.info.hashLen = caculateHashLen D.size

/-- Calls at the end leave the stream there. -/
theorem after_end (hr : D.replicas ≠ []) {ns : List (Option Nat)} {s t : Session}
    (h : s.after D ns = some t) (hs : AtEnd D s ∧ Known D s.info dot) :
    AtEnd D t ∧ Known D t.info dot := by
  induction ns generalizing s with
  | nil =>
    cases h
    exact hs
  | cons n ns ih =>
    obtain ⟨s₁, h₁, hrest⟩ := Option.bind_eq_some_iff.mp h
    obtain ⟨c, hc, rfl⟩ := Option.map_eq_some_iff.mp h₁
    have hj : D.replicas.length ≤ D.replicas.length - 1 + 1 := by omega
    rw [sfsIterate_end _ hs.1.last (hs.1.pos ▸ (last_replica hr).2) hs.1.curr hs.1.ended hj] at hc
    cases hc
    exact ih hrest ⟨⟨hs.1.last, hs.1.pos, hs.1.curr, hs.1.ended, hs.1.hashLen⟩, hs.2⟩

/-- The first call takes the stream to its end and further calls leave it there; `.` is known. -/
theorem after_first (hr : D.replicas ≠ []) {n : Option Nat} {ns : List (Option Nat)} {s : Session}
    (h : (Session.opened D).after D (n :: ns) = some s) :
    AtEnd D s ∧ Known D s.info dot := by
  obtain ⟨s₁, h₁, hrest⟩ := Option.bind_eq_some_iff.mp h
  obtain ⟨c, hc, rfl⟩ := Option.map_eq_some_iff.mp h₁
  obtain ⟨hlast, hsum⟩ := last_replica hr
  have hfirst : AtEnd D ⟨c.pos, c.info, c.buffer.offered⟩ ∧ Known D c.info dot := by
    obtain ⟨-, hpos, hlp, hcurr, hend, hlen⟩ := readAll_place
      (show readAll D (sfsAllocDirInfo D) _ = some c from hc)
    refine ⟨⟨hlp, hpos, hcurr, ?_, hlen⟩, ?_⟩
    · rw [hend, hlast]
      rfl
    · obtain ⟨t, hscan, rfl⟩ := Option.map_eq_some_iff.mp
        (show readAll D (sfsAllocDirInfo D) _ = some c from hc)
      obtain ⟨r, rs, hrs⟩ := exists_cons_of_ne_nil hr
      rw [hrs] at hscan
      exact (scan_self hscan rfl).1
  exact after_end hr hrest hfirst

/-- A seek to the start finds the first replica. -/
theorem sfsDirSeek_zero (hr : D.replicas ≠ []) (info : DirInfo) : sfsDirSeek D info 0 = some (0,
      { info with
        currFile := some 0
        currMajorPos := 0
        currMinorPos := 0
        fPos := update info.fPos 0 0 }) := by
  obtain ⟨r, rs, hrs⟩ := exists_cons_of_ne_nil hr
  have hloc : locate D.replicas.zipIdx 0 0 = (some (r, 0), 0, 0) := by
    rw [hrs, zipIdx_cons, locate, if_neg (not_le.mpr r.size_pos)]
  rw [sfsDirSeek, hloc]
  exact if_pos rfl

/-- A seek to the start, from the end: the whole directory is read again, with
    the table as it is. -/
theorem sfsIterate_again (hr : D.replicas ≠ []) {s : Session} (hs : AtEnd D s)
    (b : Buffer) : ∃ info : DirInfo, sfsIterate D 0 s.info b = readAll D info b ∧
      info.buckets = s.info.buckets ∧ info.hashLen = s.info.hashLen := by
  have hpos : (0 : Nat) ≠ s.info.lastPos := by
    rw [hs.last, hs.pos]
    exact (last_replica hr).2.symm
  have hsame : sfsRefreshHashDirent D s.info = s.info := by
    unfold sfsRefreshHashDirent
    rw [hs.hashLen]
    exact if_neg (by omega)
  refine ⟨rewound s.info, ?_, rfl, rfl⟩
  rw [sfsIterate, if_pos hpos, hsame, sfsDirSeek_zero hr]
  rfl

/-- A directory without normal replicas: a call at its only position. -/
theorem sfsIterate_empty (hr : D.replicas = []) (hlast : info.lastPos = 0) (b : Buffer) :
    ∃ c, sfsIterate D 0 info b = some c ∧ c.pos = 0 ∧ c.info.lastPos = 0 ∧ c.buffer = b := by
  have hcall : sfsIterate D 0 info b = readAll D info b := by
    rw [sfsIterate, if_neg (by simp [hlast])]
    rfl
  rw [hcall, readAll, hr]
  exact ⟨_, rfl, rfl, rfl, rfl⟩

theorem after_empty (hr : D.replicas = []) (caps : List (Option Nat))
    {s : Session} (hpos : s.pos = 0) (hlast : s.info.lastPos = 0) :
    ∃ t, s.after D caps = some t ∧ t.info.lastPos = 0 ∧ t.offered = s.offered := by
  induction caps generalizing s with
  | nil => exact ⟨s, rfl, hlast, rfl⟩
  | cons n ns ih =>
    obtain ⟨c, hc, hcpos, hclast, hcb⟩ :=
      sfsIterate_empty hr hlast (.taking n)
    obtain ⟨t, ht, htl, hto⟩ := ih
      (s := ⟨c.pos, c.info, s.offered ++ c.buffer.offered⟩) hcpos hclast
    refine ⟨t, ?_, htl, ?_⟩
    · rw [Session.after, Session.call, hpos, hc]
      exact ht
    · rw [hto, hcb]
      exact append_nil _

/-- A seek works only as long as nothing has been listed: the names in the
    table are not listed again, and `.` is one of them. -/
theorem repositions_iff (D : Directory) (caps : List (Option Nat)) :
    Repositions D caps ↔ Fits D ∧ (caps = [] ∨ D.replicas = []) := by
  constructor
  · rintro ⟨s, l, hs, hl, hzero, -⟩
    refine ⟨listing_isSome_iff.mp ⟨l, hl⟩, ?_⟩
    cases caps with
    | nil => exact Or.inl rfl
    | cons n ns =>
      refine Or.inr (Classical.byContradiction fun hr => ?_)
      obtain ⟨hend, hdot⟩ := after_first hr hs
      obtain ⟨r, rs, hrs⟩ := List.exists_cons_of_ne_nil hr
      -- the listing has the entry of the first replica for itself
      obtain ⟨c, hc, rfl⟩ := Option.map_eq_some_iff.mp hl
      obtain ⟨t, hscan, rfl⟩ := Option.map_eq_some_iff.mp
        (show readAll D (sfsAllocDirInfo D) _ = some c from hc)
      have hfirst := hscan
      rw [hrs] at hfirst
      obtain ⟨pos, hmem⟩ := (scan_self hfirst rfl).2 rfl (fun _ => rfl)
      -- the second listing has no such entry
      obtain ⟨info, hagain, hbuckets, hlen⟩ :=
        sfsIterate_again hr hend (.taking none)
      obtain ⟨c', hc', hem⟩ := Option.map_eq_some_iff.mp hzero
      rw [hagain] at hc'
      obtain ⟨t', hscan', rfl⟩ := Option.map_eq_some_iff.mp hc'
      have hknown : Known D (rewound info) dot := by
        rw [known_iff] at hdot ⊢
        show ∃ e ∈ info.buckets (D.hash dot % info.hashLen), _
        rw [hbuckets, hlen]
        exact hdot
      have hfil : Filtered D dot t' := scan_filtered hscan' ⟨hknown, nofun⟩
      have hself : r.self ∈ t'.2.emitted.map Prod.fst := by
        show r.self ∈ map Prod.fst _
        rw [show t'.2.emitted.map Prod.fst = t.2.emitted.map Prod.fst from hem]
        exact mem_map.mpr ⟨(r.self, pos), hmem, rfl⟩
      obtain ⟨x, hx, hxr⟩ := mem_map.mp hself
      exact hfil.absent x hx (hxr ▸ r.self_hashed) (hxr ▸ r.self_name)
  · rintro ⟨hfit, hcaps⟩
    obtain ⟨l, hl⟩ := listing_isSome_iff.mpr hfit
    rcases hcaps with rfl | hr
    · refine ⟨Session.opened D, l, rfl, hl, ?_, nofun⟩
      obtain ⟨c, hc, rfl⟩ := Option.map_eq_some_iff.mp hl
      exact Option.map_eq_some_iff.mpr ⟨c, hc, rfl⟩
    · obtain ⟨s, hs, hlast, hoff⟩ :=
        after_empty hr caps (s := Session.opened D) rfl rfl
      obtain ⟨c, hc, -, -, hcb⟩ :=
        sfsIterate_empty hr (sfsAllocDirInfo_lastPos D) (.taking none)
      obtain ⟨c', hc', -, -, hcb'⟩ := sfsIterate_empty hr hlast (.taking none)
      have hnil : listing D = some [] :=
        Option.map_eq_some_iff.mpr ⟨c, hc, by rw [hcb]; rfl⟩
      refine ⟨s, [], hs, hnil, ?_, ?_⟩
      · exact Option.map_eq_some_iff.mpr ⟨c', hc', by rw [hcb']; rfl⟩
      · rw [hoff]
        exact nofun

/-- One pass over a small directory, then back to the start: neither `.` nor `..` is listed. -/
theorem smallDir_rewind_loses : ¬ Repositions smallDir [none] := by
  rintro ⟨s, l, hs, hl, hzero, -⟩
  obtain rfl := Option.mem_unique smallDir_listing hl
  obtain rfl := Option.some.inj hs
  exact absurd (Option.some.inj hzero) (by decide)

end Seek

end Readdir
