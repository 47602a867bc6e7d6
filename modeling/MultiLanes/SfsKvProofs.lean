import MultiLanes.FormatProofs
import MultiLanes.SfsStateProofs
import Mathlib.Data.Fin.VecNotation
import Mathlib.Tactic.FinCases

/-! # SFS — the meta attribute

The four links of a file are stored in an extended attribute, as text in a block of
bytes: `put` stores 15 bytes, `modify` and `reset` store 20, and what lies behind the
text is whatever the buffer on the stack held.  `get` and `modify` read the block into a
buffer of 20 bytes and scan it.

A text that is longer than the buffer overruns it: such a call has no result.
`vfs_setxattr` may refuse, and then nothing is stored.

`get` reads by `vfs_getxattr`, which hides the attribute from a caller without
`CAP_SYS_ADMIN`; `modify` reads by `generic_getxattr`, which asks the handlers of the
super block and finds nothing where none of them is for `trusted.`, as on tmpfs. -/

namespace SfsKv

open TextFormat Function

/-- `int pointer[4]`. -/
abbrev Pointers : Type := Fin 4 → Int32

/-- `{-1, -1, -1, -1}`. -/
def unset : Pointers := fun _ => -1

/-- `"%d:%d:%d:%d"`. -/
def format : List Item :=
  [.int, .lit 58, .int, .lit 58, .int, .lit 58, .int]

def text (v : Pointers) : List UInt8 :=
  print format (List.ofFn fun i => (v i).toInt)

/-! ## Buffers -/

/-- `char buf[n]`. -/
abbrev Buf (n : Nat) : Type := Vector UInt8 n

variable {n : Nat}

/-- Bytes are written to the front of the buffer. -/
def fill (buf : Buf n) (bs : List UInt8) (h : bs.length ≤ n) : Buf n :=
  ⟨(bs ++ buf.toList.drop bs.length).toArray, by simp; omega⟩

/-- `sprintf(buf, "%d:%d:%d:%d", ..)`. -/
def sprintf (buf : Buf n) (v : Pointers) : Option (Buf n) :=
  if h : (text v ++ [0]).length ≤ n then some (fill buf (text v ++ [0]) h)
  else none

/-- `sscanf(buf, "%d:%d:%d:%d", ..)`; a conversion that is not reached leaves its
    variable as it is. -/
def sscanf (buf : Buf n) (value : Pointers) : Pointers := fun i =>
  match (scan format buf.toList)[i.val]? with
  | some z => Int32.ofInt z
  | none => value i

/-! ## Attributes -/

/-- The extended attributes of the dentries, by their keys. -/
abbrev Attrs : Type := Nat → String → Option (List UInt8)

/-- `vfs_setxattr`, which answers `err`. -/
def setxattr (err : Int) (s : Attrs) (dentry : Nat) (key : String)
    (value : List UInt8) : Int × Attrs :=
  (err, if err = 0 then
    update s dentry (update (s dentry) key (some value))
  else s)

/-- `i_op->getxattr`: the size, or `-ENODATA` or `-ERANGE`. -/
def getxattr (s : Attrs) (dentry : Nat) (key : String) (buf : Buf n) : Int × Buf n :=
  match s dentry key with
  | none => (-61, buf)
  | some value =>
    if h : value.length ≤ n then (value.length, fill buf value h)
    else (-34, buf)

/-- `vfs_getxattr` of an attribute `trusted.*`; `admin` is `capable(CAP_SYS_ADMIN)`. -/
def vfsGetxattr (admin : Bool) (s : Attrs) (dentry : Nat) (key : String)
    (buf : Buf n) : Int × Buf n :=
  if admin then getxattr s dentry key buf else (-61, buf)

/-- `generic_getxattr`; `handled` says whether `s_xattr` has a handler for `trusted.`,
    which then reads as `i_op->getxattr` does.  Otherwise it answers `-EOPNOTSUPP`. -/
def genericGetxattr (handled : Bool) (s : Attrs) (dentry : Nat) (key : String)
    (buf : Buf n) : Int × Buf n :=
  if handled then getxattr s dentry key buf else (-95, buf)

/-! ## `kv.c` -/

def reset (err : Int) (s : Attrs) (dentry : Nat) (key : String) (buf : Buf 20) :
    Option (Int × Attrs) := do
  let buf ← sprintf buf unset
  return setxattr err s dentry key buf.toList

def modify (handled : Bool) (err : Int) (s : Attrs) (dentry : Nat) (key : String)
    (value : Int32) (sequence : Fin 4) (buf : Buf 20) :
    Option (Int × Attrs) := do
  let (ret, buf) := genericGetxattr handled s dentry key buf
  let pointer := if 0 < ret then sscanf buf unset else unset
  let buf ← sprintf buf (update pointer sequence value)
  return setxattr err s dentry key buf.toList

def put (err : Int) (s : Attrs) (dentry : Nat) (key : String) (value : Pointers)
    (buf : Buf 15) : Option (Int × Attrs) := do
  let buf ← sprintf buf value
  return setxattr err s dentry key buf.toList

def get (admin : Bool) (s : Attrs) (dentry : Nat) (key : String) (value : Pointers)
    (buf : Buf 20) : Int × Pointers :=
  let (ret, buf) := vfsGetxattr admin s dentry key buf
  (ret, if 0 < ret then sscanf buf value else value)

/-! ## The text of four integers -/

theorem format_parted : Parted format := by
  simp [Parted, format]
  decide

theorem fill_toList (buf : Buf n) (bs : List UInt8) (h : bs.length ≤ n) :
    (fill buf bs h).toList = bs ++ buf.toList.drop bs.length := rfl

/-- The text, its end and anything behind it. -/
theorem sscanf_text {buf : Buf n} {v : Pointers} {tail : List UInt8}
    (h : buf.toList = text v ++ 0 :: tail) (value : Pointers) :
    sscanf buf value = v := by
  have hblunt : Blunt (0 :: tail) := by
    rintro b ⟨⟩
    decide
  have hscan : scan format buf.toList = List.ofFn fun i => (v i).toInt := by
    rw [h]
    exact scan_print format_parted (List.length_ofFn ..) hblunt
  funext i
  have hi : (List.ofFn fun i => (v i).toInt)[i.val]? = some (v i).toInt := by
    rw [List.getElem?_ofFn, dif_pos i.isLt]
  rw [sscanf, hscan, hi]
  exact Int32.ofInt_toInt _

/-- The text fits into a buffer of `n` bytes, with its end. -/
def Fits (n : Nat) (v : Pointers) : Prop := (text v).length + 1 ≤ n

theorem sprintf_fits {v : Pointers} (h : Fits n v) (buf : Buf n) :
    ∃ buf' tail, sprintf buf v = some buf' ∧ buf'.toList = text v ++ 0 :: tail := by
  have hlen : (text v ++ [0]).length ≤ n := by
    rw [List.length_append]
    exact h
  refine ⟨fill buf _ hlen, buf.toList.drop (text v ++ [0]).length, dif_pos hlen, ?_⟩
  rw [fill_toList, List.append_assoc]
  rfl

/-! ## Partition ids fit -/

/-- A field that is -1 or the id of a partition. -/
def IsId (x : Int32) : Prop := x = -1 ∨ (0 ≤ x.toInt ∧ x.toInt < 64)

variable {s : Attrs} {dentry : Nat} {key : String} {v value : Pointers}

theorem text_length (v : Pointers) : (text v).length
    = (intText (v 0).toInt).length + (intText (v 1).toInt).length
      + (intText (v 2).toInt).length + (intText (v 3).toInt).length + 3 := by
  have hlist : (List.ofFn fun i => (v i).toInt)
      = [(v 0).toInt, (v 1).toInt, (v 2).toInt, (v 3).toInt] := by
    simp [List.ofFn_succ]
  rw [text, hlist]
  simp only [format, print, List.length_append, List.length_cons, List.length_nil]
  omega

theorem IsId.length_le {x : Int32} (h : IsId x) : (intText x.toInt).length ≤ 2 := by
  rcases h with rfl | ⟨h0, h64⟩
  · exact Nat.le_of_eq (by decide)
  · have hlen := intText_length_le (k := 2) (z := x.toInt) (by decide) (by omega)
    rwa [if_neg (Int.not_lt.mpr h0)] at hlen

theorem fits_of_isId (h : ∀ i, IsId (v i)) (hn : 15 ≤ n) : Fits n v := by
  have h0 := (h 0).length_le
  have h1 := (h 1).length_le
  have h2 := (h 2).length_le
  have h3 := (h 3).length_le
  rw [Fits, text_length]
  omega

theorem isId_unset (i : Fin 4) : IsId (unset i) := .inl rfl

/-! ## What is stored -/

/-- The attribute holds the four integers: their text comes first, and the block
    can be read into a buffer of 20 bytes. -/
def Holds (s : Attrs) (dentry : Nat) (key : String) (v : Pointers) : Prop :=
  ∃ tail, s dentry key = some (text v ++ 0 :: tail) ∧ (text v ++ 0 :: tail).length ≤ 20

theorem holds_setxattr {buf : Buf n} {tail : List UInt8} (hn : n ≤ 20)
    (hbuf : buf.toList = text v ++ 0 :: tail) :
    Holds (setxattr 0 s dentry key buf.toList).2 dentry key v := by
  refine ⟨tail, ?_, ?_⟩
  · show update s dentry (update (s dentry) key _) dentry key = _
    rw [update_self, update_self, hbuf]
  · rw [← hbuf, Vector.length_toList]
    exact hn

/-- `get` reads what the attribute holds, whatever the buffer and the array of
    the caller hold. -/
theorem Holds.get (h : Holds s dentry key v) (value : Pointers) (buf : Buf 20) :
    0 < (get true s dentry key value buf).1 ∧ (get true s dentry key value buf).2 = v := by
  obtain ⟨tail, hattr, hlen⟩ := h
  have hread : vfsGetxattr true s dentry key buf
      = (((text v ++ 0 :: tail).length : Int), fill buf _ hlen) := by
    rw [vfsGetxattr, if_pos rfl, getxattr, hattr]
    exact dif_pos hlen
  have hpos : (0 : Int) < ((text v ++ 0 :: tail).length : Int) := by
    rw [List.length_append, List.length_cons]
    omega
  rw [SfsKv.get, hread]
  refine ⟨hpos, ?_⟩
  show (if 0 < ((text v ++ 0 :: tail).length : Int) then _ else _) = v
  rw [if_pos hpos]
  exact sscanf_text (by rw [fill_toList, List.append_assoc]; rfl) value

/-- The writers: the text is stored, in a block of the size of the buffer. -/
theorem holds_put (h : Fits 15 v) (s : Attrs) (dentry : Nat) (key : String) (buf : Buf 15) :
    ∃ s', put 0 s dentry key v buf = some (0, s') ∧ Holds s' dentry key v := by
  obtain ⟨buf', tail, hprint, hbuf⟩ := sprintf_fits h buf
  rw [put, hprint]
  exact ⟨_, rfl, holds_setxattr (by decide) hbuf⟩

theorem holds_reset (s : Attrs) (dentry : Nat) (key : String) (buf : Buf 20) :
    ∃ s', reset 0 s dentry key buf = some (0, s') ∧ Holds s' dentry key unset := by
  obtain ⟨buf', tail, hprint, hbuf⟩ :=
    sprintf_fits (fits_of_isId isId_unset (by decide)) buf
  rw [reset, hprint]
  exact ⟨_, rfl, holds_setxattr (by decide) hbuf⟩

/-- What `modify` starts from: what `get` reads into an array of -1, or four times -1
    where there is no handler. -/
def seen (handled : Bool) (s : Attrs) (dentry : Nat) (key : String) (buf : Buf 20) : Pointers :=
  if handled then (get true s dentry key unset buf).2 else unset

theorem modify_eq (handled : Bool) (s : Attrs) (dentry : Nat) (key : String) (x : Int32)
    (k : Fin 4) (buf : Buf 20) : modify handled 0 s dentry key x k buf
      = sprintf (genericGetxattr handled s dentry key buf).2
          (update (seen handled s dentry key buf) k x) >>= fun buf =>
        some (setxattr 0 s dentry key buf.toList) := by
  cases handled <;> rfl

/-- `modify` replaces one field of what it has read. -/
theorem holds_modify {handled : Bool} {x : Int32} {k : Fin 4} (buf : Buf 20)
    (h : Fits 20 (update (seen handled s dentry key buf) k x)) :
    ∃ s', modify handled 0 s dentry key x k buf = some (0, s') ∧ Holds s' dentry key
          (update (seen handled s dentry key buf) k x) := by
  obtain ⟨buf', tail, hprint, hbuf⟩ :=
    sprintf_fits h (genericGetxattr handled s dentry key buf).2
  rw [modify_eq, hprint]
  exact ⟨_, rfl, holds_setxattr (by decide) hbuf⟩

/-! ## The codec -/

/-- What `put`, `modify` and `reset` store is what `get` reads: `put` all four
    fields, `modify` those that `get` read before with one of them replaced, or
    -1 in the others where there was no attribute, and `reset` four times -1,
    whatever was there.  Fields that are -1 or the id of a partition fit into
    all the buffers. -/
def MetaCodec (admin handled : Bool) (s : Attrs) (dentry : Nat) (key : String) : Prop :=
  (∀ v buf, Fits 15 v → ∃ s', put 0 s dentry key v buf = some (0, s')
      ∧ ∀ value buf', 0 < (get admin s' dentry key value buf').1
        ∧ (get admin s' dentry key value buf').2 = v)
    ∧ (∀ x k buf previous, (get admin s dentry key unset buf).2 = previous →
        Fits 20 (update previous k x) →
        ∃ s', modify handled 0 s dentry key x k buf = some (0, s')
          ∧ ∀ value buf', 0 < (get admin s' dentry key value buf').1
            ∧ (get admin s' dentry key value buf').2 = update previous k x)
    ∧ (s dentry key = none → ∀ buf, (get admin s dentry key unset buf).2 = unset)
    ∧ (∀ buf, ∃ s', reset 0 s dentry key buf = some (0, s')
      ∧ ∀ value buf', 0 < (get admin s' dentry key value buf').1
        ∧ (get admin s' dentry key value buf').2 = unset)
    ∧ ∀ v, (∀ i, IsId (v i)) → Fits 15 v ∧ Fits 20 v

/-- No other field is set than the one that is modified, where the text fits. -/
def Lone (s : Attrs) (dentry : Nat) (key : String) : Prop :=
  ∀ buf x k, Fits 20 (update (seen true s dentry key buf) k x) →
    ∀ i, i ≠ k → seen true s dentry key buf i = -1

theorem get_of_none (h : s dentry key = none) (admin : Bool) (buf : Buf 20) :
    (get admin s dentry key unset buf).2 = unset := by
  rw [get, vfsGetxattr, getxattr, h]
  cases admin <;> rfl

/-- A field by field comparison of two arrays that differ from one at most. -/
theorem update_eq_unset {x : Int32} {k : Fin 4} :
    update v k x = update unset k x ↔ ∀ i, i ≠ k → v i = -1 := by
  constructor
  · intro h i hi
    have hv := congrFun h i
    rwa [update_of_ne hi, update_of_ne hi] at hv
  · intro h
    funext i
    by_cases hi : i = k
    · rw [hi, update_self, update_self]
    · rw [update_of_ne hi, update_of_ne hi]
      exact h i hi

/-- Without a handler the other fields are lost. -/
theorem lone_of_modify (h : MetaCodec true false s dentry key) : Lone s dentry key := by
  intro buf x k hfits
  obtain ⟨s', hmodify, hget⟩ := h.2.1 x k buf _ rfl hfits
  rw [modify_eq] at hmodify
  by_cases hunset : Fits 20 (update (seen false s dentry key buf) k x)
  · obtain ⟨t, ht, hholds⟩ := holds_modify buf hunset
    rw [modify_eq, hmodify] at ht
    cases ht
    have hlost := (hget unset buf).2.symm.trans (hholds.get unset buf).2
    exact update_eq_unset.mp hlost
  · have hnone : sprintf (genericGetxattr false s dentry key buf).2
        (update (seen false s dentry key buf) k x) = none :=
      dif_neg (by rwa [List.length_append])
    rw [hnone] at hmodify
    exact nomatch hmodify

/-- The codec works for callers that may read the attribute, on file systems that
    have a handler for it; without one it works as long as no other field is set. -/
theorem meta_codec_iff (admin handled : Bool) (s : Attrs) (dentry : Nat) (key : String) :
    MetaCodec admin handled s dentry key ↔
      admin = true ∧ (handled = true ∨ Lone s dentry key) := by
  constructor
  · intro h
    cases admin with
    | false =>
      obtain ⟨s', -, hget⟩ := h.2.2.2.1 (.replicate 20 0)
      have hread : (0 : Int) < -61 := (hget unset (.replicate 20 0)).1
      exact absurd hread (by decide)
    | true =>
      cases handled with
      | true => exact ⟨rfl, .inl rfl⟩
      | false => exact ⟨rfl, .inr (lone_of_modify h)⟩
  · rintro ⟨rfl, hsite⟩
    refine ⟨fun v buf hfits => ?_, ?_, fun hnone => get_of_none hnone true, fun buf => ?_,
      fun v hv => ⟨fits_of_isId hv (by decide), fits_of_isId hv (by decide)⟩⟩
    · obtain ⟨s', hput, hs'⟩ := holds_put hfits s dentry key buf
      exact ⟨s', hput, hs'.get⟩
    · rintro x k buf previous rfl hfits
      have hsame : update (seen handled s dentry key buf) k x
          = update (get true s dentry key unset buf).2 k x := by
        rcases hsite with rfl | hlone
        · rfl
        · cases handled with
          | true => rfl
          | false => exact (update_eq_unset.mpr (hlone buf x k hfits)).symm
      obtain ⟨s', hmodify, hs'⟩ := holds_modify buf (hsame ▸ hfits)
      exact ⟨s', hmodify, hsame ▸ hs'.get⟩
    · obtain ⟨s', hreset, hs'⟩ := holds_reset s dentry key buf
      exact ⟨s', hreset, hs'.get⟩

/-- A meta file with one link. -/
def pointed : Pointers := ![1, -1, -1, -1]

/-- Its attribute. -/
def linked : Attrs := fun _ _ => some (text pointed ++ [0])

/-- On tmpfs `modify` of a second link forgets the first. -/
theorem modify_forgets : ¬ MetaCodec true false linked 0 "trusted.sfs.meta" := by
  intro h
  have hid : ∀ i, IsId (pointed i) := by
    intro i
    fin_cases i
    · exact .inr ⟨by decide, by decide⟩
    all_goals exact .inl rfl
  have hfits : Fits 15 pointed := fits_of_isId hid (by decide)
  have hholds : Holds linked 0 "trusted.sfs.meta" pointed := by
    refine ⟨[], rfl, ?_⟩
    rw [List.length_append]
    exact hfits.trans (by decide)
  have hseen : seen true linked 0 "trusted.sfs.meta" (.replicate 20 0) = pointed :=
    (hholds.get unset _).2
  have hset : Fits 20 (update pointed 1 2) := by
    refine fits_of_isId (fun i => ?_) (by decide)
    fin_cases i
    · exact hid 0
    · exact .inr ⟨by decide, by decide⟩
    · exact hid 2
    · exact hid 3
  have hlost := lone_of_modify h (.replicate 20 0) 2 1 (hseen ▸ hset) 0 (by decide)
  rw [hseen] at hlost
  exact absurd hlost (by decide)

/-! ## The links of a file

The rest of the model has the attribute as four links (`Sfs.Ptrs`).  Stored as bytes
they are what the calls on the links say. -/

def idOf : Option Nat → Int32
  | none => -1
  | some p => Int32.ofNat p

/-- `POINTER`, `RENAME`, `HIDDEN` and `STALE`. -/
def link (a : Sfs.Ptrs) : Fin 4 → Option Nat :=
  ![a.pointer, a.rename, a.hidden, a.stale]

def setLink (a : Sfs.Ptrs) (k : Fin 4) (x : Option Nat) : Sfs.Ptrs :=
  match k with
  | 0 => { a with pointer := x }
  | 1 => { a with rename := x }
  | 2 => { a with hidden := x }
  | 3 => { a with stale := x }

def vector (a : Sfs.Ptrs) : Pointers := fun i => idOf (link a i)

theorem link_setLink (a : Sfs.Ptrs) (k : Fin 4) (x : Option Nat) :
    link (setLink a k x) = update (link a) k x := by
  funext i
  fin_cases k <;> fin_cases i <;> rfl

theorem vector_setLink (a : Sfs.Ptrs) (k : Fin 4) (x : Option Nat) :
    vector (setLink a k x) = update (vector a) k (idOf x) := by
  funext i
  rw [vector, link_setLink]
  by_cases hi : i = k
  · rw [hi, update_self, update_self]
  · rw [update_of_ne hi, update_of_ne hi]
    rfl

theorem link_unset (i : Fin 4) : link Sfs.Ptrs.unset i = none := by
  fin_cases i <;> rfl

theorem vector_unset : vector Sfs.Ptrs.unset = unset := by
  funext i
  rw [vector, link_unset]
  rfl

/-- Every link names one of at most 64 partitions. -/
def Linked (a : Sfs.Ptrs) : Prop := ∀ i, ∀ p ∈ link a i, p < 64

theorem linked_unset : Linked Sfs.Ptrs.unset := by
  intro i p hp
  rw [link_unset] at hp
  exact nomatch hp

theorem Linked.setLink {a : Sfs.Ptrs} (h : Linked a) (k : Fin 4)
    {x : Option Nat} (hx : ∀ p ∈ x, p < 64) : Linked (setLink a k x) := by
  intro i
  rw [link_setLink]
  by_cases hi : i = k
  · rw [hi, update_self]
    exact hx
  · rw [update_of_ne hi]
    exact h i

theorem Linked.isId {a : Sfs.Ptrs} (h : Linked a) (i : Fin 4) : IsId (vector a i) := by
  have hi := h i
  rw [vector]
  generalize link a i = x at hi
  cases x with
  | none => exact .inl rfl
  | some p =>
    have hp := hi p rfl
    right
    show 0 ≤ (Int32.ofNat p).toInt ∧ (Int32.ofNat p).toInt < 64
    rw [Int32.toInt_ofNat_of_lt (by omega)]
    omega

/-- The attribute in bytes stores the attribute in links. -/
def Stores (s : Attrs) (dentry : Nat) (key : String) : Option Sfs.Ptrs → Prop
  | none => s dentry key = none
  | some a => Linked a ∧ Holds s dentry key (vector a)

variable {a : Option Sfs.Ptrs}

theorem Stores.seen (h : Stores s dentry key a) (buf : Buf 20) :
    seen true s dentry key buf = vector (a.getD Sfs.Ptrs.unset) := by
  cases a with
  | none => exact (get_of_none h true buf).trans vector_unset.symm
  | some a => exact (h.2.get unset buf).2

theorem Stores.linked (h : Stores s dentry key a) : Linked (a.getD Sfs.Ptrs.unset) := by
  cases a with
  | none => exact linked_unset
  | some a => exact h.1

/-- `put`, `modify` and `reset` do to the bytes what they do to the links, `modify` on
    a file system with a handler for `trusted.`. -/
theorem stores_calls (h : Stores s dentry key a) :
    (∀ b buf, Linked b → ∃ s', put 0 s dentry key (vector b) buf = some (0, s')
      ∧ Stores s' dentry key (some b))
    ∧ (∀ x k buf, (∀ p ∈ x, p < 64) →
      ∃ s', modify true 0 s dentry key (idOf x) k buf = some (0, s') ∧ Stores s' dentry key
            (some (setLink (a.getD Sfs.Ptrs.unset) k x)))
    ∧ ∀ buf, ∃ s', reset 0 s dentry key buf = some (0, s')
      ∧ Stores s' dentry key (some Sfs.Ptrs.unset) := by
  refine ⟨fun b buf hb => ?_, fun x k buf hx => ?_, fun buf => ?_⟩
  · have hfits : Fits 15 (vector b) := fits_of_isId hb.isId (by decide)
    obtain ⟨s', hput, hs'⟩ := holds_put hfits s dentry key buf
    exact ⟨s', hput, hb, hs'⟩
  · have hb := h.linked.setLink k hx
    have hfits : Fits 20 (vector (setLink (a.getD Sfs.Ptrs.unset) k x)) :=
      fits_of_isId hb.isId (by decide)
    rw [vector_setLink, ← h.seen buf] at hfits
    obtain ⟨s', hmodify, hs'⟩ := holds_modify buf hfits
    rw [h.seen buf, ← vector_setLink] at hs'
    exact ⟨s', hmodify, hb, hs'⟩
  · obtain ⟨s', hreset, hs'⟩ := holds_reset s dentry key buf
    rw [← vector_unset] at hs'
    exact ⟨s', hreset, linked_unset, hs'⟩

/-- A link in a new attribute. -/
theorem modify_stores : ∃ s', modify true 0 (fun _ _ => none) 1 "meta" (idOf (some 3)) 0
      (.replicate 20 0) = some (0, s')
    ∧ Stores s' 1 "meta" (some (setLink Sfs.Ptrs.unset 0 (some 3))) :=
  have h : Stores (fun _ _ => none) 1 "meta" none := rfl
  (stores_calls h).2.1 (some 3) 0 _ (by decide)

end SfsKv
