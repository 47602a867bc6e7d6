import Mathlib.Logic.Function.Basic
import Mathlib.Algebra.Ring.Nat

/-! # The status of a loop device — offset, size limit and transfer function

`losetup` gives a loop device an offset into its backing file, a size limit and an
encryption.  `loop_set_fd` attaches the file with none of them and `loop_set_status`
sets them; `get_size` computes the capacity from them.

`Configured` are the devices that these calls lead to, the failed ones included, and
`Configured.bound` is what they all have.  What a call that returned 0 has set is
`loopSetStatus_accepted`. -/

namespace LoopStatus

/-- `-EPERM`, `-ENXIO`, `-EINVAL` and `-EFBIG`. -/
def eperm : Int := -1

def enxio : Int := -6

def einval : Int := -22

def efbig : Int := -27

/-- `LO_KEY_SIZE`, `MAX_LO_CRYPT` and `PAGE_SIZE`. -/
def loKeySize : Nat := 32

def maxLoCrypt : Nat := 20

def pageSize : Nat := 4096

/-- `lo_state`. -/
inductive LoState
  | unbound
  | bound
  | rundown
deriving DecidableEq, Repr

/-- The transfer functions `transfer_none` and `transfer_xor`; each stands for
    its `loop_func_table` too. -/
inductive Transfer
  | transferNone
  | transferXor
deriving DecidableEq, Repr

/-- The fields of `struct loop_info64` that concern the data. -/
structure LoopInfo64 where
  loOffset : BitVec 64
  loSizelimit : BitVec 64
  loEncryptType : BitVec 32
  loEncryptKeySize : BitVec 32
  loEncryptKey : Nat → UInt8

/-- The same fields of `struct loop_device`; `transfer = none` is the null
    pointer, `capacity` the one of `lo_disk` in sectors. -/
structure LoopDev where
  loState : LoState
  loOffset : BitVec 64
  loSizelimit : BitVec 64
  transfer : Option Transfer
  loEncryption : Option Transfer
  loEncryptKeySize : BitVec 32
  loEncryptKey : Nat → UInt8
  loKeyOwner : Nat
  loBlocksize : Nat
  capacity : Nat

/-- The process that makes the call. -/
structure Caller where
  uid : Nat
  capSysAdmin : Bool

/-! ## The calls -/

/-- `get_size`: the sectors of a file of `isize` bytes behind the offset.  A
    `loff_t` is a signed 64-bit number. -/
def getSize (offset sizelimit : BitVec 64) (isize : Nat) : BitVec 64 :=
  let loopsize := BitVec.ofNat 64 isize - offset
  if loopsize.slt 0 then 0
  else if (0#64).slt sizelimit && sizelimit.slt loopsize then
    sizelimit.sshiftRight 9
  else loopsize.sshiftRight 9

/-- `figure_loop_size`, with a `sector_t` of 64 bits. -/
def figureLoopSize (isize : Nat) (lo : LoopDev) (offset sizelimit : BitVec 64) : Int × LoopDev :=
  let size := getSize offset sizelimit isize
  let x : BitVec 64 := size
  if x ≠ size then (efbig, lo)
  else (0, { lo with
    loOffset := offset, loSizelimit := sizelimit, capacity := x.toNat })

/-- `xfer_funcs`. -/
def xferFuncs : Nat → Option Transfer
  | 0 => some .transferNone
  | 1 => some .transferXor
  | _ => none

/-- The `init` of a table: `xor_init`, and none for `none_funcs`. -/
def xferInit (info : LoopInfo64) : Transfer → Int
  | .transferNone => 0
  | .transferXor => if info.loEncryptKeySize ≤ 0 then einval else 0

/-- `loop_release_xfer`; no table has a `release`. -/
def loopReleaseXfer (lo : LoopDev) : LoopDev :=
  match lo.loEncryption with
  | some _ => { lo with transfer := none, loEncryption := none }
  | none => lo

/-- `loop_init_xfer`. -/
def loopInitXfer (info : LoopInfo64) (lo : LoopDev) : Option Transfer → Int × LoopDev
  | none => (0, lo)
  | some xfer =>
    if xferInit info xfer ≠ 0 then (xferInit info xfer, lo)
    else (0, { lo with loEncryption := some xfer })

/-- The end of `loop_set_status`: the transfer function and its key. -/
def storeXfer (caller : Caller) (info : LoopInfo64) (xfer : Option Transfer)
    (lo : LoopDev) : LoopDev :=
  let lo := { lo with
    transfer := some (xfer.getD .transferNone)
    loEncryptKeySize := info.loEncryptKeySize }
  if info.loEncryptKeySize ≠ 0 then
    { lo with
      loEncryptKey := fun i =>
        if i < info.loEncryptKeySize.toNat then info.loEncryptKey i
        else lo.loEncryptKey i
      loKeyOwner := caller.uid }
  else lo

/-- `loop_set_status` once the table of the encryption is known. -/
def setXfer (caller : Caller) (isize : Nat) (info : LoopInfo64)
    (xfer : Option Transfer) (lo : LoopDev) : Int × LoopDev :=
  let (err, lo) := loopInitXfer info lo xfer
  if err ≠ 0 then (err, lo)
  else if lo.loOffset ≠ info.loOffset ∨ lo.loSizelimit ≠ info.loSizelimit then
    let (err, lo) := figureLoopSize isize lo info.loOffset info.loSizelimit
    if err ≠ 0 then (efbig, lo) else (0, storeXfer caller info xfer lo)
  else (0, storeXfer caller info xfer lo)

/-- `loop_set_status`.  The old transfer function is released before the new
    one is looked at, so that a call that fails later leaves none. -/
def loopSetStatus (caller : Caller) (isize : Nat) (info : LoopInfo64)
    (lo : LoopDev) : Int × LoopDev :=
  if lo.loEncryptKeySize ≠ 0 ∧ lo.loKeyOwner ≠ caller.uid
      ∧ caller.capSysAdmin = false then (eperm, lo)
  else if lo.loState ≠ .bound then (enxio, lo)
  else if info.loEncryptKeySize.toNat > loKeySize then (einval, lo)
  else
    let lo := loopReleaseXfer lo
    if info.loEncryptType = 0 then setXfer caller isize info none lo
    else if info.loEncryptType.toNat ≥ maxLoCrypt then (einval, lo)
    else
      match xferFuncs info.loEncryptType.toNat with
      | none => (einval, lo)
      | some xfer => setXfer caller isize info (some xfer) lo

/-- `loop_set_fd` on an unbound device and a regular file. -/
def loopSetFd (isize : Nat) (lo : LoopDev) : LoopDev :=
  { lo with
    loState := .bound
    loBlocksize := pageSize
    transfer := some .transferNone
    loSizelimit := 0
    capacity := (getSize lo.loOffset lo.loSizelimit isize).toNat }

/-- A device before `loop_set_fd`, as `loop_clr_fd` leaves it. -/
def unboundDev : LoopDev where
  loState := .unbound
  loOffset := 0
  loSizelimit := 0
  transfer := none
  loEncryption := none
  loEncryptKeySize := 0
  loEncryptKey := fun _ => 0
  loKeyOwner := 0
  loBlocksize := 0
  capacity := 0

/-- The devices that a file of `isize` bytes is attached to, after any calls of
    `loop_set_status`. -/
inductive Configured (isize : Nat) : LoopDev → Prop
  | setFd : Configured isize (loopSetFd isize unboundDev)
  | setStatus {lo : LoopDev} (caller : Caller) (info : LoopInfo64) :
      Configured isize lo →
      Configured isize (loopSetStatus caller isize info lo).2

/-! ## What a call leaves -/

/-- What every attached device has. -/
structure Bound (isize : Nat) (lo : LoopDev) : Prop where
  state : lo.loState = .bound
  blocksize : lo.loBlocksize = pageSize
  capacity : lo.capacity = (getSize lo.loOffset lo.loSizelimit isize).toNat

section Calls

variable {caller : Caller} {isize : Nat} {info : LoopInfo64}
  {lo lo' : LoopDev} {xfer : Option Transfer}

theorem Bound.releaseXfer (h : Bound isize lo) : Bound isize (loopReleaseXfer lo) := by
  rw [loopReleaseXfer]
  split
  · exact ⟨h.state, h.blocksize, h.capacity⟩
  · exact h

theorem Bound.initXfer (h : Bound isize lo) : Bound isize (loopInitXfer info lo xfer).2 := by
  cases xfer with
  | none => exact h
  | some t =>
    rw [loopInitXfer]
    split
    · exact h
    · exact ⟨h.state, h.blocksize, h.capacity⟩

theorem Bound.storeXfer (h : Bound isize lo) : Bound isize (storeXfer caller info xfer lo) := by
  unfold LoopStatus.storeXfer
  split <;> exact ⟨h.state, h.blocksize, h.capacity⟩

/-- A 64-bit `sector_t` holds every size. -/
theorem figureLoopSize_eq (offset sizelimit : BitVec 64) :
    figureLoopSize isize lo offset sizelimit = (0, { lo with
      loOffset := offset, loSizelimit := sizelimit
      capacity := (getSize offset sizelimit isize).toNat }) :=
  if_neg (fun h => h rfl)

/-- The two ways through `setXfer`. -/
theorem setXfer_cases (caller : Caller) (info : LoopInfo64)
    (xfer : Option Transfer) (h : Bound isize lo) :
    ((loopInitXfer info lo xfer).1 ≠ 0
      ∧ setXfer caller isize info xfer lo = loopInitXfer info lo xfer)
    ∨ ((loopInitXfer info lo xfer).1 = 0 ∧ ∃ lo₁, Bound isize lo₁ ∧ lo₁.loOffset = info.loOffset
        ∧ lo₁.loSizelimit = info.loSizelimit
        ∧ setXfer caller isize info xfer lo = (0, storeXfer caller info xfer lo₁)) := by
  have hb : Bound isize (loopInitXfer info lo xfer).2 := h.initXfer
  unfold setXfer
  generalize loopInitXfer info lo xfer = r at hb ⊢
  obtain ⟨err, lo₁⟩ := r
  by_cases he : err ≠ 0
  · exact .inl ⟨he, if_pos he⟩
  · refine .inr ⟨not_not.mp he, ?_⟩
    by_cases hne : lo₁.loOffset ≠ info.loOffset ∨ lo₁.loSizelimit ≠ info.loSizelimit
    · refine ⟨{ lo₁ with
        loOffset := info.loOffset, loSizelimit := info.loSizelimit
        capacity := (getSize info.loOffset info.loSizelimit isize).toNat },
        ⟨hb.state, hb.blocksize, rfl⟩, rfl, rfl, ?_⟩
      simp only [if_neg he, if_pos hne, figureLoopSize_eq]
      exact if_neg (fun h => h rfl)
    · obtain ⟨ho, hl⟩ := not_or.mp hne
      refine ⟨lo₁, hb, not_not.mp ho, not_not.mp hl, ?_⟩
      simp only [if_neg he, if_neg hne]

theorem Bound.setXfer (h : Bound isize lo) : Bound isize (setXfer caller isize info xfer lo).2 := by
  rcases setXfer_cases caller info xfer h with
    ⟨-, heq⟩ | ⟨-, lo₁, hb, -, -, heq⟩
  · rw [heq]
    exact h.initXfer
  · rw [heq]
    exact hb.storeXfer

/-- Failed or not, a call leaves an attached device. -/
theorem Bound.loopSetStatus (h : Bound isize lo) :
    Bound isize (loopSetStatus caller isize info lo).2 := by
  unfold LoopStatus.loopSetStatus
  split
  · exact h
  · split
    · exact h
    · split
      · exact h
      · split
        · exact h.releaseXfer.setXfer
        · split
          · exact h.releaseXfer
          · split
            · exact h.releaseXfer
            · exact h.releaseXfer.setXfer

theorem Configured.bound (h : Configured isize lo) : Bound isize lo := by
  induction h with
  | setFd => exact ⟨rfl, rfl, rfl⟩
  | setStatus caller info _ ih => exact ih.loopSetStatus

/-- What a call that returned 0 has set. -/
structure Accepted (isize : Nat) (info : LoopInfo64) (lo : LoopDev) : Prop where
  bound : Bound isize lo
  offset : lo.loOffset = info.loOffset
  sizelimit : lo.loSizelimit = info.loSizelimit
  keySize : lo.loEncryptKeySize.toNat ≤ loKeySize
  /-- copying, or the xor with a key that is not empty -/
  transfer : lo.transfer = some .transferNone ∨
    (lo.transfer = some .transferXor ∧ 0 < lo.loEncryptKeySize.toNat)

theorem storeXfer_fields (caller : Caller) (info : LoopInfo64)
    (xfer : Option Transfer) (lo : LoopDev) :
    (storeXfer caller info xfer lo).loOffset = lo.loOffset
      ∧ (storeXfer caller info xfer lo).loSizelimit = lo.loSizelimit
      ∧ (storeXfer caller info xfer lo).loEncryptKeySize = info.loEncryptKeySize
      ∧ (storeXfer caller info xfer lo).transfer = some (xfer.getD .transferNone) := by
  unfold storeXfer
  split <;> exact ⟨rfl, rfl, rfl, rfl⟩

theorem setXfer_accepted (h : Bound isize lo) (hkey : info.loEncryptKeySize.toNat ≤ loKeySize)
    (hset : setXfer caller isize info xfer lo = (0, lo')) :
    Accepted isize info lo' := by
  rcases setXfer_cases caller info xfer h with
    ⟨hne, heq⟩ | ⟨hinit, lo₁, hb, ho, hl, heq⟩
  · rw [heq] at hset
    exact absurd (congrArg Prod.fst hset) hne
  · obtain rfl : storeXfer caller info xfer lo₁ = lo' :=
      congrArg Prod.snd (heq.symm.trans hset)
    obtain ⟨f1, f2, f3, f4⟩ := storeXfer_fields caller info xfer lo₁
    refine ⟨hb.storeXfer, f1.trans ho, f2.trans hl, by rw [f3]; exact hkey, ?_⟩
    rw [f3, f4]
    match xfer with
    | none => exact .inl rfl
    | some .transferNone => exact .inl rfl
    | some .transferXor =>
      -- `xor_init` has refused the empty key
      refine .inr ⟨rfl, ?_⟩
      by_contra hzero
      have hle : info.loEncryptKeySize ≤ 0 := by
        rw [BitVec.le_def]
        omega
      have hbad : xferInit info .transferXor ≠ 0 := by
        rw [xferInit, if_pos hle]
        decide
      rw [loopInitXfer, if_pos hbad] at hinit
      exact hbad hinit

theorem loopSetStatus_accepted (h : Bound isize lo)
    (hset : loopSetStatus caller isize info lo = (0, lo')) :
    Accepted isize info lo' := by
  unfold loopSetStatus at hset
  split at hset
  · cases hset
  · split at hset
    · cases hset
    · split at hset
      · cases hset
      · rename_i hkey
        have hkey' := Nat.le_of_not_gt hkey
        split at hset
        · exact setXfer_accepted h.releaseXfer hkey' hset
        · split at hset
          · cases hset
          · split at hset
            · cases hset
            · exact setXfer_accepted h.releaseXfer hkey' hset

end Calls

/-! ## Capacities -/

theorem sshiftRight_toNat {x : BitVec 64} (h : 0 ≤ x.toInt) :
    ((x.sshiftRight 9).toNat : Int) = x.toInt / 512 := by
  have h1 : (x.sshiftRight 9).toInt = x.toInt / 512 := by
    rw [BitVec.toInt_sshiftRight, Int.shiftRight_eq_div_pow]
    rfl
  have h2 : 0 ≤ (x.sshiftRight 9).toInt := by
    rw [h1]
    omega
  have h3 := BitVec.toInt_eq_toNat_cond (x := x.sshiftRight 9)
  rw [← h1]
  split at h3 <;> omega

/-- The sectors lie behind the offset, as the difference wraps. -/
theorem getSize_le (offset sizelimit : BitVec 64) (isize : Nat) :
    (getSize offset sizelimit isize).toNat = 0 ∨
      (512 * (getSize offset sizelimit isize).toNat : Int)
        ≤ (BitVec.ofNat 64 isize - offset).toInt := by
  have h0 : (0#64).toInt = 0 := rfl
  unfold getSize
  simp only [BitVec.slt_eq_decide, Bool.and_eq_true, decide_eq_true_eq, BitVec.ofNat_eq_ofNat, h0]
  split
  · exact .inl rfl
  · right
    split
    · rename_i hl
      have := sshiftRight_toNat (Int.le_of_lt hl.1)
      omega
    · have := sshiftRight_toNat (x := BitVec.ofNat 64 isize - offset) (by omega)
      omega

theorem toInt_sub_offset {isize : Nat} {offset : BitVec 64}
    (hsize : isize < 2 ^ 63) (hoff : 0 ≤ offset.toInt) :
    (BitVec.ofNat 64 isize - offset).toInt = isize - offset.toInt := by
  have hlt := BitVec.toInt_lt (x := offset)
  have hi : (BitVec.ofNat 64 isize).toInt = isize := by
    rw [BitVec.toInt_ofNat']
    exact Int.bmod_eq_of_le (by omega) (by omega)
  rw [BitVec.toInt_sub, hi]
  exact Int.bmod_eq_of_le (by omega) (by omega)

/-- With an offset that is not negative the sectors of a device are in the file. -/
theorem Bound.capacity_le {isize : Nat} {lo : LoopDev} (h : Bound isize lo)
    (hsize : isize < 2 ^ 63) (hoff : 0 ≤ lo.loOffset.toInt) :
    lo.capacity = 0 ∨ lo.loOffset.toInt + 512 * lo.capacity ≤ isize := by
  have hle := getSize_le lo.loOffset lo.loSizelimit isize
  rw [toInt_sub_offset hsize hoff, ← h.capacity] at hle
  rcases hle with h0 | hle
  · exact .inl h0
  · exact .inr (by omega)

end LoopStatus
