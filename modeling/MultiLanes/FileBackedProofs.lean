import MultiLanes.SparseFileProofs

/-! # The bypass and the file path

A loop driver has an obvious implementation: byte `b` of the device is byte `b +
lo_offset` of the backing file, passed through `lo->transfer`.  It is still in the
source, as `do_bio_filebacked` with `lo_send` and `lo_receive`; the bios go to
`redirect_bio` instead, which addresses the host's sectors through the block map.

Here the two are run side by side on a file without holes (`Agrees`).  The bypass knows
neither the offset nor the transfer function, and `bypass_agrees_iff` says for which
devices that makes no difference. -/

namespace FileBacked

open InteractProg LoopBio LoopRedirect LoopSlice LoopDevice VirtualDisk Function List
open DiskRefinement SparseFile LoopStatus

/-! ## Bytes in memory and in files -/

abbrev Memory : Type := Loc → SectorData

/-- The sector of a segment that byte `i` is in, and its place there. -/
def segLoc (v : BioVec) (i : Nat) : Loc :=
  (v.bvPage, v.bvOffset + 512 * (i / 512))

def byteIdx (i : Nat) : Fin 512 := ⟨i % 512, Nat.mod_lt i (by decide)⟩

def getByte (mem : Memory) (v : BioVec) (i : Nat) : UInt8 :=
  mem (segLoc v i) (byteIdx i)

def setByte (mem : Memory) (v : BioVec) (i : Nat) (b : UInt8) : Memory :=
  update mem (segLoc v i) (update (mem (segLoc v i)) (byteIdx i) b)

/-- Copying `n` bytes of a buffer into a segment, from byte `start` on. -/
def copyTo (v : BioVec) (start : Nat) (buf : Nat → UInt8) : Nat → Memory → Memory
  | 0, mem => mem
  | n + 1, mem => setByte (copyTo v start buf n mem) v (start + n) (buf n)

/-- A file: `i_size` and its bytes. -/
structure File where
  size : Nat
  bytes : Nat → UInt8

/-- `f_op->write` on a file system that has room. -/
def File.write (f : File) (buf : Nat → UInt8) (len : Nat) (pos : Int) : Int × File :=
  if pos < 0 then (einval, f)
  else if len = 0 then (0, f)
  else (len, {
    size := max f.size (pos.toNat + len)
    bytes := fun k =>
      if pos.toNat ≤ k ∧ k < pos.toNat + len then buf (k - pos.toNat)
      else f.bytes k })

/-! ## The file path -/

/-- `lo_do_transfer` of a piece: what the buffer `out` holds afterwards.  The
    key starts again at every piece. -/
def loDoTransfer (lo : LoopDev) (inp out : Nat → UInt8) : Nat → UInt8 :=
  match lo.transfer with
  | none => out
  | some .transferNone => inp
  | some .transferXor => fun i =>
    inp i ^^^ lo.loEncryptKey ((i &&& 511) % lo.loEncryptKeySize.toNat)

/-- `__do_lo_send_write`. -/
def doLoSendBuffer (f : File) (buf : Nat → UInt8) (len : Nat) (pos : Int) : Int × File :=
  let (bw, f) := f.write buf len pos
  if bw = len then (0, f) else if 0 ≤ bw then (eio, f) else (bw, f)

/-- `do_lo_send_direct_write`, and `do_lo_send_write` through a page that held
    `page` when it was allocated. -/
def doLoSend (lo : LoopDev) (page : Nat → UInt8) (mem : Memory) (v : BioVec)
    (pos : Int) (f : File) : Int × File :=
  if lo.transfer = some .transferNone then
    doLoSendBuffer f (getByte mem v) v.bvLen pos
  else doLoSendBuffer f (loDoTransfer lo (getByte mem v) page) v.bvLen pos

/-- `lo_send`. -/
def loSend (lo : LoopDev) (page : Nat → UInt8) (mem : Memory) :
    List BioVec → Int → File → Int × File
  | [], _, f => (0, f)
  | v :: vs, pos, f =>
    let (ret, f) := doLoSend lo page mem v pos f
    if ret < 0 then (ret, f) else loSend lo page mem vs (pos + v.bvLen) f

/-- The pieces that `splice_direct_to_actor` passes to the actor: a piece ends
    with its page of the file, with the file, or after `bsize` bytes. -/
def splicePieces (size bsize : Nat) : Nat → Nat → Nat → List (Nat × Nat)
  | 0, _, _ => []
  | fuel + 1, pos, len =>
    let n := min (min len (size - pos)) (min (pageSize - pos % pageSize) bsize)
    if n = 0 then []
    else (pos, n) :: splicePieces size bsize fuel (pos + n) (len - n)

/-- `lo_splice_actor`: the state is the number of bytes that have arrived and the memory. -/
def loSpliceActor (lo : LoopDev) (f : File) (v : BioVec) (s : Nat × Memory)
    (piece : Nat × Nat) : Nat × Memory :=
  (s.1 + piece.2, copyTo v s.1 (loDoTransfer lo (fun i => f.bytes (piece.1 + i))
      (fun i => getByte s.2 v (s.1 + i))) piece.2 s.2)

/-- `do_lo_receive`. -/
def doLoReceive (lo : LoopDev) (f : File) (v : BioVec) (pos : Int) (mem : Memory) : Int × Memory :=
  if pos < 0 then (einval, mem)
  else
    let r := (splicePieces f.size lo.loBlocksize v.bvLen pos.toNat
      v.bvLen).foldl (loSpliceActor lo f v) (0, mem)
    (r.1, r.2)

/-- `zero_fill_bio`. -/
def zeroFillBio (bio : Bio) (mem : Memory) : Memory :=
  bio.segments.foldl (fun m v => copyTo v 0 (fun _ => 0) v.bvLen m) mem

/-- `lo_receive`. -/
def loReceive (lo : LoopDev) (f : File) (bio : Bio) : List BioVec → Int → Memory → Int × Memory
  | [], _, mem => (0, mem)
  | v :: vs, pos, mem =>
    let (s, mem) := doLoReceive lo f v pos mem
    if s < 0 then (s, mem)
    else if s ≠ v.bvLen then (0, zeroFillBio bio mem)
    else loReceive lo f bio vs (pos + v.bvLen) mem

/-- What a bio leaves on the file path. -/
structure Filed where
  ret : Int
  file : File
  mem : Memory

/-- `do_bio_filebacked` of a read or a write, with the call of `lo_receive`
    that stands there as a comment.  `vfs_fsync` succeeds. -/
def doBioFilebacked (lo : LoopDev) (page : Nat → UInt8) (bio : Bio) (f : File)
    (mem : Memory) : Filed :=
  let pos := ((BitVec.ofNat 64 bio.biSector <<< 9) + lo.loOffset).toInt
  if bio.biRw.write then
    let (ret, f) := loSend lo page mem bio.segments pos f
    ⟨ret, f, mem⟩
  else
    let (ret, mem) := loReceive lo f bio bio.segments pos mem
    ⟨ret, f, mem⟩

/-! ## The two side by side -/

variable {H : Host}

/-- The sectors of the backing file that the map has a place for. -/
def contents (cfg : Config) (d : Device H) : Contents := fun x =>
  (d.finalMap cfg (x / cfg.spb)).map (fun p => d.disk (p * cfg.spb + x % cfg.spb))

/-- The backing file; a hole is read as zeros. -/
def backingFile (cfg : Config) (isize : Nat) (d : Device H) : File where
  size := isize
  bytes := fun k => ((contents cfg d (k / 512)).getD (fun _ => 0)) (byteIdx k)

/-- Every byte of the file has a place. -/
def NoHoles (cfg : Config) (isize : Nat) (d : Device H) : Prop :=
  ∀ k < isize, d.finalMap cfg (k / 512 / cfg.spb) ≠ none

def InCapacity (lo : LoopDev) (op : DiskOp) : Prop :=
  op.bio.biSector + op.bio.sectors.length ≤ lo.capacity

/-- The bypass ends, with the bytes of the file that the file path leaves and,
    for a read, with the memory that it leaves. -/
def Agrees (cfg : Config) (isize : Nat) (lo : LoopDev) (page : Nat → UInt8)
    (op : DiskOp) (d : Device H) : Prop :=
  ∃ d', run (deviceHandler H cfg op.mem) (redirectBio 0 cfg.blkbits op.bio) d = some ((), d')
    ∧ (∀ k < isize, (backingFile cfg isize d').bytes k
        = (doBioFilebacked lo page op.bio (backingFile cfg isize d) op.mem).file.bytes k)
    ∧ (op.bio.biRw.write = false → delivered op.mem (newIo d d')
        = (doBioFilebacked lo page op.bio (backingFile cfg isize d) op.mem).mem)

/-- The transfer function changes no byte. -/
def ClearText (lo : LoopDev) : Prop :=
  lo.transfer = some .transferNone ∨ ∀ i < lo.loEncryptKeySize.toNat, lo.loEncryptKey i = 0

/-! ## Copying -/

theorem byteIdx_add (t j : Nat) : byteIdx (512 * t + j) = byteIdx j := by
  apply Fin.ext
  show (512 * t + j) % 512 = j % 512
  omega

theorem byteIdx_val (j : Fin 512) : byteIdx j.1 = j :=
  Fin.ext (Nat.mod_eq_of_lt j.2)

theorem segLoc_add (v : BioVec) {t j : Nat} (hj : j < 512) :
    segLoc v (512 * t + j) = (v.bvPage, v.bvOffset + 512 * t) := by
  unfold segLoc
  congr 3
  omega

/-- Copying goes on where it stopped. -/
theorem copyTo_add (v : BioVec) (start : Nat) (buf : Nat → UInt8) (n m : Nat) (mem : Memory) :
    copyTo v start buf (n + m) mem = copyTo v (start + n) (fun i => buf (n + i)) m
          (copyTo v start buf n mem) := by
  induction m with
  | zero => rfl
  | succ m ih =>
    show setByte (copyTo v start buf (n + m) mem) v (start + (n + m)) (buf (n + m)) = _
    rw [ih, ← add_assoc]
    rfl

/-- The first `m` bytes of one sector. -/
theorem copyTo_sector (v : BioVec) (t : Nat) (buf : Nat → UInt8) (mem : Memory)
    {m : Nat} (hm : m ≤ 512) :
    copyTo v (512 * t) buf m mem = update mem (v.bvPage, v.bvOffset + 512 * t)
          (fun j => if j.1 < m then buf j.1 else mem (v.bvPage, v.bvOffset + 512 * t) j) := by
  induction m with
  | zero => exact (update_eq_self _ mem).symm
  | succ m ih =>
    have hidx : byteIdx (512 * t + m) = ⟨m, hm⟩ := by
      rw [byteIdx_add]
      exact Fin.ext (Nat.mod_eq_of_lt hm)
    rw [copyTo, ih (by omega), setByte, segLoc_add v hm, hidx, update_idem, update_self]
    congr 1
    funext j
    by_cases hj : j = ⟨m, hm⟩
    · rw [hj, update_self, if_pos (Nat.lt_succ_self m)]
    · have hne : j.1 ≠ m := fun h => hj (Fin.ext h)
      rw [update_of_ne hj]
      by_cases hlt : j.1 < m
      · rw [if_pos hlt, if_pos (by omega)]
      · rw [if_neg hlt, if_neg (by omega)]

/-- The transfers of whole sectors of a file, as a reader would make them. -/
def fileIo (f : File) (x : Nat) (ls : List Loc) : List (Nat × Loc × SectorData) :=
  (place (fun k => x + k) ls).map (fun y => (y.1, y.2, fun j => f.bytes (512 * y.1 + j.1)))

theorem fileIo_append (f : File) (x : Nat) (ls ms : List Loc) :
    fileIo f x (ls ++ ms) = fileIo f x ls ++ fileIo f (x + ls.length) ms := by
  rw [fileIo, place_append, map_append]
  congr 2
  apply place_congr
  intro k _
  omega

theorem delivered_append (mem : Memory) (io io' : List (Nat × Loc × SectorData)) :
    delivered mem (io ++ io') = delivered (delivered mem io) io' :=
  foldl_append

/-- Only where the sectors go and what they hold matters to a reader. -/
theorem delivered_congr {io io' : List (Nat × Loc × SectorData)}
    (h : io.map Prod.snd = io'.map Prod.snd) (mem : Memory) :
    delivered mem io = delivered mem io' := by
  have hfold : ∀ l : List (Nat × Loc × SectorData), delivered mem l
      = (l.map Prod.snd).foldl (fun f e => update f e.1 e.2) mem := by
    intro l
    rw [foldl_map]
    rfl
  rw [hfold, hfold, h]

/-- A segment that is filled from whole sectors of a file. -/
theorem copyTo_file (f : File) (v : BioVec) (x : Nat) (mem : Memory) (n : Nat) :
    copyTo v 0 (fun i => f.bytes (512 * x + i)) (512 * n) mem = delivered mem (fileIo f x
          ((range n).map (fun t => (v.bvPage, v.bvOffset + 512 * t)))) := by
  induction n with
  | zero => rfl
  | succ n ih =>
    rw [Nat.mul_succ, copyTo_add, ih, zero_add, range_succ,
      map_append, fileIo_append, delivered_append,
      copyTo_sector v n _ _ (le_refl 512), length_map,
      length_range]
    show update _ _ _ = update _ _ _
    congr 1
    funext j
    show (if j.1 < 512 then f.bytes (512 * x + (512 * n + j.1)) else _)
      = f.bytes (512 * (x + n + 0) + j.1)
    rw [if_pos j.2]
    congr 1
    ring

/-! ## The file path without offset and transfer -/

section Clear

variable {lo : LoopDev} {isize : Nat} {info : LoopInfo64}

theorem loDoTransfer_clear (ha : Accepted isize info lo) (hc : ClearText lo)
    (inp out : Nat → UInt8) : loDoTransfer lo inp out = inp := by
  unfold loDoTransfer
  rcases ha.transfer with h | ⟨h, hpos⟩
  · rw [h]
  · rw [h]
    rcases hc with hnone | hzero
    · cases h.symm.trans hnone
    · funext i
      show inp i ^^^ lo.loEncryptKey _ = inp i
      rw [hzero _ (Nat.mod_lt _ hpos)]
      exact UInt8.xor_zero

variable (hclear : ∀ inp out, loDoTransfer lo inp out = inp)

/-- The byte that a list of sectors puts at byte `k` of a file. -/
def overlay (mem : Memory) (ls : List Loc) (x k : Nat) : Option UInt8 :=
  if x ≤ k / 512 then ls[k / 512 - x]?.map (fun loc => mem loc (byteIdx k))
  else none

theorem overlay_append (mem : Memory) (ls ms : List Loc) (x k : Nat) (b : UInt8) :
    (overlay mem (ls ++ ms) x k).getD b = (overlay mem ms (x + ls.length) k).getD
          ((overlay mem ls x k).getD b) := by
  unfold overlay
  by_cases hx : x ≤ k / 512
  · rw [if_pos hx, if_pos hx]
    by_cases hl : x + ls.length ≤ k / 512
    · rw [if_pos hl, getElem?_append_right (by omega), Nat.sub_add_eq,
        getElem?_eq_none (l := ls) (by omega)]
      rfl
    · rw [if_neg hl, getElem?_append_left (by omega)]
      rfl
  · rw [if_neg hx, if_neg hx, if_neg (by omega)]
    rfl

/-- A write at a position of the file does not fail. -/
theorem doLoSendBuffer_eq (f : File) (buf : Nat → UInt8) (len pos : Nat) :
    (doLoSendBuffer f buf len pos).1 = 0 ∧ ∀ k, (doLoSendBuffer f buf len pos).2.bytes k
          = if pos ≤ k ∧ k < pos + len then buf (k - pos) else f.bytes k := by
  unfold doLoSendBuffer File.write
  rw [if_neg (by omega)]
  by_cases h0 : len = 0
  · rw [if_pos h0]
    subst h0
    refine ⟨rfl, fun k => ?_⟩
    rw [if_neg (by omega)]
    rfl
  · rw [if_neg h0]
    simp only [if_true, Int.toNat_natCast]
    exact ⟨trivial, fun _ => trivial⟩

/-- The version without double buffering writes what the other would. -/
theorem doLoSend_eq (lo : LoopDev) (page : Nat → UInt8) (mem : Memory)
    (v : BioVec) (pos : Int) (f : File) :
    doLoSend lo page mem v pos f = doLoSendBuffer f
      (loDoTransfer lo (getByte mem v) page) v.bvLen pos := by
  rw [doLoSend]
  split
  · rename_i h
    rw [loDoTransfer, h]
  · rfl

include hclear

/-- One segment of whole sectors is written where it belongs. -/
theorem doLoSend_clear (page : Nat → UInt8) (mem : Memory) {v : BioVec}
    (hw : 512 ∣ v.bvLen) (x : Nat) (f : File) :
    (doLoSend lo page mem v (512 * x : Nat) f).1 = 0
      ∧ ∀ k, (doLoSend lo page mem v (512 * x : Nat) f).2.bytes k
          = (overlay mem v.sectors x k).getD (f.bytes k) := by
  have hwrite := doLoSendBuffer_eq f (getByte mem v) v.bvLen (512 * x)
  rw [doLoSend_eq, hclear]
  refine ⟨hwrite.1, fun k => ?_⟩
  rw [hwrite.2, overlay]
  obtain ⟨q, hq⟩ := hw
  by_cases hx : x ≤ k / 512
  · rw [if_pos hx]
    by_cases hin : k / 512 - x < q
    · -- a byte of the segment
      have hget : v.sectors[k / 512 - x]? = some (v.bvPage, v.bvOffset + 512 * (k / 512 - x)) := by
        rw [BioVec.sectors, hq, Nat.mul_div_cancel_left q (by decide),
          getElem?_map, getElem?_range hin]
        rfl
      rw [hget, if_pos (by omega)]
      have hk : k - 512 * x = 512 * (k / 512 - x) + k % 512 := by omega
      show getByte mem v (k - 512 * x) = mem _ (byteIdx k)
      rw [getByte, hk, segLoc_add v (Nat.mod_lt k (by decide)), byteIdx_add]
      congr 1
      exact Fin.ext (Nat.mod_mod k 512)
    · have hnone : v.sectors[k / 512 - x]? = none := by
        apply getElem?_eq_none
        rw [BioVec.sectors_length, hq, Nat.mul_div_cancel_left q (by decide)]
        omega
      rw [hnone, if_neg (by omega)]
      rfl
  · rw [if_neg hx, if_neg (by omega)]
    rfl

theorem loSend_clear (page : Nat → UInt8) (mem : Memory) (vs : List BioVec) :
    ∀ (x : Nat) (f : File), (∀ v ∈ vs, 512 ∣ v.bvLen) →
      ∀ k, (loSend lo page mem vs (512 * x : Nat) f).2.bytes k
        = (overlay mem (vecSectors vs) x k).getD (f.bytes k) := by
  induction vs with
  | nil =>
    intro x f _ k
    show f.bytes k = _
    rw [overlay]
    split <;> rfl
  | cons v vs ih =>
    intro x f hw k
    have hv := hw v (.head _)
    obtain ⟨hret, hbytes⟩ := doLoSend_clear hclear page mem hv x f
    have hpos : ((512 * x : Nat) : Int) + v.bvLen = (512 * (x + v.sectors.length) : Nat) := by
      rw [BioVec.sectors_length]
      omega
    have hstep : loSend lo page mem (v :: vs) (512 * x : Nat) f
        = loSend lo page mem vs (512 * (x + v.sectors.length) : Nat)
            (doLoSend lo page mem v (512 * x : Nat) f).2 := by
      have hnn : ¬ (doLoSend lo page mem v (512 * x : Nat) f).1 < 0 := by
        rw [hret]
        decide
      rw [← hpos]
      exact if_neg hnn
    rw [hstep, ih _ _ (fun w hw' => hw w (mem_cons_of_mem v hw')) k,
      hbytes k, vecSectors_cons, overlay_append]

/-- The pieces of a range that lies in the file bring it in order, however they are cut. -/
theorem splice_clear (f : File) (v : BioVec) (mem : Memory) {bsize : Nat}
    (hbs : 0 < bsize) (pos fuel : Nat) :
    ∀ done len, len ≤ fuel → pos + done + len ≤ f.size →
      (splicePieces f.size bsize fuel (pos + done) len).foldl (loSpliceActor lo f v)
          (done, copyTo v 0 (fun i => f.bytes (pos + i)) done mem)
        = (done + len, copyTo v 0 (fun i => f.bytes (pos + i)) (done + len) mem) := by
  induction fuel with
  | zero =>
    intro done len hlen _
    obtain rfl : len = 0 := by omega
    rfl
  | succ fuel ih =>
    intro done len hlen hsize
    have hpage : 0 < pageSize - (pos + done) % pageSize :=
      Nat.sub_pos_of_lt (Nat.mod_lt _ (by decide))
    rw [splicePieces]
    generalize hn : min (min len (f.size - (pos + done)))
      (min (pageSize - (pos + done) % pageSize) bsize) = n
    have hle : n ≤ len := by omega
    by_cases h0 : n = 0
    · obtain rfl : len = 0 := by omega
      simp only [if_pos h0]
      rfl
    · simp only [if_neg h0, foldl_cons]
      have hactor : loSpliceActor lo f v (done, copyTo v 0 (fun i => f.bytes (pos + i)) done mem)
          (pos + done, n) = (done + n, copyTo v 0 (fun i => f.bytes (pos + i)) (done + n) mem) := by
        rw [loSpliceActor, hclear, copyTo_add, zero_add]
        simp only [add_assoc]
      rw [hactor, add_assoc, ih (done + n) (len - n) (by omega) (by omega),
        add_assoc, Nat.add_sub_cancel' hle]

theorem doLoReceive_clear (hbs : 0 < lo.loBlocksize) (f : File) {v : BioVec} (hw : 512 ∣ v.bvLen)
    {x : Nat} (hin : 512 * (x + v.sectors.length) ≤ f.size) (mem : Memory) :
    doLoReceive lo f v (512 * x : Nat) mem
      = ((v.bvLen : Int), delivered mem (fileIo f x v.sectors)) := by
  have hlen : v.bvLen = 512 * v.sectors.length := by
    rw [BioVec.sectors_length]
    omega
  have hsplice := splice_clear hclear f v mem hbs (512 * x) v.bvLen 0 v.bvLen (le_refl _) (by omega)
  rw [doLoReceive, if_neg (by omega), Int.toNat_natCast]
  rw [add_zero, zero_add] at hsplice
  simp only [copyTo] at hsplice
  rw [hsplice, BioVec.sectors, ← copyTo_file, ← BioVec.sectors_length, ← hlen]

theorem loReceive_clear (hbs : 0 < lo.loBlocksize) (f : File) (bio : Bio) (vs : List BioVec) :
    ∀ (x : Nat) (mem : Memory), (∀ v ∈ vs, 512 ∣ v.bvLen) →
      512 * (x + (vecSectors vs).length) ≤ f.size →
      loReceive lo f bio vs (512 * x : Nat) mem
        = (0, delivered mem (fileIo f x (vecSectors vs))) := by
  induction vs with
  | nil => exact fun _ _ _ _ => rfl
  | cons v vs ih =>
    intro x mem hw hin
    rw [vecSectors_cons, length_append] at hin
    have hv := hw v (.head _)
    have hpos : ((512 * x : Nat) : Int) + v.bvLen = (512 * (x + v.sectors.length) : Nat) := by
      rw [BioVec.sectors_length]
      omega
    rw [loReceive, doLoReceive_clear hclear hbs f hv (by omega), hpos]
    show (if (v.bvLen : Int) < 0 then _ else
      if (v.bvLen : Int) ≠ v.bvLen then _ else _) = _
    rw [if_neg (by omega), if_neg (fun h => h rfl),
      ih _ _ (fun w hw' => hw w (mem_cons_of_mem v hw')) (by omega),
      vecSectors_cons, fileIo_append, delivered_append]

end Clear

/-! ## The bypass -/

section Bypass

variable {cfg : Config} {op : DiskOp} {m : Nat → Nat} {d d' : Device H} {isize : Nat}

theorem holds_contents (cfg : Config) (d : Device H) : Holds cfg (contents cfg d) d := by
  intro x v h
  obtain ⟨p, hp, hv⟩ := Option.map_eq_some_iff.mp h
  exact ⟨p, hp, hv⟩

/-- A bio leaves the contents that the abstract disk would have. -/
theorem contents_after (hr : Redirected cfg op.mem op.bio m d d') {x : Nat}
    {v : SectorData} (h : op.apply (contents cfg d) x = some v) :
    contents cfg d' x = some v := by
  have hh : Holds cfg (op.apply (contents cfg d)) d' := by
    cases hw : op.bio.biRw.write with
    | false => exact holds_of_read hr hw (holds_contents cfg d)
    | true => exact holds_of_write hr hw (holds_contents cfg d)
  obtain ⟨p, hp, hv⟩ := hh x v h
  rw [contents, hp, ← hv]
  rfl

theorem backingFile_byte {k : Nat} {v : SectorData} (h : contents cfg d (k / 512) = some v) :
    (backingFile cfg isize d).bytes k = v (byteIdx k) := by
  show ((contents cfg d (k / 512)).getD _) _ = _
  rw [h]
  rfl

theorem NoHoles.contents (hno : NoHoles cfg isize d) {k : Nat}
    (hk : k < isize) : ∃ v, contents cfg d (k / 512) = some v := by
  obtain ⟨p, hp⟩ := Option.ne_none_iff_exists'.mp (hno k hk)
  exact ⟨_, by rw [FileBacked.contents, hp]; rfl⟩

/-- The bytes of the file after a write. -/
theorem backingFile_of_write (hr : Redirected cfg op.mem op.bio m d d')
    (hwrite : op.bio.biRw.write = true) (hno : NoHoles cfg isize d) {k : Nat} (hk : k < isize) :
    (backingFile cfg isize d').bytes k = (overlay op.mem op.bio.sectors op.bio.biSector k).getD
          ((backingFile cfg isize d).bytes k) := by
  obtain ⟨w, hw⟩ := hno.contents hk
  rw [backingFile_byte hw, overlay]
  by_cases hx : op.bio.biSector ≤ k / 512
  · rw [if_pos hx]
    cases hloc : op.bio.sectors[k / 512 - op.bio.biSector]? with
    | some loc =>
      refine backingFile_byte (contents_after hr ?_)
      rw [DiskOp.apply, if_pos ⟨hwrite, hx⟩, hloc]
    | none =>
      refine backingFile_byte (contents_after hr ?_)
      rw [DiskOp.apply, if_pos ⟨hwrite, hx⟩, hloc]
      exact hw
  · rw [if_neg hx]
    refine backingFile_byte (contents_after hr ?_)
    rw [DiskOp.apply, if_neg (fun h => hx h.2)]
    exact hw

theorem backingFile_of_read (hr : Redirected cfg op.mem op.bio m d d')
    (hread : op.bio.biRw.write = false) (hno : NoHoles cfg isize d) {k : Nat} (hk : k < isize) :
    (backingFile cfg isize d').bytes k = (backingFile cfg isize d).bytes k := by
  obtain ⟨w, hw⟩ := hno.contents hk
  rw [backingFile_byte hw]
  refine backingFile_byte (contents_after hr ?_)
  rw [DiskOp.apply, if_neg (by rw [hread]; simp)]
  exact hw

/-- What a read of mapped sectors delivers. -/
theorem delivered_of_read (hr : Redirected cfg op.mem op.bio m d d')
    (hread : op.bio.biRw.write = false) (hno : NoHoles cfg isize d)
    (hin : 512 * (op.bio.biSector + op.bio.sectors.length) ≤ isize) :
    delivered op.mem (newIo d d') = delivered op.mem
      (fileIo (backingFile cfg isize d) op.bio.biSector op.bio.sectors) := by
  apply delivered_congr
  have hio := hr.transfers.2
  rw [hread, (transfers_read _ d).2] at hio
  rw [newIo, hio, drop_left, fileIo, map_map, map_map, place,
    place, mapIdx_eq_zipIdx_map, mapIdx_eq_zipIdx_map, map_map,
    map_map]
  apply map_congr_left
  rintro ⟨loc, k⟩ hmem
  have hk : k < op.bio.sectors.length := (mem_zipIdx' hmem).1
  show (loc, d.disk (physSector m cfg.spb (op.bio.biSector + k))) = (loc, fun j : Fin 512 =>
        (backingFile cfg isize d).bytes (512 * (op.bio.biSector + k) + j.1))
  congr 1
  funext j
  have hbyte : 512 * (op.bio.biSector + k) + j.1 < isize := by
    have := j.2
    omega
  have hdiv : (512 * (op.bio.biSector + k) + j.1) / 512 = op.bio.biSector + k := by
    have := j.2
    omega
  obtain ⟨p, hp⟩ := Option.ne_none_iff_exists'.mp (hno _ hbyte)
  rw [hdiv] at hp
  have hcont : contents cfg d ((512 * (op.bio.biSector + k) + j.1) / 512)
      = some (d.disk (p * cfg.spb + (op.bio.biSector + k) % cfg.spb)) := by
    rw [hdiv, contents, hp]
    rfl
  rw [backingFile_byte hcont, byteIdx_add, byteIdx_val, physSector, hr.read hread k hk, hp]
  rfl

end Bypass

/-! ## Where the two agree -/

section Agree

variable {cfg : Config} {op : DiskOp} {d : Device H} {isize : Nat}
  {info : LoopInfo64} {lo : LoopDev} {page : Nat → UInt8}

theorem pos_eq {x : Nat} (hx : 512 * x < 2 ^ 63) :
    ((BitVec.ofNat 64 x <<< 9) + 0#64).toInt = (512 * x : Nat) := by
  have hnat : (BitVec.ofNat 64 x <<< 9).toNat = 512 * x := by
    rw [BitVec.toNat_shiftLeft, BitVec.toNat_ofNat, Nat.shiftLeft_eq,
      Nat.mod_eq_of_lt (a := x) (by omega), Nat.mod_eq_of_lt (by omega)]
    omega
  rw [BitVec.add_zero, BitVec.toInt_eq_toNat_of_lt (by omega), hnat]

/-- A bio of a device without offset lies in the file. -/
theorem in_file (hsize : isize < 2 ^ 63) (hb : Bound isize lo)
    (hoff : lo.loOffset = 0) (hin : InCapacity lo op) :
    512 * (op.bio.biSector + op.bio.sectors.length) ≤ isize := by
  have hzero : lo.loOffset.toInt = 0 := by
    rw [hoff]
    rfl
  have hcap := hb.capacity_le hsize (Int.le_of_eq hzero.symm)
  unfold InCapacity at hin
  omega

/-- Without offset, and with a transfer function that changes nothing, the file
    path reads and writes the sectors that the bypass does. -/
theorem agrees_of_clear (hf : Fits cfg.prefetchBlocks cfg.blkbits)
    (hfuel : cfg.prefetchBlocks ≤ cfg.fuel) (hsize : isize < 2 ^ 63) (ha : Accepted isize info lo)
    (hoff : lo.loOffset = 0) (hc : ClearText lo) (hr : Reachable cfg d) (hno : NoHoles cfg isize d)
    (hin : InCapacity lo op) : Agrees cfg isize lo page op d := by
  have hfile := in_file hsize ha.bound hoff hin
  have hpos := pos_eq (x := op.bio.biSector) (by omega)
  have hclear := loDoTransfer_clear ha hc
  have hwhole : ∀ v ∈ op.bio.segments, 512 ∣ v.bvLen :=
    fun v hv => op.whole v (mem_of_mem_drop hv)
  obtain ⟨m, d', hrun, hred⟩ := run_redirectBio op.mem hf hfuel 0 op.whole (hr.steady hf hfuel)
  refine ⟨d', hrun, ?_⟩
  unfold doBioFilebacked
  rw [hoff, show (0 : BitVec 64) = 0#64 from rfl, hpos]
  cases hw : op.bio.biRw.write with
  | true =>
    refine ⟨fun k hk => ?_, nofun⟩
    rw [backingFile_of_write hred hw hno hk]
    exact (loSend_clear hclear page op.mem op.bio.segments _ _ hwhole k).symm
  | false =>
    have hbs : 0 < lo.loBlocksize := by
      rw [ha.bound.blocksize]
      decide
    refine ⟨fun k hk => backingFile_of_read hred hw hno hk, fun _ => ?_⟩
    rw [delivered_of_read hred hw hno hfile]
    exact (congrArg Prod.snd (loReceive_clear hclear hbs _ op.bio
      op.bio.segments _ op.mem hwhole hfile)).symm

/-- Empty segments leave the file alone, wherever they are. -/
theorem loSend_empty (mem : Memory) (vs : List BioVec) :
    ∀ (pos : Int) (f : File), (∀ v ∈ vs, v.bvLen = 0) → (loSend lo page mem vs pos f).2 = f := by
  induction vs with
  | nil => exact fun _ _ _ => rfl
  | cons v vs ih =>
    intro pos f hv
    have hone : (doLoSend lo page mem v pos f).2 = f := by
      rw [doLoSend_eq, hv v mem_cons_self, doLoSendBuffer, File.write]
      by_cases hneg : pos < 0
      · simp only [if_pos hneg]
        rfl
      · simp only [if_neg hneg]
        rfl
    rw [loSend]
    generalize doLoSend lo page mem v pos f = r at hone ⊢
    obtain ⟨ret, f'⟩ := r
    obtain rfl : f' = f := hone
    show (if ret < 0 then (ret, f') else _).2 = f'
    split
    · rfl
    · exact ih _ f' (fun w hw => hv w (mem_cons_of_mem v hw))

theorem loReceive_empty (f : File) (bio : Bio) (mem : Memory) (vs : List BioVec) :
    ∀ pos : Int, (∀ v ∈ vs, v.bvLen = 0) → (loReceive lo f bio vs pos mem).2 = mem := by
  induction vs with
  | nil => exact fun _ _ => rfl
  | cons v vs ih =>
    intro pos hv
    have h0 := hv v (.head _)
    rw [loReceive, doLoReceive, h0]
    by_cases hneg : pos < 0
    · rw [if_pos hneg]
      rfl
    · rw [if_neg hneg]
      exact ih _ (fun w hw => hv w (mem_cons_of_mem v hw))

/-- On a device without sectors there is nothing to disagree about. -/
theorem agrees_of_empty (hf : Fits cfg.prefetchBlocks cfg.blkbits)
    (hfuel : cfg.prefetchBlocks ≤ cfg.fuel) (hcap : lo.capacity = 0) (hr : Reachable cfg d)
    (hno : NoHoles cfg isize d) (hin : InCapacity lo op) : Agrees cfg isize lo page op d := by
  obtain ⟨m, d', hrun, hred⟩ := run_redirectBio op.mem hf hfuel 0 op.whole (hr.steady hf hfuel)
  unfold InCapacity at hin
  have hnil : op.bio.sectors = [] := length_eq_zero_iff.mp (by omega)
  have hlen : ∀ v ∈ op.bio.segments, v.bvLen = 0 := by
    intro v hv
    obtain ⟨q, hq⟩ := op.whole v (mem_of_mem_drop hv)
    have hsec : v.sectors = [] := flatMap_eq_nil_iff.mp hnil v hv
    have := congrArg length hsec
    rw [BioVec.sectors_length, length_nil] at this
    omega
  refine ⟨d', hrun, ?_⟩
  unfold doBioFilebacked
  cases hw : op.bio.biRw.write with
  | true =>
    refine ⟨fun k hk => ?_, nofun⟩
    rw [backingFile_of_write hred hw hno hk, hnil]
    show _ = (loSend lo page op.mem op.bio.segments _ _).2.bytes k
    rw [loSend_empty op.mem op.bio.segments _ _ hlen, overlay]
    split <;> rfl
  | false =>
    refine ⟨fun k hk => backingFile_of_read hred hw hno hk, fun _ => ?_⟩
    rw [delivered_of_read hred hw hno (by omega), hnil]
    exact (loReceive_empty _ op.bio op.mem op.bio.segments _ hlen).symm

end Agree

/-! ## Where they differ -/

section Differ

variable {cfg : Config} {isize : Nat} {info : LoopInfo64} {lo : LoopDev} {page : Nat → UInt8}

/-- A file with all its blocks, whose sectors are all alike. -/
def fullDevice (data : SectorData) : Device sparseHost :=
  initDevice sparseHost (fun _ => true) (fun _ => data)

/-- A write of the first sector. -/
def firstWrite (data : SectorData) : DiskOp := .sector true 0 fun _ => data

theorem fullDevice_reachable (data : SectorData) : Reachable cfg (fullDevice data) := .init _ _

theorem fullDevice_noHoles (cfg : Config) (isize : Nat) (data : SectorData) :
    NoHoles cfg isize (fullDevice data) := nofun

theorem fullDevice_byte (cfg : Config) (isize : Nat) (data : SectorData) (k : Nat) :
    (backingFile cfg isize (fullDevice data)).bytes k = data (byteIdx k) :=
  backingFile_byte rfl

/-- The first sector, on the file path. -/
theorem firstWrite_filebacked (data : SectorData) (f : File)
    (hoff : 0 ≤ lo.loOffset.toInt) (k : Nat) :
    (doBioFilebacked lo page (firstWrite data).bio f (firstWrite data).mem).file.bytes k
      = if lo.loOffset.toInt.toNat ≤ k ∧ k < lo.loOffset.toInt.toNat + 512
        then loDoTransfer lo (getByte (firstWrite data).mem ⟨0, 512, 0⟩) page
          (k - lo.loOffset.toInt.toNat)
        else f.bytes k := by
  have hpos : ((BitVec.ofNat 64 0 <<< 9) + lo.loOffset).toInt
      = (lo.loOffset.toInt.toNat : Int) := by
    rw [show BitVec.ofNat 64 0 <<< 9 = 0#64 from rfl, BitVec.zero_add, Int.toNat_of_nonneg hoff]
  show (loSend lo page (firstWrite data).mem [⟨0, 512, 0⟩]
    ((BitVec.ofNat 64 0 <<< 9) + lo.loOffset).toInt f).2.bytes k = _
  rw [hpos]
  obtain ⟨hret, hbytes⟩ := doLoSendBuffer_eq f
    (loDoTransfer lo (getByte (firstWrite data).mem ⟨0, 512, 0⟩) page) 512
    lo.loOffset.toInt.toNat
  rw [loSend, doLoSend_eq]
  generalize doLoSendBuffer f _ _ _ = r at hret hbytes ⊢
  obtain ⟨ret, f'⟩ := r
  obtain rfl : ret = 0 := hret
  exact hbytes k

/-- The first sector, on the bypass. -/
theorem firstWrite_bypass (hf : Fits cfg.prefetchBlocks cfg.blkbits)
    (hfuel : cfg.prefetchBlocks ≤ cfg.fuel) {old data : SectorData}
    (h : Agrees cfg isize lo page (firstWrite data) (fullDevice old)) {k : Nat}
    (hk : k < isize) (hk' : k < 512) :
    (doBioFilebacked lo page (firstWrite data).bio (backingFile cfg isize (fullDevice old))
        (firstWrite data).mem).file.bytes k = data (byteIdx k) := by
  obtain ⟨d', hrun, hfile, -⟩ := h
  obtain ⟨m, hred⟩ := redirected_of_run hf hfuel ((fullDevice_reachable old).steady hf hfuel) hrun
  have hover : overlay (firstWrite data).mem [(0, 0)] 0 k = some (data (byteIdx k)) := by
    rw [overlay, if_pos (Nat.zero_le _), Nat.div_eq_of_lt hk']
    rfl
  rw [← hfile k hk, backingFile_of_write hred rfl (fullDevice_noHoles cfg isize old) hk]
  show (overlay (firstWrite data).mem [(0, 0)] 0 k).getD _ = _
  rw [hover]
  rfl

/-- Behind a positive offset the first byte of the file is not the device's. -/
theorem not_agrees_of_pos (page : Nat → UInt8) (hf : Fits cfg.prefetchBlocks cfg.blkbits)
    (hfuel : cfg.prefetchBlocks ≤ cfg.fuel) (hpos : 0 < lo.loOffset.toInt) (hsize : 0 < isize) :
    ¬ Agrees cfg isize lo page (firstWrite (fun _ => 1)) (fullDevice (fun _ => 0)) := by
  intro h
  have hbyte := firstWrite_bypass hf hfuel h hsize (by decide)
  rw [firstWrite_filebacked _ _ (Int.le_of_lt hpos), if_neg (by omega), fullDevice_byte] at hbyte
  exact absurd hbyte (by decide)

/-- Before the file `lo_receive` fails, and the bypass reads all the same. -/
theorem not_agrees_of_neg (page : Nat → UInt8) (hf : Fits cfg.prefetchBlocks cfg.blkbits)
    (hfuel : cfg.prefetchBlocks ≤ cfg.fuel) (hneg : lo.loOffset.toInt < 0) :
    ¬ Agrees cfg isize lo page (sectorRead 0) (fullDevice (fun _ => 1)) := by
  rintro ⟨d', hrun, -, hmem⟩
  obtain ⟨m, hred⟩ := redirected_of_run hf hfuel ((fullDevice_reachable _).steady hf hfuel) hrun
  have hpos : ((BitVec.ofNat 64 0 <<< 9) + lo.loOffset).toInt < 0 := by
    rw [show BitVec.ofNat 64 0 <<< 9 = 0#64 from rfl, BitVec.zero_add]
    exact hneg
  have hleft : (doBioFilebacked lo page (sectorRead 0).bio
      (backingFile cfg isize (fullDevice (fun _ => 1)))
      (sectorRead 0).mem).mem = (sectorRead 0).mem := by
    show (loReceive lo _ _ [⟨0, 512, 0⟩] ((BitVec.ofNat 64 0 <<< 9) + lo.loOffset).toInt _).2 = _
    rw [loReceive, doLoReceive, if_pos hpos]
    rfl
  have hgot := hmem rfl
  rw [hleft, delivered_of_read hred rfl (fullDevice_noHoles cfg 512 _) (le_refl 512)] at hgot
  -- the sector has arrived in the memory of the reader
  have hbyte := congrFun (congrFun hgot (0, 0)) 0
  have hone : delivered (sectorRead 0).mem (fileIo
      (backingFile cfg 512 (fullDevice (fun _ => 1))) 0 [(0, 0)]) (0, 0) 0
      = 1 :=
    (congrFun (update_self (0, 0) _ (sectorRead 0).mem) 0).trans
      (fullDevice_byte cfg 512 (fun _ => 1) 0)
  exact absurd (hone.symm.trans hbyte) (by decide)

/-- With a key that is not zero the file path writes other bytes. -/
theorem not_agrees_of_key (page : Nat → UInt8) (hf : Fits cfg.prefetchBlocks cfg.blkbits)
    (hfuel : cfg.prefetchBlocks ≤ cfg.fuel) (ha : Accepted isize info lo)
    (hoff : lo.loOffset = 0) (hsize : 512 ≤ isize) (hkey : ¬ ClearText lo) :
    ¬ Agrees cfg isize lo page (firstWrite (fun _ => 0)) (fullDevice (fun _ => 0)) := by
  intro h
  obtain ⟨hnone, hne⟩ := not_or.mp hkey
  obtain ⟨hxor, -⟩ := ha.transfer.resolve_left hnone
  simp only [not_forall] at hne
  obtain ⟨i, hi, hbit⟩ := hne
  have hsmall : i < 32 := lt_of_lt_of_le hi ha.keySize
  have hzero : lo.loOffset.toInt = 0 := by
    rw [hoff]
    rfl
  have hbyte := firstWrite_bypass hf hfuel h (k := i) (by omega) (by omega)
  rw [firstWrite_filebacked _ _ (Int.le_of_eq hzero.symm), hzero,
    if_pos (by omega), loDoTransfer, hxor] at hbyte
  have hidx : (i &&& 511) % lo.loEncryptKeySize.toNat = i := by
    rw [show (511 : Nat) = 2 ^ 9 - 1 from rfl, Nat.and_two_pow_sub_one_eq_mod,
      Nat.mod_eq_of_lt (show i < 2 ^ 9 by omega), Nat.mod_eq_of_lt hi]
  have hread : (0 : UInt8) ^^^ lo.loEncryptKey
      ((i &&& 511) % lo.loEncryptKeySize.toNat) = 0 := hbyte
  rw [hidx, UInt8.zero_xor] at hread
  exact hbit hread

end Differ

/-- The bypass agrees with the file path on the devices without sectors, and on
    those without offset whose transfer function changes nothing. -/
theorem bypass_agrees_iff {cfg : Config} (hf : Fits cfg.prefetchBlocks cfg.blkbits)
    (hfuel : cfg.prefetchBlocks ≤ cfg.fuel) {isize : Nat} (hsize : isize < 2 ^ 63) {caller : Caller}
    {info : LoopInfo64} {lo lo' : LoopDev} (hc : Configured isize lo)
    (hset : loopSetStatus caller isize info lo = (0, lo')) :
    (∀ (H : Host) (d : Device H) (op : DiskOp) (page : Nat → UInt8),
      Reachable cfg d → NoHoles cfg isize d → InCapacity lo' op →
        Agrees cfg isize lo' page op d) ↔
      (lo'.capacity = 0 ∨ (lo'.loOffset = 0 ∧ ClearText lo')) := by
  have ha := loopSetStatus_accepted hc.bound hset
  constructor
  · intro h
    by_cases hcap : lo'.capacity = 0
    · exact Or.inl hcap
    · right
      have hone : 1 ≤ lo'.capacity := Nat.pos_of_ne_zero hcap
      have hno : ¬ lo'.loOffset.toInt < 0 := fun hneg =>
        not_agrees_of_neg (fun _ => 0) hf hfuel hneg
          (h _ _ _ _ (fullDevice_reachable _) (fullDevice_noHoles _ _ _) hone)
      have hfile := (ha.bound.capacity_le hsize (by omega)).resolve_left hcap
      have hzero : lo'.loOffset = 0 := by
        by_contra hne
        have hint : lo'.loOffset.toInt ≠ 0 := fun h0 =>
          hne (BitVec.toInt_inj.mp h0)
        exact not_agrees_of_pos (fun _ => 0) hf hfuel (by omega) (by omega)
          (h _ _ _ _ (fullDevice_reachable _) (fullDevice_noHoles _ _ _) hone)
      refine ⟨hzero, ?_⟩
      by_contra hkey
      exact not_agrees_of_key (fun _ => 0) hf hfuel ha hzero (by omega)
        hkey (h _ _ _ _ (fullDevice_reachable _) (fullDevice_noHoles _ _ _) hone)
  · rintro (hcap | ⟨hoff, hclear⟩) H d op page hr hno hin
    · exact agrees_of_empty hf hfuel hcap hr hno hin
    · exact agrees_of_clear hf hfuel hsize ha hoff hclear hr hno hin

/-! ## Two configurations of a file of 8192 bytes -/

def root : Caller := ⟨0, true⟩

/-- No encryption, and the device starts at byte `offset`. -/
def plainInfo (offset : BitVec 64) : LoopInfo64 :=
  ⟨offset, 0, 0, 0, fun _ => 0⟩

def plainDev (offset : BitVec 64) : LoopDev :=
  (loopSetStatus root 8192 (plainInfo offset) (loopSetFd 8192 unboundDev)).2

/-- At offset 0 every bio agrees. -/
theorem bypass_agrees_plain :
    loopSetStatus root 8192 (plainInfo 0) (loopSetFd 8192 unboundDev) = (0, plainDev 0)
      ∧ ∀ (H : Host) (d : Device H) (op : DiskOp) (page : Nat → UInt8),
        Reachable twoBlocks d → NoHoles twoBlocks 8192 d → InCapacity (plainDev 0) op →
            Agrees twoBlocks 8192 (plainDev 0) page op d := by
  have hset : loopSetStatus root 8192 (plainInfo 0) (loopSetFd 8192 unboundDev)
      = (0, plainDev 0) := rfl
  exact ⟨hset, (bypass_agrees_iff twoBlocks_fits (by decide) (by decide) .setFd
    hset).mpr (Or.inr ⟨rfl, Or.inl rfl⟩)⟩

/-- At offset 512 a write of the first sector of the device goes to the first
    sector of the file, which is not the device's. -/
theorem bypass_ignores_offset :
    loopSetStatus root 8192 (plainInfo 512) (loopSetFd 8192 unboundDev) = (0, plainDev 512)
      ∧ Reachable twoBlocks (fullDevice (fun _ => 0))
      ∧ NoHoles twoBlocks 8192 (fullDevice (fun _ => 0))
      ∧ InCapacity (plainDev 512) (firstWrite (fun _ => 1))
      ∧ ¬ Agrees twoBlocks 8192 (plainDev 512) (fun _ => 0)
          (firstWrite (fun _ => 1)) (fullDevice (fun _ => 0)) :=
  ⟨rfl, fullDevice_reachable _, fullDevice_noHoles _ _ _,
    (by decide : 1 ≤ (plainDev 512).capacity),
    not_agrees_of_pos _ twoBlocks_fits (by decide)
      (by decide : 0 < (plainDev 512).loOffset.toInt) (by decide)⟩

end FileBacked
