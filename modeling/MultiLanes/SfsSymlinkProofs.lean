import MultiLanes.SfsNamespaceProofs

/-! # Symbolic links — through the create path and back

`sfs_symlink` shares its code with `sfs_create` and `sfs_mknod`: all of them fill in a
`struct add_arg` and call `sfs_add_entry`, which builds the SFS inode from the mode in
it before anything is made in a partition. `sfs_symlink` has no mode to give and leaves
the field out, so it is zero, and `sfs_new_inode` knows no such type.

The code is that of SFS with four requests more: the allocation of an inode, the
partition's `symlink` and `readlink`, and the mode of an inode.  A symbolic link is a
file of the partition that has a target.  What `sfs_add_entry` does to the rest of the
state is what `sfs_create` does (`run_addLink`), so a lookup afterwards finds the link
as it finds a new file.  The round trip then depends on the mode alone
(`symlink_roundTrips_iff`). -/

namespace SfsSymlink

open InteractProg Sfs Function

/-! ## Inodes -/

/-- The types that `sfs_new_inode` has operations for. -/
inductive Kind
  | reg
  | dir
  | lnk
deriving DecidableEq, Repr

def sIfmt : Nat := 0o170000
def sIfreg : Nat := 0o100000
def sIfdir : Nat := 0o040000
def sIflnk : Nat := 0o120000

/-- See `Sfs.enoent`. -/
def enomem : Int := -12

/-- See `Sfs.enoent`. -/
def einval : Int := -22

/-- The switch of `sfs_new_inode`. -/
def kindOf (mode : Nat) : Except Int Kind :=
  if mode &&& sIfmt = sIfreg then .ok .reg
  else if mode &&& sIfmt = sIfdir then .ok .dir
  else if mode &&& sIfmt = sIflnk then .ok .lnk
  else .error eio

/-! ## Requests -/

/-- The requests of SFS, and those about inodes and their types. -/
inductive LinkReq where
  | sfs (q : SfsReq)
  /-- `sfs_alloc_inode` -/
  | allocInode
  /-- `i_op->symlink` of the directory of `x` in partition `p` -/
  | symlink (x : Path) (p : Nat) (oldname : List Char)
  /-- `i_mode` -/
  | iMode (p : Nat) (i : Inode)
  /-- `i_op->readlink` -/
  | readlink (p : Nat) (i : Inode)

@[reducible] def LinkReq.Ans : LinkReq → Type
  | .sfs q => q.Ans
  | .allocInode => Bool
  | .symlink _ _ _ => Except Int Nat
  | .iMode _ _ => Nat
  | .readlink _ _ => Option (List Char)

abbrev LinkSig : Sig := ⟨LinkReq, LinkReq.Ans⟩

abbrev LinkCode (α : Type) : Type := Prog LinkSig α

def lift {α : Type} (c : Code α) : LinkCode α :=
  c.expand (fun q => perform (S := LinkSig) (.sfs q))

/-- SFS with the targets of the partitions' symbolic links. -/
structure LinkSys where
  sys : Sys
  target : Nat → Nat → Option (List Char)

/-- The surroundings; `memory` says whether an inode can be had, and `refused` is
    the error of the partition's `symlink`, 0 if it succeeds. -/
def linkHandler (memory : Bool) (refused : Int) : Handler LinkSig LinkSys
  | .sfs q, s => (sysHandler q s.sys).map (fun r => (r.1, { s with sys := r.2 }))
  | .allocInode, s => some (memory, s)
  | .symlink x p oldname, s =>
    match s.sys.disk.node x p with
    | some _ => some ((.error eexist : Except Int Nat), s)
    | none =>
      if refused ≠ 0 then some ((.error refused : Except Int Nat), s)
      else
        some ((.ok s.sys.disk.next : Except Int Nat),
          { sys := s.sys.onDisk (s.sys.disk.addFile x p)
            target := update s.target p
              (update (s.target p) s.sys.disk.next
                (some oldname)) })
  | .iMode p (.file i), s =>
    some (if (s.target p i).isSome then sIflnk ||| 0o777 else sIfreg ||| 0o644, s)
  | .iMode _ .dir, s => some (sIfdir ||| 0o755, s)
  | .readlink p (.file i), s => some (s.target p i, s)
  | .readlink _ .dir, s => some (none, s)

/-! ## The code -/

def sfsNewInode (mode : Nat) : LinkCode (Except Int Kind) := do
  if ← perform (S := LinkSig) .allocInode then return kindOf mode
  else return .error enomem

/-- `struct add_arg`, as far as `sfs_add_entry` is called with it. -/
inductive OpType
  | creat
  | symlink (oldname : List Char)
  | mknod

structure AddArg where
  type : OpType
  mode : Nat

/-- The partition's operation for the entry; a special file is made like any other. -/
def addOp (arg : AddArg) (x : Path) (p : Nat) : LinkCode (Except Int Nat) :=
  match arg.type with
  | .creat => lift (create x p)
  | .symlink oldname => perform (S := LinkSig) (.symlink x p oldname)
  | .mknod => lift (create x p)

/-- `simple_add_entry`. -/
def simpleAddEntry (arg : AddArg) (x : Path) (localId : Nat) : LinkCode Int := do
  match ← lift (createReplicaDir x.tail localId true) with
  | .error err => return err
  | .ok replicaParent =>
    let _ ← lift (getReplicaDentry (some replicaParent) x localId)
    let _ ← lift (deref replicaParent.inode)
    match ← addOp arg x localId with
    | .error err => return err
    | .ok i =>
      lift (storeReplica x localId (some ⟨x, some (.file i)⟩))
      return 0

def sfsAddEntry (N : Nat) (arg : AddArg) (x : Path) : LinkCode Int := do
  let dispatchId ← lift (localDispatch N x.tail)
  match ← sfsNewInode arg.mode with
  | .error err => return err
  | .ok _ =>
    let err ← simpleAddEntry arg x dispatchId
    if err ≠ 0 then return err
    else
      lift (setReplicaId x dispatchId)
      lift (instantiate x true)
      return 0

/-- `sfs_symlink`; a field that an initializer does not name is zero. -/
def sfsSymlink (N : Nat) (x : Path) (oldname : List Char) : LinkCode Int :=
  sfsAddEntry N ⟨.symlink oldname, 0⟩ x

/-- `mode = new->d_inode->i_mode` of the replica at which the loop of
    `sfs_lookup` ended: of a file the one that was found first. -/
def foundMode (d : SfsDentry) : LinkCode Nat :=
  match d.metaId.or d.replicaId with
  | none => return sIfdir ||| 0o755
  | some p => do
    let r ← lift (deref (d.replicas p))
    let i ← lift (deref r.inode)
    perform (S := LinkSig) (.iMode p i)

/-- `sfs_lookup`, with the inode that the dentry gets. -/
def sfsLookup (N : Nat) (x : Path) : LinkCode (Except Int (Option Kind)) := do
  lift (setD x SfsDentry.fresh)
  match ← lift (normalScan N x (List.range N)) with
  | .error err => return .error err
  | .ok false =>
    lift (instantiate x false)
    return .ok none
  | .ok true =>
    let d ← lift (sfsD x)
    let mode ← foundMode d
    match ← sfsNewInode mode with
    | .error err => return .error err
    | .ok kind =>
      lift (instantiate x true)
      return .ok (some kind)

/-- `sfs_readlink`, with what arrives in the buffer. -/
def sfsReadlink (x : Path) (bufsize : Nat) : LinkCode (Except Int (List Char)) := do
  let d ← lift (sfsD x)
  let replicaId ← lift (deref d.replicaId)
  let r ← lift (deref (d.replicas replicaId))
  let i ← lift (deref r.inode)
  match ← perform (S := LinkSig) (.readlink replicaId i) with
  | none => return .error einval
  | some target => return .ok (target.take bufsize)

/-! ## What is asked of it -/

/-- `make` succeeds, a lookup of the name yields a symbolic link, and a buffer
    that is long enough gets its target; the partition's `symlink` succeeds. -/
def RoundTrips (N : Nat) (memory : Bool) (make : LinkCode Int) (x : Path)
    (oldname : List Char) (s : LinkSys) : Prop :=
  ∃ t u, run (linkHandler memory 0) make s = some (0, t)
    ∧ run (linkHandler memory 0) (sfsLookup N x) t = some (.ok (some .lnk), u)
    ∧ ∀ bufsize, oldname.length ≤ bufsize →
        run (linkHandler memory 0) (sfsReadlink x bufsize) u = some (.ok oldname, u)

section Run

variable {α β : Type} {N : Nat} {memory : Bool} {refused : Int} {s t : LinkSys}
  {x : Path} {mode : Nat} {oldname : List Char}

/-! ## Code of SFS in the finer state -/

/-- Code without the new requests leaves the targets as they are. -/
theorem run_lift (c : Code α) : run (linkHandler memory refused) (lift c) s
      = (run sysHandler c s.sys).map (fun r => (r.1, { s with sys := r.2 })) := by
  induction c generalizing s with
  | ret a => rfl
  | ask q k ih =>
    have hq : linkHandler memory refused (.sfs q) s
        = (sysHandler q s.sys).map (fun r => (r.1, { s with sys := r.2 })) :=
      rfl
    show run (linkHandler memory refused) (.ask (.sfs q) fun a => (k a).expand _) s = _
    rw [run_ask, run_ask, hq]
    cases sysHandler q s.sys with
    | none => rfl
    | some r => exact ih r.1

theorem run_lift_bind {c : Code α} {f : α → LinkCode β} {a : α} {u : Sys}
    (h : run sysHandler c s.sys = some (a, u)) :
    run (linkHandler memory refused) (lift c >>= f) s
      = run (linkHandler memory refused) (f a) { s with sys := u } := by
  refine run_bind_some ?_
  rw [run_lift, h]
  rfl

/-! ## The inode -/

theorem run_sfsNewInode (f : Except Int Kind → LinkCode β) :
    run (linkHandler memory refused) (sfsNewInode mode >>= f) s = run (linkHandler memory refused)
          (f (if memory then kindOf mode else .error enomem)) s := by
  have hq : linkHandler memory refused .allocInode s = some (memory, s) := rfl
  rw [sfsNewInode, perform_bind, ask_bind, run_ask_some hq]
  cases memory with
  | true => rfl
  | false => rfl

/-- The inode cannot be built: nothing has been made in a partition then. -/
theorem run_sfsAddEntry_refused {arg : AddArg} {dispatchId : Nat} {u : Sys}
    {err : Int} (hd : Calm (localDispatch N x.tail) s.sys dispatchId u)
    (he : (if memory then kindOf arg.mode else .error enomem) = .error err) :
    run (linkHandler memory refused) (sfsAddEntry N arg x) s = some (err, { s with sys := u }) := by
  rw [sfsAddEntry, run_lift_bind hd.made.run, run_sfsNewInode, he]
  rfl

/-- An error of `sfs_new_inode` is not zero. -/
theorem newInode_error {err : Int}
    (he : (if memory then kindOf mode else .error enomem) = .error err) :
    err ≠ 0 := by
  rintro rfl
  cases memory with
  | false => cases he
  | true =>
    simp only [if_true, kindOf] at he
    split at he
    · cases he
    · split at he
      · cases he
      · split at he
        · cases he
        · cases he

/-! ## The entry -/

/-- The targets after a link was made. -/
def LinkSys.linked (s : LinkSys) (p i : Nat) (oldname : List Char) :
    Nat → Nat → Option (List Char) :=
  update s.target p (update (s.target p) i (some oldname))

theorem linked_self (s : LinkSys) (p i : Nat) (oldname : List Char) :
    s.linked p i oldname p i = some oldname := by
  rw [LinkSys.linked, update_self, update_self]

/-- The partition's `symlink` of a name that is free. -/
theorem run_symlink {p : Nat} (h : s.sys.disk.node x p = none) (f : Except Int Nat → LinkCode β) :
    run (linkHandler memory 0) (perform (S := LinkSig) (.symlink x p oldname) >>= f) s
      = run (linkHandler memory 0) (f (.ok s.sys.disk.next))
          ⟨s.sys.onDisk (s.sys.disk.addFile x p), s.linked p s.sys.disk.next oldname⟩ := by
  have hq : linkHandler memory 0 (.symlink x p oldname) s
      = some ((.ok s.sys.disk.next : Except Int Nat),
        ⟨s.sys.onDisk (s.sys.disk.addFile x p), s.linked p s.sys.disk.next oldname⟩) := by
    simp only [linkHandler, h]
    rfl
  rw [perform_bind, run_ask_some hq]

theorem run_modD {u : Sys} {d : SfsDentry} (h : u.mem x = some d) (g : SfsDentry → SfsDentry) :
    run sysHandler (modD x g) u = some ((), u.setD x (g d)) := by
  have hq : sysHandler (.modD x g) u = some ((), u.setD x (g d)) := by
    simp [sysHandler, h]
  exact run_ask_some hq

variable {D : Path → Prop} {F : Path → Option File} {k : Kind} {dz : SfsDentry}

/-- With a mode that has a type the link is made, and SFS is left as if a file
    had been created. -/
theorem run_addLink (h : Tidy N D F s.sys) (hN : 0 < N) (hN' : N ≤ 1025) (hx : ¬ D x)
    (hX : D x.tail) (hF : F x = none) (hmem : s.sys.mem x = some dz) (hk : kindOf mode = .ok k)
    (oldname : List Char) :
    ∃ t r, run (linkHandler true 0) (sfsAddEntry N ⟨.symlink oldname, mode⟩ x) s = some (0, t)
      ∧ Tidy N D (update F x (some ⟨r, s.sys.disk.next, none, none⟩)) t.sys
      ∧ t.target r s.sys.disk.next = some oldname := by
  obtain ⟨r, s₁, s₂, es, hdisp, hmade, hget, hfree, hnext, ht⟩ :=
    h.place hN hN' hx hX hF hmem
  refine ⟨⟨_, s.linked r s₂.disk.next oldname⟩, r, ?_, ht, ?_⟩
  · rw [sfsAddEntry, run_lift_bind hdisp.made.run, run_sfsNewInode, if_pos rfl, hk]
    show run _ (simpleAddEntry _ x r >>= _) _ = _
    rw [simpleAddEntry, bind_bind, run_lift_bind hmade.run]
    show run _ ((lift (getReplicaDentry (some ⟨x.tail, some .dir⟩) x r) >>= _) >>= _) _ = _
    rw [bind_bind, run_lift_bind hget.made.run]
    show run _ ((perform (S := LinkSig) (.symlink x r oldname) >>= _) >>= _) _ = _
    rw [bind_bind, run_symlink (by exact hfree)]
    -- what is stored in the dentry, three times
    show run (linkHandler true 0) ((lift (storeReplica x r _) >>= fun _ => .ret 0) >>= _)
      (⟨s₂.one x (dz.fill s₂.disk x r) (s₂.disk.addFile x r), _⟩ : LinkSys) = _
    rw [bind_bind, run_lift_bind (run_modD one_mem _)]
    show run _ (lift (setReplicaId x r) >>= _) _ = _
    rw [one_setD, run_lift_bind (run_modD one_mem _)]
    show run _ (lift (instantiate x true) >>= _) _ = _
    rw [one_setD, run_lift_bind (run_modD one_mem _), one_setD, SfsDentry.fill,
      setReplica_setReplica]
    rfl
  · rw [hnext]
    exact linked_self ..

/-! ## The lookup -/

/-- The dentry after the loop of `sfs_lookup` met a plain file. -/
def plainDentry (d : Disk) (x : Path) (f : File) : SfsDentry :=
  { SfsDentry.fresh.fill d x f.data with replicaId := some f.data }

/-- The loop of `sfs_lookup` at a plain file. -/
theorem calm_normalScan_plain {u : Sys} {c : Nat} {Z : Path} {dZ : SfsDentry} {f : File}
    (w : World N D u.disk) (hD : ¬ D (c :: Z)) (hZ : u.mem Z = some dZ)
    (hR : Reflects N u.disk Z dZ) (hn : Named u.disk (c :: Z) (some f)) (hp : f.parted = none) :
    Calm (normalScan N (c :: Z) (List.range N)) (u.one (c :: Z) .fresh u.disk) (.ok true)
      (u.one (c :: Z) (plainDentry u.disk (c :: Z) f) u.disk) := by
  obtain ⟨hnormal, hlinks⟩ := (hn.fits f rfl).plain hp
  have hcol : u.disk.col (c :: Z) = only f.data (f.ino, f.attr) :=
    hn.col.trans (File.colWith_plain hp)
  have hfirst := First.of_only hcol hnormal
  have hspot := hfirst.spot hZ hR
  have hattr := (col_eq_some.mp hfirst.col).2
  obtain ⟨qs, hqs⟩ := range_split (w.within hfirst.normal)
  have hbefore : ∀ q ∈ List.range f.data, u.disk.node Z q = some (.dir true) →
      u.disk.node (c :: Z) q = none := by
    intro q hq hq'
    exact (w.col_none_iff hD).mp (hfirst.before (List.mem_range.mp hq) hq')
  refine ⟨rfl, fun e I G Q => ?_⟩
  rw [hqs, normalScan_file hZ hR rfl hfirst.normal hspot.node hbefore]
  rcases hlinks with ha | ha
  · simp [foundFile, validatePartitionedFile, SfsDentry.IsFile, hspot.slot,
      hattr, ha, bind_bind, plainDentry]
  · simp [foundFile, validatePartitionedFile, SfsDentry.IsFile, hspot.slot,
      hattr, ha, Ptrs.unset, validateHidden, validateRename, validatePointer,
      bind_bind, plainDentry]

theorem run_sfsD {u : Sys} {d : SfsDentry} (h : u.mem x = some d) :
    run sysHandler (sfsD x) u = some (d, u) := by
  have hq : sysHandler (.sfsD x) u = some (d, u) := by simp [sysHandler, h]
  exact run_ask_some hq

/-- A dentry leads to inode `i` of partition `p`. -/
structure Leads (s : LinkSys) (x : Path) (p i : Nat) (d : SfsDentry) : Prop where
  mem : s.sys.mem x = some d
  replicaId : d.replicaId = some p
  slot : d.replicas p = some ⟨x, some (.file i)⟩

/-- The mode of a file that is not partitioned and has a target. -/
theorem run_foundMode {p i : Nat} {d : SfsDentry} (h : Leads s x p i d) (hmeta : d.metaId = none)
    (ht : s.target p i = some oldname) (f : Nat → LinkCode β) :
    run (linkHandler memory refused) (foundMode d >>= f) s
      = run (linkHandler memory refused) (f (sIflnk ||| 0o777)) s := by
  have hq : linkHandler memory refused (.iMode p (.file i)) s = some (sIflnk ||| 0o777, s) := by
    simp [linkHandler, ht]
  rw [foundMode, hmeta, h.replicaId]
  show run _ ((lift (deref (d.replicas p)) >>= _) >>= f) s = _
  rw [h.slot]
  exact run_ask_some hq

/-- The lookup of a name that is a link. -/
theorem run_lookup_link {r i : Nat} (h : Tidy N D F t.sys) (hx : ¬ D x) (hX : D x.tail)
    (hF : F x = some ⟨r, i, none, none⟩) (ht : t.target r i = some oldname) :
    ∃ u d, run (linkHandler true 0) (sfsLookup N x) t = some (.ok (some .lnk), u)
      ∧ Leads u x r i d ∧ u.target = t.target := by
  cases x with
  | nil => exact absurd h.world.root hx
  | cons c Z =>
    obtain ⟨dZ, hZ, hR⟩ := h.seen hX
    have hn := h.named hx hX
    rw [hF] at hn
    have hscan := calm_normalScan_plain h.world hx hZ hR hn rfl
    have hlead : Leads ⟨t.sys.one (c :: Z)
        (plainDentry t.sys.disk (c :: Z) ⟨r, i, none, none⟩) t.sys.disk,
        t.target⟩ (c :: Z) r i
        (plainDentry t.sys.disk (c :: Z) ⟨r, i, none, none⟩) := by
      refine ⟨one_mem, rfl, ?_⟩
      show (SfsDentry.fresh.fill t.sys.disk (c :: Z) r).replicas r = _
      rw [SfsDentry.fill, setReplica_self, Disk.slot, hn.data_node]
      rfl
    refine ⟨⟨t.sys.one (c :: Z) { plainDentry t.sys.disk (c :: Z)
      ⟨r, i, none, none⟩ with positive := true } t.sys.disk, t.target⟩, _,
      ?_, ⟨one_mem, rfl, hlead.slot⟩, rfl⟩
    rw [sfsLookup, run_lift_bind rfl]
    show run _ (lift (normalScan N (c :: Z) (List.range N)) >>= _) _ = _
    rw [run_lift_bind hscan.made.run]
    show run _ (lift (sfsD (c :: Z)) >>= _) _ = _
    rw [run_lift_bind (run_sfsD one_mem)]
    show run _ (foundMode _ >>= _) _ = _
    rw [run_foundMode hlead rfl ht, run_sfsNewInode]
    show run _ (lift (instantiate (c :: Z) true) >>= _) _ = _
    rw [run_lift_bind (run_modD one_mem _), one_setD]
    rfl

/-- `readlink` of a dentry that leads to a link. -/
theorem run_readlink {r i : Nat} {d : SfsDentry} (h : Leads s x r i d)
    (ht : s.target r i = some oldname) (bufsize : Nat) :
    run (linkHandler memory refused) (sfsReadlink x bufsize) s
      = some (.ok (oldname.take bufsize), s) := by
  have hq : linkHandler memory refused (.readlink r (.file i)) s = some (some oldname, s) := by
    simp [linkHandler, ht]
  rw [sfsReadlink, run_lift_bind (run_sfsD h.mem), h.replicaId]
  show run _ (lift (deref (d.replicas r)) >>= _) s = _
  rw [h.slot]
  show run _ (perform (S := LinkSig) (.readlink r (.file i)) >>= _) s = _
  rw [perform_bind, run_ask_some hq]
  rfl

/-! ## The round trip -/

/-- An entry made with type `Symlink` and a mode goes there and back exactly when
    an inode can be built for the mode. -/
theorem addEntry_roundTrips_iff (h : Tidy N D F s.sys) (hN : 0 < N) (hN' : N ≤ 1025) (hx : ¬ D x)
    (hX : D x.tail) (hF : F x = none) (hmem : s.sys.mem x = some dz) (oldname : List Char) :
    RoundTrips N memory (sfsAddEntry N ⟨.symlink oldname, mode⟩ x) x oldname s
      ↔ memory = true ∧ ∃ k, kindOf mode = .ok k := by
  obtain ⟨r, s₁, s₂, es, hdisp, -⟩ := h.place hN hN' hx hX hF hmem
  constructor
  · rintro ⟨t, u, hmake, -⟩
    cases hk : (if memory then kindOf mode else .error enomem) with
    | error err =>
      rw [run_sfsAddEntry_refused hdisp hk] at hmake
      cases hmake
      exact absurd rfl (newInode_error hk)
    | ok k =>
      cases memory with
      | false => cases hk
      | true => exact ⟨rfl, k, hk⟩
  · rintro ⟨rfl, k, hk⟩
    obtain ⟨t, r, hmake, hT, htarget⟩ :=
      run_addLink h hN hN' hx hX hF hmem hk oldname
    obtain ⟨u, d, hlook, hlead, hsame⟩ :=
      run_lookup_link hT hx hX (update_self ..) htarget
    refine ⟨t, u, hmake, hlook, fun bufsize hbuf => ?_⟩
    rw [run_readlink hlead (by rw [hsame]; exact htarget), List.take_of_length_le hbuf]

variable (memory) in
/-- The round trip of `sfs_symlink` through any consistent directory.  With the mode in
    `add_arg` left to be chosen it holds exactly for the types that `sfs_new_inode` knows;
    `sfs_symlink` leaves the mode zero, and it never holds. -/
theorem symlink_roundTrips_iff (h : Tidy N D F s.sys) (hN : 0 < N) (hN' : N ≤ 1025) (hx : ¬ D x)
    (hX : D x.tail) (hF : F x = none) (hmem : s.sys.mem x = some dz) (oldname : List Char) :
    (∀ mode, RoundTrips N memory (sfsAddEntry N ⟨.symlink oldname, mode⟩ x) x
        oldname s ↔ memory = true ∧ ∃ k, kindOf mode = .ok k)
      ∧ ¬ RoundTrips N memory (sfsSymlink N x oldname) x oldname s := by
  refine ⟨fun mode => addEntry_roundTrips_iff h hN hN' hx hX hF hmem oldname, ?_⟩
  rw [sfsSymlink, addEntry_roundTrips_iff h hN hN' hx hX hF hmem oldname]
  rintro ⟨-, k, hk⟩
  exact nomatch hk

end Run

/-! ## A link in a mount with two files -/

/-- The mount `duoSys`, without any link. -/
def duoLinks : LinkSys := ⟨duoSys, fun _ _ => none⟩

theorem duo_cached : ∃ dz, duoSys.mem [2] = some dz := by
  have hnamed : Named duo [2] none := duo_tidy.named (by decide) (by decide)
  obtain ⟨dz, hdz, -⟩ := (cachedSys_ready duo_world (by decide)
    (F := duoFiles) (by decide) (by decide) hnamed).shows
  exact ⟨dz, hdz⟩

/-- With `S_IFLNK | 0777` a link in the root would do. -/
theorem duo_symlink : RoundTrips 2 true
        (sfsAddEntry 2 ⟨.symlink ['t'], sIflnk ||| 0o777⟩ [2]) [2] ['t'] duoLinks
      ∧ ¬ RoundTrips 2 true (sfsSymlink 2 [2] ['t']) [2] ['t'] duoLinks := by
  obtain ⟨dz, hdz⟩ := duo_cached
  obtain ⟨hiff, hnever⟩ := symlink_roundTrips_iff (s := duoLinks) true duo_tidy
    (by decide) (by decide) (by decide) (by decide) rfl hdz ['t']
  exact ⟨(hiff _).mpr ⟨rfl, .lnk, rfl⟩, hnever⟩

/-- The link cannot be made: `-EIO`, whatever the partition would say. -/
theorem symlink_fails :
    (∃ t, run (linkHandler true 0) (sfsSymlink 2 [2] ['t']) duoLinks = some (eio, t))
      ∧ ¬ RoundTrips 2 true (sfsSymlink 2 [2] ['t']) [2] ['t'] duoLinks := by
  obtain ⟨dz, hdz⟩ := duo_cached
  obtain ⟨r, s₁, s₂, es, hdisp, -⟩ := duo_tidy.place (by decide) (by decide)
    (by decide) (by decide) rfl hdz
  refine ⟨⟨_, run_sfsAddEntry_refused (s := duoLinks) hdisp rfl⟩, ?_⟩
  rw [sfsSymlink, addEntry_roundTrips_iff (s := duoLinks) duo_tidy (by decide)
    (by decide) (by decide) (by decide) rfl hdz]
  rintro ⟨-, k, hk⟩
  exact nomatch hk

end SfsSymlink
