import MultiLanes.SfsLookupProofs
import Mathlib.Data.Nat.Find

/-! # SFS — the walk to a directory

The lookup of a directory ends with a scan of all partitions, which adds every replica
and counts the normal ones.  `Scanned` is what has been seen of the directory after some
partitions; after all of them the dentry shows the disks, so that a walk from the root
does (`walk_dirSeen`), and a fresh lookup of a file is what `Finds` says
(`Finds.seenAt`). -/

namespace Sfs

open InteractProg Function List

/-- The marks of the partitions in `S` have been counted. -/
structure Marked (N : Nat) (d : Disk) (z : Path) (S : Nat → Prop) (dz : SfsDentry) : Prop where
  map : ∀ p, dz.normalDirMap p = true ↔ S p ∧ d.node z p = some (.dir true)
  count : dz.normalDirCount = (range N).countP dz.normalDirMap
  counter : dz.localCounter = 0

/-- The partitions in `S` have been looked into. -/
structure Scanned (N : Nat) (d : Disk) (z : Path) (S : Nat → Prop)
    (dz : SfsDentry) : Prop extends Marked N d z S dz where
  seen : ∀ {p}, S p → dz.replicas p = (d.node z p).map (fun o => ⟨z, some o.inode⟩)
  null : ∀ {p}, ¬ S p → dz.replicas p = none

section Marks

variable {N : Nat} {d : Disk} {z : Path} {S : Nat → Prop} {dz : SfsDentry} {p : Nat}

theorem countP_update {f : Nat → Bool} {l : List Nat} (hl : l.Nodup)
    (hp : p ∈ l) (hf : f p = false) :
    l.countP (update f p true) = l.countP f + 1 := by
  induction l with
  | nil => cases hp
  | cons q l ih =>
    obtain ⟨hq, hl'⟩ := nodup_cons.mp hl
    by_cases hqp : q = p
    · have hsame : l.countP (update f p true) = l.countP f :=
        countP_congr fun r hr => by
          have hrp : r ≠ p := fun h => hq (hqp.trans h.symm ▸ hr)
          rw [update_of_ne hrp]
      rw [countP_cons_of_pos (by rw [hqp, update_self]),
        countP_cons_of_neg (by rw [hqp, hf]; exact nofun), hsame]
    · have hmem : p ∈ l := (mem_cons.mp hp).resolve_left (Ne.symm hqp)
      rw [countP_cons, countP_cons, ih hl' hmem, update_of_ne hqp]
      omega

/-- `check_normal_dir` for one more partition. -/
def SfsDentry.check (dz : SfsDentry) (d : Disk) (z : Path) (p : Nat) : SfsDentry :=
  if d.node z p = some (.dir true) then
    { dz.addNormal p with firstNormalDirId := some p }
  else dz

/-- What `check_normal_dir` returns. -/
def Disk.normalAnswer (d : Disk) (z : Path) (p : Nat) : Int :=
  if d.node z p = some (.dir true) then 1 else 0

theorem still_checkNormalDir {s : Sys} :
    Still (checkNormalDir z p) (s.one z dz d) (d.normalAnswer z p)
      (s.one z (dz.check d z p) d) := by
  by_cases h : d.node z p = some (.dir true) <;>
    simp [checkNormalDir, h, onlyIf, SfsDentry.check, Disk.normalAnswer]

/-- A partition is recorded as the first normal one once there is one, and it is normal. -/
def Recorded (d : Disk) (z : Path) (dz : SfsDentry) : Prop :=
  dz.normalDirCount ≠ 0 → ∃ f, dz.firstNormalDirId = some f ∧ d.node z f = some (.dir true)

theorem Recorded.check (h : Recorded d z dz) : Recorded d z (dz.check d z p) := by
  unfold SfsDentry.check
  split
  · next hn => exact fun _ => ⟨p, rfl, hn⟩
  · exact h

theorem recorded_fresh : Recorded d z .fresh := fun h => absurd rfl h

theorem check_replicas : (dz.check d z p).replicas = dz.replicas := by
  unfold SfsDentry.check
  split <;> rfl

theorem check_positive : (dz.check d z p).positive = dz.positive := by
  unfold SfsDentry.check
  split <;> rfl

theorem check_replicaId : (dz.check d z p).replicaId = dz.replicaId := by
  unfold SfsDentry.check
  split <;> rfl

theorem Marked.check (h : Marked N d z S dz) (hp : p < N) (hS : ¬ S p) :
    Marked N d z (fun q => S q ∨ q = p) (dz.check d z p) := by
  have hoff : dz.normalDirMap p = false := by
    rw [← Bool.not_eq_true, h.map]
    exact fun hS' => hS hS'.1
  unfold SfsDentry.check
  split
  · next hn =>
    refine ⟨fun q => ?_, ?_, h.counter⟩
    · show update dz.normalDirMap p true q = true ↔ _
      by_cases hq : q = p
      · rw [hq, update_self]
        exact ⟨fun _ => ⟨.inr rfl, hn⟩, fun _ => rfl⟩
      · rw [update_of_ne hq, h.map, or_iff_left hq]
    · show dz.normalDirCount + 1 = (range N).countP (update dz.normalDirMap p true)
      rw [h.count, countP_update nodup_range (mem_range.mpr hp) hoff]
  · next hn =>
    refine ⟨fun q => ?_, h.count, h.counter⟩
    rw [h.map]
    constructor
    · exact fun hq => ⟨.inl hq.1, hq.2⟩
    · rintro ⟨hq | rfl, hm⟩
      · exact ⟨hq, hm⟩
      · exact absurd hm hn

theorem Scanned.check (h : Scanned N d z S dz) (hp : p < N) (hS : ¬ S p)
    {o : Obj} (hn : d.node z p = some o) :
    Scanned N d z (fun q => S q ∨ q = p) ((dz.fill d z p).check d z p) where
  toMarked := Marked.check ⟨h.map, h.count, h.counter⟩ hp hS
  seen {q} hq := by
    rw [check_replicas]
    by_cases hqp : q = p
    · rw [hqp, SfsDentry.fill, setReplica_self, Disk.slot, hn]
      rfl
    · rw [SfsDentry.fill, setReplica_of_ne hqp]
      exact h.seen (hq.resolve_right hqp)
  null {q} hq := by
    obtain ⟨hq', hqp⟩ := not_or.mp hq
    rw [check_replicas, SfsDentry.fill, setReplica_of_ne hqp]
    exact h.null hq'

/-- A partition where there is nothing. -/
theorem Scanned.skip (h : Scanned N d z S dz) (hn : d.node z p = none) :
    Scanned N d z (fun q => S q ∨ q = p) dz where
  map q := by
    rw [h.map]
    constructor
    · exact fun hq => ⟨.inl hq.1, hq.2⟩
    · rintro ⟨hq | rfl, hm⟩
      · exact ⟨hq, hm⟩
      · cases hn.symm.trans hm
  count := h.count
  counter := h.counter
  seen {q} hq := by
    by_cases hS : S q
    · exact h.seen hS
    · cases hq.resolve_left hS
      rw [hn]
      exact h.null hS
  null {q} hq := h.null (fun hS => hq (.inl hS))

theorem Scanned.congr {S' : Nat → Prop} (h : Scanned N d z S dz)
    (hS : ∀ q, S' q ↔ S q) : Scanned N d z S' dz where
  map q := by rw [h.map, hS]
  count := h.count
  counter := h.counter
  seen hq := h.seen ((hS _).mp hq)
  null hq := h.null (fun hq' => hq ((hS _).mpr hq'))

theorem scanned_fresh : Scanned N d z (fun _ => False) .fresh where
  map p := by simp [SfsDentry.fresh]
  count := by simp [SfsDentry.fresh]
  counter := rfl
  seen h := h.elim
  null _ := rfl

end Marks

section Directory

variable {N : Nat} {D : Path → Prop} {s : Sys} {d : Disk} {c : Nat} {Z : Path}
  {dZ dz : SfsDentry}

/-- The name is that of a directory wherever it is: in partitions that hold the parent. -/
structure DirAt (N : Nat) (d : Disk) (x : Path) : Prop where
  dir : ∀ {p o}, d.node x p = some o → ∃ b, o = .dir b
  held : ∀ {p o}, d.node x p = some o → ∃ b, d.node x.tail p = some (.dir b)
  within : ∀ {p o}, d.node x p = some o → p < N

theorem World.dirAt (w : World N D d) (hD : D (c :: Z)) : DirAt N d (c :: Z) where
  dir hn := w.dir_of hD hn
  held hn := w.held hn
  within hn := w.within hn

/-- The scan of all partitions: each step looks into one more. -/
theorem fullScan_scanned (hdir : DirAt N d (c :: Z)) (hZ : s.mem Z = some dZ)
    (hR : Reflects N d Z dZ) {ps : List Nat} (hps : ∀ p ∈ ps, p < N) {S : Nat → Prop}
    (h : Scanned N d (c :: Z) S dz) :
    ∃ dz', Scanned N d (c :: Z) (fun q => S q ∨ q ∈ ps) dz'
      ∧ (Recorded d (c :: Z) dz → Recorded d (c :: Z) dz')
      ∧ dz'.replicaId = dz.replicaId
      ∧ Still (fullScan (c :: Z) ps) (s.one (c :: Z) dz d) (.ok true) (s.one (c :: Z) dz' d) := by
  induction ps generalizing S dz with
  | nil => exact ⟨dz, h.congr (fun q => by simp), id, rfl, .ret⟩
  | cons p ps ih =>
    have hps' : ∀ q ∈ ps, q < N := fun q hq => hps q (.tail _ hq)
    have hcongr : ∀ {S' : Nat → Prop} {dz'}, (∀ q, S' q ↔ S q ∨ q = p) →
        Scanned N d (c :: Z) (fun q => S' q ∨ q ∈ ps) dz' →
        Scanned N d (c :: Z) (fun q => S q ∨ q ∈ p :: ps) dz' := by
      intro S' dz' hS' h'
      refine h'.congr (fun q => ?_)
      rw [mem_cons, hS', or_assoc]
    cases hn : d.node (c :: Z) p with
    | none =>
      obtain ⟨dz', hsc, hrec, hid, hstill⟩ := ih hps' (h.skip hn)
      exact ⟨dz', hcongr (fun q => Iff.rfl) hsc, hrec, hid, (still_probe_none hZ hn).bind hstill⟩
    | some o =>
      obtain ⟨b, rfl⟩ := hdir.dir hn
      by_cases hS : S p
      · -- this one was found before
        obtain ⟨dz', hsc, hrec, hid, hstill⟩ := ih hps' h
        refine ⟨dz', hcongr (fun q => ?_) hsc, hrec, hid, (still_probe_known hZ ?_).bind hstill⟩
        · exact ⟨.inl, fun hq => hq.elim id (fun hq => hq ▸ hS)⟩
        · rw [h.seen hS, hn]
          exact nofun
      · obtain ⟨b', hb'⟩ := hdir.held hn
        obtain ⟨dz', hsc, hrec, hid, hstill⟩ :=
          ih hps' (h.check (hps p (.head _)) hS hn)
        have hfill : Recorded d (c :: Z) dz → Recorded d (c :: Z) (dz.fill d (c :: Z) p) := id
        refine ⟨dz', hcongr (fun q => Iff.rfl) hsc,
          fun h => hrec (hfill h).check, hid.trans check_replicaId, ?_⟩
        exact (still_probe_some hZ hR hb' (.inl rfl) (h.null hS) hn).bind
          (still_checkNormalDir.bind hstill)

theorem Scanned.reflects {z : Path} {S : Nat → Prop} (hw : ∀ {p o}, d.node z p = some o → p < N)
    (hN : 0 < N) (h : Scanned N d z S dz) (hS : ∀ p, p < N → S p) :
    Reflects N d z { dz with positive := true } where
  positive := rfl
  sound p := by
    show dz.replicas p = none ∨ dz.replicas p = some (d.slot z p)
    cases hn : d.node z p with
    | none =>
      by_cases hp : S p
      · exact .inl (by rw [h.seen hp, hn]; rfl)
      · exact .inl (h.null hp)
    | some o =>
      refine .inr ?_
      rw [h.seen (hS p (hw hn)), Disk.slot, hn]
      rfl
  full {p o} hn := by
    show dz.replicas p = some (d.slot z p)
    rw [h.seen (hS p (hw hn)), Disk.slot, hn]
    rfl
  map p := by
    show dz.normalDirMap p = true ↔ _
    rw [h.map]
    exact ⟨fun hp => hp.2, fun hp => ⟨hS p (hw hp), hp⟩⟩
  count := h.count
  counter := by
    show dz.localCounter < N
    rw [h.counter]
    exact hN

/-- A normal partition of the parent has the name. -/
def ShownAt (d : Disk) (x : Path) : Prop :=
  ∃ p, d.node x.tail p = some (.dir true) ∧ d.node x p ≠ none

theorem World.shownAt (w : World N D d) (hD : D (c :: Z)) : ShownAt d (c :: Z) := by
  obtain ⟨p, hp, o, ho⟩ := w.shown hD
  exact ⟨p, hp, by rw [ho]; exact nofun⟩

/-- The least partition where a directory is found. -/
theorem DirAt.first_shown (hdir : DirAt N d (c :: Z)) (hex : ShownAt d (c :: Z)) :
    ∃ p b, d.node Z p = some (.dir true) ∧ d.node (c :: Z) p = some (.dir b)
      ∧ ∀ q < p, d.node Z q = some (.dir true) → d.node (c :: Z) q = none := by
  classical
  obtain ⟨hp, hn⟩ := Nat.find_spec hex
  obtain ⟨o, ho⟩ := Option.ne_none_iff_exists'.mp hn
  obtain ⟨b, rfl⟩ := hdir.dir ho
  refine ⟨Nat.find hex, b, hp, ho, fun q hq hq' => ?_⟩
  by_contra hne
  exact Nat.find_min hex hq ⟨hq', hne⟩

theorem normalScan_dir (hZ : s.mem Z = some dZ) (hR : Reflects N d Z dZ)
    {p : Nat} {b : Bool} (hslot : dz.replicas p = none)
    (hn : d.node Z p = some (.dir true))
    (hdir : d.node (c :: Z) p = some (.dir b)) {ps qs : List Nat}
    (h : ∀ q ∈ ps, d.node Z q = some (.dir true) → d.node (c :: Z) q = none)
    {r : Except Int Bool} {t : Sys}
    (hfull : Still (fullScan (c :: Z) (range N))
      (s.one (c :: Z) ((dz.fill d (c :: Z) p).check d (c :: Z) p) d) r t) :
    Still (normalScan N (c :: Z) (ps ++ p :: qs)) (s.one (c :: Z) dz d) r t :=
  normalScan_append hZ hR h <|
    (still_probe_some hZ hR hn (.inr rfl) hslot hdir).bind (still_checkNormalDir.bind hfull)

/-- The lookup of a directory that a normal partition of the parent has: every
    partition is looked into. -/
theorem sfsLookup_scanned (hdir : DirAt N s.disk (c :: Z)) (hex : ShownAt s.disk (c :: Z))
    (hZ : s.mem Z = some dZ) (hR : Reflects N s.disk Z dZ) :
    ∃ dz, Scanned N s.disk (c :: Z) (fun p => p < N) dz
      ∧ Recorded s.disk (c :: Z) dz ∧ dz.replicaId = none
      ∧ Still (sfsLookup N (c :: Z)) s 0 (s.one (c :: Z) { dz with positive := true } s.disk) := by
  obtain ⟨p, b, hp, hnode, hbefore⟩ := hdir.first_shown hex
  have hlt := hdir.within hnode
  obtain ⟨qs, hqs⟩ := range_split hlt
  have hone := (scanned_fresh (N := N)).check hlt (fun h => h) hnode
  obtain ⟨dz, hsc, hrec, hid, hstill⟩ := fullScan_scanned hdir hZ hR
    (fun q (hq : q ∈ range N) => mem_range.mp hq) hone
  have hscan : Still (normalScan N (c :: Z) (range p ++ p :: qs))
      (s.one (c :: Z) .fresh s.disk) (.ok true) (s.one (c :: Z) dz s.disk) :=
    normalScan_dir hZ hR rfl hp hnode (fun q hq => hbefore q (mem_range.mp hq)) hstill
  rw [← hqs] at hscan
  have hfirst : Recorded s.disk (c :: Z) (SfsDentry.fresh.fill s.disk (c :: Z) p) := recorded_fresh
  refine ⟨dz, hsc.congr fun q => ?_, hrec hfirst.check, hid.trans check_replicaId, ?_⟩
  · rw [mem_range]
    constructor
    · exact fun hq => .inr hq
    · rintro ((hq | rfl) | hq)
      · exact hq.elim
      · exact hlt
      · exact hq
  · rw [sfsLookup, still_setD, setD_eq_one]
    refine hscan.bind ?_
    simp [instantiate]

/-- The lookup of a directory. -/
theorem sfsLookup_dir (hN : 0 < N) (hdir : DirAt N s.disk (c :: Z)) (hex : ShownAt s.disk (c :: Z))
    (hZ : s.mem Z = some dZ) (hR : Reflects N s.disk Z dZ) :
    ∃ dz, Reflects N s.disk (c :: Z) dz ∧ Recorded s.disk (c :: Z) dz ∧ dz.replicaId = none
      ∧ Still (sfsLookup N (c :: Z)) s 0 (s.one (c :: Z) dz s.disk) := by
  obtain ⟨dz, hsc, hrec, hid, hstill⟩ := sfsLookup_scanned hdir hex hZ hR
  exact ⟨{ dz with positive := true },
    hsc.reflects hdir.within hN (fun _ hq => hq), hrec, hid, hstill⟩

/-- The lookup of a name that no normal partition of the parent has. -/
theorem sfsLookup_notShown (hex : ¬ ShownAt s.disk (c :: Z))
    (hZ : s.mem Z = some dZ) (hR : Reflects N s.disk Z dZ) :
    Still (sfsLookup N (c :: Z)) s 0 (s.one (c :: Z) .fresh s.disk) := by
  have hnone : ∀ p ∈ range N, s.disk.node Z p = some (.dir true) →
      s.disk.node (c :: Z) p = none := by
    intro p _ hp
    by_contra hn
    exact hex ⟨p, hp, hn⟩
  rw [sfsLookup, still_setD, setD_eq_one]
  refine (normalScan_none hZ hR hnone).bind ?_
  simp [instantiate, SfsDentry.fresh]

/-- What a lookup of a directory on a fresh dentry is to find: if some normal partition
    of the parent has it, the dentry gets exactly the replicas, the bits of exactly the
    normal ones, and their number; otherwise nothing is found. -/
def Discovers (h : Handler SfsSig Sys) (N : Nat) (s : Sys) (x : Path) : Prop :=
  ∃ t dz, run h (sfsLookup N x) s = some (0, t) ∧ t.mem x = some dz ∧ t.disk = s.disk
    ∧ (ShownAt s.disk x → dz.positive = true
        ∧ (∀ p, dz.replicas p = (s.disk.node x p).map (fun o => ⟨x, some o.inode⟩))
        ∧ (∀ p, dz.normalDirMap p = true ↔ s.disk.node x p = some (.dir true))
        ∧ dz.normalDirCount = (range N).countP (fun p => s.disk.node x p = some (.dir true)))
    ∧ (¬ ShownAt s.disk x → dz = .fresh)

/-- The marks of any partitions that hold the directory are found, when all can be read. -/
theorem sfsLookup_discovers (hZ : s.mem Z = some dZ) (hR : Reflects N s.disk Z dZ)
    (hdir : DirAt N s.disk (c :: Z)) : Discovers sysHandler N s (c :: Z) := by
  by_cases hex : ShownAt s.disk (c :: Z)
  · obtain ⟨dz, hsc, -, -, hstill⟩ := sfsLookup_scanned hdir hex hZ hR
    have hmap : ∀ p, dz.normalDirMap p = true
        ↔ s.disk.node (c :: Z) p = some (.dir true) := by
      intro p
      rw [hsc.map]
      exact ⟨fun h => h.2, fun h => ⟨hdir.within h, h⟩⟩
    refine ⟨_, { dz with positive := true }, still_run hstill, one_mem, rfl,
      fun _ => ⟨rfl, ?_, hmap, ?_⟩, fun h => absurd hex h⟩
    · intro p
      by_cases hp : p < N
      · exact hsc.seen hp
      · have hnone : s.disk.node (c :: Z) p = none := by
          by_contra hn
          obtain ⟨o, ho⟩ := Option.ne_none_iff_exists'.mp hn
          exact hp (hdir.within ho)
        rw [hnone]
        exact hsc.null hp
    · show dz.normalDirCount = _
      rw [hsc.count]
      refine countP_congr fun p _ => ?_
      rw [hmap, decide_eq_true_eq]
  · exact ⟨_, .fresh, still_run (sfsLookup_notShown hex hZ hR), one_mem, rfl,
      fun h => absurd h hex, fun _ => rfl⟩

end Directory

/-! ## Who may read the marks

A caller who may not read the marks is answered as anybody is on disks that have none. -/

section Callers

variable {N : Nat} {s : Sys} {d : Disk} {c p : Nat} {x Z : Path} {dZ : SfsDentry}
  {may : SfsReq → Bool}

/-- The disks as a caller sees `x`: marks that may not be read are not there. -/
def Disk.hidden (may : SfsReq → Bool) (d : Disk) (x : Path) : Disk :=
  { d with
    node := update d.node x fun p =>
      if may (.isNormal x p) then d.node x p
      else (d.node x p).map fun
        | .dir _ => .dir false
        | .file i => .file i }

theorem hidden_of_ne {y : Path} (h : y ≠ x) : (d.hidden may x).node y p = d.node y p := by
  show update d.node x _ y p = _
  rw [update_of_ne h]

theorem hidden_inode : ((d.hidden may x).node x p).map Obj.inode = (d.node x p).map Obj.inode := by
  simp only [Disk.hidden, update_self]
  split
  · rfl
  · rcases d.node x p with _ | _ | _ <;> rfl

theorem hidden_normal : (d.hidden may x).node x p = some (.dir true)
    ↔ d.node x p = some (.dir true) ∧ may (.isNormal x p) = true := by
  simp only [Disk.hidden, update_self]
  split
  · next h => simp [h]
  · next h => rcases d.node x p with _ | _ | _ <;> simp [h]

/-- The requests of a lookup that meets no file. -/
def Looks (x : Path) : SfsReq → Prop
  | .cached _ | .sfsD _ | .setD _ _ | .modD _ _ => True
  | .lookup y _ | .isNormal y _ => y = x
  | _ => False

/-- No file is met. -/
def NoFile : (q : SfsReq) → q.Ans → Prop
  | .lookup _ _, a => ∀ i, a ≠ some (.file i)
  | _, _ => True

/-- Code that makes such requests only, as long as no file is met. -/
def Looking (x : Path) {α : Type} (k : Code α) : Prop := Asks (Looks x) NoFile (fun _ => True) k

theorem looks_checkNormalDir : Looking x (checkNormalDir x p) :=
  .perform rfl fun _ _ => .bind (.onlyIf fun _ => ⟨trivial, fun _ _ => trivial⟩)
    fun _ _ => trivial

theorem looks_dAddReplica {r : Replica} : Looking x (dAddReplica x p r) := by
  refine .bind (R := fun _ => True) (.perform trivial fun _ _ => trivial) fun a _ => ?_
  split
  · exact .perform trivial fun _ _ => trivial
  · trivial

theorem looks_probe {b : Bool} :
    Asks (Looks x) NoFile (fun a => ∀ i, a ≠ some (.file i)) (probe x b p) := by
  refine .perform trivial fun parent _ => ?_
  split
  · exact nofun
  · split
    · exact nofun
    · refine .perform trivial fun d _ => ?_
      split
      · exact nofun
      · refine .perform rfl fun a ha => ?_
        split
        · exact nofun
        · exact .bind looks_dAddReplica fun _ _ => ha

theorem looks_fullScan {ps : List Nat} : Looking x (fullScan x ps) := by
  induction ps with
  | nil => trivial
  | cons p ps ih =>
    refine .bind looks_probe fun a ha => ?_
    split
    · exact ih
    · exact absurd rfl (ha _)
    · exact .bind looks_checkNormalDir fun _ _ => ih

theorem looks_normalScan {ps : List Nat} : Looking x (normalScan N x ps) := by
  induction ps with
  | nil => trivial
  | cons p ps ih =>
    refine .bind looks_probe fun a ha => ?_
    split
    · exact ih
    · exact absurd rfl (ha _)
    · exact .bind looks_checkNormalDir fun _ _ => looks_fullScan

theorem looks_sfsLookup : Looking x (sfsLookup N x) := by
  refine .perform trivial fun _ _ => .bind looks_normalScan fun r _ => ?_
  split
  · trivial
  · exact .perform trivial fun _ _ => trivial

/-- One request: it is answered as on the hidden disks, and no disk is changed. -/
theorem callerHandler_hidden {q : SfsReq} (hq : Looks x q) :
    callerHandler may q s = (sysHandler q (s.onDisk (s.disk.hidden may x))).map
      fun r => (r.1, r.2.onDisk s.disk) := by
  cases q with
  | cached y | sfsD y | setD y d | modD y f =>
    simp only [callerHandler, SfsReq.denied, ite_self, sysHandler, onDisk_mem]
    cases s.mem y <;> rfl
  | lookup y p =>
    cases hq
    simp only [callerHandler, SfsReq.denied, ite_self, sysHandler, onDisk_disk, hidden_inode]
    rfl
  | isNormal y p =>
    cases hq
    simp only [callerHandler, SfsReq.denied, sysHandler, onDisk_disk, hidden_normal]
    cases may (.isNormal x p) <;> simp [Sys.onDisk]
  | _ => exact hq.elim

theorem Looks.durable {q : SfsReq} (hq : Looks x q) : q.durable = false := by
  cases q <;> first | rfl | exact hq.elim

theorem Looks.noFile {q : SfsReq} {a : q.Ans} {t : Sys} (hq : Looks x q)
    (hs : ∀ p i, (s.disk.node x p).map Obj.inode ≠ some (.file i))
    (h : sysHandler q s = some (a, t)) : NoFile q a := by
  cases q with
  | lookup y p =>
    cases hq
    cases h
    exact hs p
  | _ => trivial

/-- So is the code that makes only such requests. -/
theorem run_hidden {α : Type} {k : Code α} (hk : Looking x k)
    (hs : ∀ p i, (s.disk.node x p).map Obj.inode ≠ some (.file i)) :
    run (callerHandler may) k s = (run sysHandler k (s.onDisk (s.disk.hidden may x))).map
      fun r => (r.1, r.2.onDisk s.disk) := by
  induction k generalizing s with
  | ret a => rfl
  | ask q k ih =>
    cases hq : sysHandler q (s.onDisk (s.disk.hidden may x)) with
    | none =>
      have h : callerHandler may q s = none := by rw [callerHandler_hidden hk.1, hq]; rfl
      rw [run_ask_none h, run_ask_none hq]
      rfl
    | some r =>
      obtain ⟨a, t⟩ := r
      have hd : t.disk = s.disk.hidden may x := quiet_disk hk.1.durable hq
      have h : callerHandler may q s = some (a, t.onDisk s.disk) := by
        rw [callerHandler_hidden hk.1, hq]
        rfl
      have hback : (t.onDisk s.disk).onDisk ((t.onDisk s.disk).disk.hidden may x) = t := by
        rw [onDisk_disk, ← hd]
        rfl
      have ha : NoFile q a :=
        hk.1.noFile (fun p i => by rw [onDisk_disk, hidden_inode]; exact hs p i) hq
      rw [run_ask_some h, run_ask_some hq, ih a (hk.2 a ha) (s := t.onDisk s.disk) hs, hback]
      rfl

theorem hidden_none : (d.hidden may x).node x p = none ↔ d.node x p = none := by
  rw [← Option.map_eq_none_iff (f := Obj.inode), hidden_inode, Option.map_eq_none_iff]

theorem hidden_dirAt (h : DirAt N d (c :: Z)) : DirAt N (d.hidden may (c :: Z)) (c :: Z) := by
  have hof : ∀ {p o}, (d.hidden may (c :: Z)).node (c :: Z) p = some o →
      ∃ o', d.node (c :: Z) p = some o' ∧ o'.inode = o.inode := by
    intro p o ho
    have hi : ((d.hidden may (c :: Z)).node (c :: Z) p).map Obj.inode = _ := hidden_inode
    rw [ho] at hi
    exact Option.map_eq_some_iff.mp hi.symm
  refine ⟨fun {p o} ho => ?_, fun {p o} ho => ?_, fun {p o} ho => ?_⟩
  · obtain ⟨o', ho', hi⟩ := hof ho
    obtain ⟨b, rfl⟩ := h.dir ho'
    cases o with
    | dir b' => exact ⟨b', rfl⟩
    | file i => cases hi
  · obtain ⟨o', ho', -⟩ := hof ho
    show ∃ b, (d.hidden may (c :: Z)).node Z p = _
    rw [hidden_of_ne (cons_ne_self c Z).symm]
    exact h.held ho'
  · obtain ⟨o', ho', -⟩ := hof ho
    exact h.within ho'

theorem hidden_reflects (h : Reflects N d Z dZ) : Reflects N (d.hidden may (c :: Z)) Z dZ := by
  have hZ : (d.hidden may (c :: Z)).node Z = d.node Z :=
    funext fun p => hidden_of_ne (cons_ne_self c Z).symm
  have hslot : ∀ p, (d.hidden may (c :: Z)).slot Z p = d.slot Z p := fun p => by
    rw [Disk.slot, hZ]
    rfl
  exact ⟨h.positive, fun p => by rw [hslot]; exact h.sound p,
    fun ho => by rw [hslot]; exact h.full (by rw [← hZ]; exact ho),
    fun p => by rw [hZ]; exact h.map p, h.count, h.counter⟩

theorem hidden_shownAt : ShownAt (d.hidden may (c :: Z)) (c :: Z) ↔ ShownAt d (c :: Z) :=
  exists_congr fun p => by
    show (d.hidden may (c :: Z)).node Z p = _ ∧ _ ↔ _
    rw [hidden_of_ne (cons_ne_self c Z).symm, Ne, hidden_none]
    rfl

/-- A lookup of a directory on a fresh dentry, for any partitions that hold the parent and
    the directory, any marks and any caller: it finds the replicas, the marks and their
    number, if and only if all the marks that say normal can be read. -/
theorem sfsLookup_discovers_iff (N : Nat) (s : Sys) (c : Nat) (Z : Path) (dZ : SfsDentry)
    (may : SfsReq → Bool) (hZ : s.mem Z = some dZ) (hR : Reflects N s.disk Z dZ)
    (hdir : DirAt N s.disk (c :: Z)) :
    Discovers (callerHandler may) N s (c :: Z) ↔ (ShownAt s.disk (c :: Z) →
      ∀ p, s.disk.node (c :: Z) p = some (.dir true) → may (.isNormal (c :: Z) p) = true) := by
  have hfile : ∀ p i, (s.disk.node (c :: Z) p).map Obj.inode ≠ some (.file i) := by
    intro p i hi
    obtain ⟨o, ho, hio⟩ := Option.map_eq_some_iff.mp hi
    obtain ⟨b, rfl⟩ := hdir.dir ho
    cases hio
  obtain ⟨t, dz, hrun, hmem, hd, hshown, hnot⟩ :=
    sfsLookup_discovers (s := s.onDisk (s.disk.hidden may (c :: Z))) hZ (hidden_reflects hR)
      (hidden_dirAt hdir)
  rw [onDisk_disk] at hd hshown hnot
  rw [hidden_shownAt] at hshown hnot
  have hcall : run (callerHandler may) (sfsLookup N (c :: Z)) s = some (0, t.onDisk s.disk) := by
    rw [run_hidden looks_sfsLookup hfile, hrun]
    rfl
  constructor
  · rintro ⟨t', dz', hrun', hmem', -, hshown', -⟩ hex p hp
    obtain ⟨-, rfl⟩ := answer_inj (hcall.symm.trans hrun')
    cases hmem.symm.trans hmem'
    have hbit := ((hshown' hex).2.2.1 p).mpr hp
    exact (hidden_normal.mp (((hshown hex).2.2.1 p).mp hbit)).2
  · intro hmay
    refine ⟨t.onDisk s.disk, dz, hcall, hmem, rfl, fun hex => ?_, hnot⟩
    obtain ⟨hpos, hrep, hmap, hcount⟩ := hshown hex
    have hmark : ∀ p, (s.disk.hidden may (c :: Z)).node (c :: Z) p = some (.dir true)
        ↔ s.disk.node (c :: Z) p = some (.dir true) := fun p =>
      hidden_normal.trans (and_iff_left_of_imp (hmay hex p))
    refine ⟨hpos, fun p => ?_, fun p => (hmap p).trans (hmark p), ?_⟩
    · have hinode : ((s.disk.hidden may (c :: Z)).node (c :: Z) p).map Obj.inode = _ :=
        hidden_inode
      have hi := congrArg (Option.map fun i => (⟨c :: Z, some i⟩ : Replica)) hinode
      rw [Option.map_map, Option.map_map] at hi
      rw [hrep]
      exact hi
    · rw [hcount]
      exact countP_congr fun p _ => by simp only [hmark]

end Callers

/-- A directory 7 under the root, normal in the second of two partitions only,
    where the root is a shadow. -/
def sides : Disk where
  node
    | [], 0 => some (.dir true)
    | [], 1 => some (.dir false)
    | [7], 0 => some (.dir false)
    | [7], 1 => some (.dir true)
    | _, _ => none
  attr _ _ := none
  next := 0
  fan := 0

/-- The dentry of its root. -/
def rootOfSides : SfsDentry where
  positive := true
  replicas
    | 0 => some ⟨[], some .dir⟩
    | 1 => some ⟨[], some .dir⟩
    | _ => none
  replicaId := none
  metaId := none
  localCounter := 0
  normalDirCount := 1
  firstNormalDirId := some 0
  normalDirMap p := p = 0

theorem rootOfSides_reflects : Reflects 2 sides [] rootOfSides where
  positive := rfl
  sound := by
    rintro (_ | _ | p)
    · exact .inr rfl
    · exact .inr rfl
    · exact .inl rfl
  full := by
    rintro (_ | _ | p) o h
    · rfl
    · rfl
    · cases h
  map := by
    rintro (_ | _ | p)
    · decide
    · decide
    · constructor
      · intro h
        cases of_decide_eq_true (show decide (p + 2 = 0) = true from h)
      · exact nofun
  count := rfl
  counter := by decide

theorem sides_dirAt : DirAt 2 sides [7] where
  dir := by
    rintro (_ | _ | p) o h
    · exact ⟨false, (Option.some.inj h).symm⟩
    · exact ⟨true, (Option.some.inj h).symm⟩
    · cases h
  held := by
    rintro (_ | _ | p) o h
    · exact ⟨true, rfl⟩
    · exact ⟨false, rfl⟩
    · cases h
  within := by
    rintro (_ | _ | p) o h
    · decide
    · decide
    · cases h

theorem sides_discovered : Discovers (callerHandler fun _ => true) 2
    ((booted sides).one [] rootOfSides sides) [7] :=
  (sfsLookup_discovers_iff 2 _ 7 [] rootOfSides _ one_mem rootOfSides_reflects sides_dirAt).mpr
    fun _ _ _ => rfl

/-- Looked up without `CAP_SYS_ADMIN`, 7 is found without its normal replica. -/
theorem sides_hidden : ¬ Discovers (callerHandler fun _ => false) 2
    ((booted sides).one [] rootOfSides sides) [7] := by
  rintro ⟨t, dz, hrun, hmem, -, hshown, -⟩
  have hbit := ((hshown ⟨0, rfl, nofun⟩).2.2.1 1).mpr rfl
  cases hrun
  cases hmem
  cases hbit

/-! ## From the root on -/

section Walk

variable {N : Nat} {D : Path → Prop} {s : Sys} {d : Disk} {c : Nat} {Z : Path}
  {dz : SfsDentry}

/-- The slots of the root after `addRoots`. -/
def SfsDentry.roots (d : Disk) (ps : List Nat) (dz : SfsDentry) : SfsDentry :=
  ps.foldl (fun dz p => dz.fill d [] p) dz

theorem still_dAddSlot {x : Path} {dx : SfsDentry} {p : Nat} (h : Sound d x dx) :
    Still (dAddReplica x p (d.slot x p)) (s.one x dx d) () (s.one x (dx.fill d x p) d) := by
  cases hp : dx.replicas p with
  | none => simp [dAddReplica, storeReplica, hp, SfsDentry.fill]
  | some r =>
    rw [h.fill_eq (by rw [hp]; exact Option.some_ne_none _)]
    simp [dAddReplica, hp]

theorem still_addRoots {ps : List Nat} (h : Sound d [] dz) :
    Still (addRoots ps) (s.one [] dz d) () (s.one [] (dz.roots d ps) d) := by
  induction ps generalizing dz with
  | nil => exact .ret
  | cons p ps ih =>
    exact (Still.perform (q := .lookup [] p) rfl rfl).bind ((still_dAddSlot h).bind (ih (h.fill p)))

theorem still_checkRoots {ps : List Nat} {e : Int} (hps : ∀ p ∈ ps, p < N) (hnd : ps.Nodup)
    {S : Nat → Prop} (hS : ∀ p ∈ ps, ¬ S p) (h : Marked N d [] S dz) :
    ∃ dz', Marked N d [] (fun q => S q ∨ q ∈ ps) dz'
      ∧ dz'.replicas = dz.replicas ∧ dz'.positive = dz.positive
      ∧ dz'.replicaId = dz.replicaId
      ∧ (Recorded d [] dz → Recorded d [] dz')
      ∧ Still (checkRoots ps e) (s.one [] dz d) ((ps.getLast?).elim e (d.normalAnswer []))
        (s.one [] dz' d) := by
  induction ps generalizing S dz e with
  | nil =>
    refine ⟨dz, ⟨fun p => ?_, h.count, h.counter⟩, rfl, rfl, rfl, id, .ret⟩
    rw [h.map]
    simp
  | cons p ps ih =>
    obtain ⟨hp, hnd'⟩ := nodup_cons.mp hnd
    have hS' : ∀ q ∈ ps, ¬ (S q ∨ q = p) := by
      rintro q hq (hSq | rfl)
      · exact hS q (.tail _ hq) hSq
      · exact hp hq
    obtain ⟨dz', hm, hr, hpos, hid, hrec, hstill⟩ := ih (e := d.normalAnswer [] p)
      (fun q hq => hps q (.tail _ hq)) hnd' hS' (h.check (hps p (.head _)) (hS p (.head _)))
    refine ⟨dz', ⟨fun q => ?_, hm.count, hm.counter⟩,
      hr.trans check_replicas, hpos.trans check_positive,
      hid.trans check_replicaId, fun h => hrec h.check, ?_⟩
    · rw [hm.map, mem_cons, or_assoc]
    · have hlast : (p :: ps).getLast?.elim e (d.normalAnswer [])
          = ps.getLast?.elim (d.normalAnswer [] p) (d.normalAnswer []) := by
        cases ps with
        | nil => rfl
        | cons q qs => rw [getLast?_cons_cons, getLast?_cons]; rfl
      rw [hlast]
      exact still_checkNormalDir.bind hstill

theorem roots_eq {ps : List Nat} {dz : SfsDentry} :
    dz.roots d ps = { dz with replicas := (dz.roots d ps).replicas } := by
  induction ps generalizing dz with
  | nil => rfl
  | cons p ps ih =>
    rw [SfsDentry.roots, foldl_cons]
    exact ih

theorem roots_replicas {ps : List Nat} {dz : SfsDentry} {p : Nat} :
    (dz.roots d ps).replicas p = if p ∈ ps then some (d.slot [] p) else dz.replicas p := by
  induction ps generalizing dz with
  | nil => rfl
  | cons q ps ih =>
    rw [SfsDentry.roots, foldl_cons]
    refine ih.trans ?_
    by_cases hp : p ∈ ps
    · rw [if_pos hp, if_pos (.tail _ hp)]
    · rw [if_neg hp]
      by_cases hpq : p = q
      · rw [hpq, if_pos (.head _), SfsDentry.fill, setReplica_self]
      · rw [if_neg (fun h => hp ((mem_cons.mp h).resolve_left hpq)),
          SfsDentry.fill, setReplica_of_ne hpq]

/-- The root of a mount shows the disks, and the mount answers for the last partition. -/
theorem still_mountRoot (hw : ∀ {p o}, s.disk.node [] p = some o → p < N) (hN : 0 < N) :
    ∃ dz, Reflects N s.disk [] dz ∧ Recorded s.disk [] dz ∧ dz.replicaId = none
      ∧ Still (mountRoot N) s (s.disk.normalAnswer [] (N - 1)) (s.one [] dz s.disk) := by
  have hroots : Still (addRoots (range N))
      (s.one [] { SfsDentry.fresh with positive := true } s.disk) ()
      (s.one [] (SfsDentry.roots s.disk (range N)
        { SfsDentry.fresh with positive := true }) s.disk) :=
    still_addRoots (fun _ => .inl rfl)
  have hmark : Marked N s.disk [] (fun _ => False) (SfsDentry.roots s.disk (range N)
        { SfsDentry.fresh with positive := true }) := by
    rw [roots_eq]
    exact ⟨fun p => by simp [SfsDentry.fresh], by simp [SfsDentry.fresh], rfl⟩
  obtain ⟨dz, hm, hr, hpos, hid, hrec, hcheck⟩ := still_checkRoots (s := s) (e := 0)
    (fun p hp => mem_range.mp hp) nodup_range (fun _ _ h => h) hmark
  have hslot : ∀ p, dz.replicas p = if p < N then some (s.disk.slot [] p) else none := by
    intro p
    rw [hr, roots_replicas]
    simp only [mem_range]
    rfl
  have hfirst : Recorded s.disk [] (SfsDentry.roots s.disk (range N)
      { SfsDentry.fresh with positive := true }) := by
    rw [roots_eq]
    exact recorded_fresh
  refine ⟨dz, ⟨?_, fun p => ?_, fun {p o} hn => ?_, fun p => ?_, hm.count, ?_⟩, hrec hfirst, ?_, ?_⟩
  · rw [hpos, roots_eq]
  · rw [hslot]
    split
    · exact .inr rfl
    · exact .inl rfl
  · rw [hslot, if_pos (hw hn)]
  · rw [hm.map]
    exact ⟨fun h => h.2, fun h => ⟨.inr (mem_range.mpr (hw h)), h⟩⟩
  · rw [hm.counter]
    exact hN
  · rw [hid, roots_eq]
    rfl
  · have hlast : (range N).getLast?.elim 0 (s.disk.normalAnswer [])
        = s.disk.normalAnswer [] (N - 1) := by
      rw [getLast?_range, if_neg (Nat.ne_of_gt hN)]
      rfl
    rw [hlast] at hcheck
    exact (Still.perform (q := .setD [] _) rfl rfl).bind (hroots.bind hcheck)

/-- A walk finds the directories on its way. -/
def Passable (N : Nat) (d : Disk) : Path → Prop
  | [] => ∀ {p o}, d.node [] p = some o → p < N
  | a :: A => Passable N d A ∧ DirAt N d (a :: A) ∧ ShownAt d (a :: A)

theorem World.passable (w : World N D d) (hZ : D Z) : Passable N d Z := by
  induction Z with
  | nil => exact w.within
  | cons a A ih => exact ⟨ih (w.up hZ), w.dirAt hZ, w.shownAt hZ⟩

/-- Only the names on the way matter. -/
theorem Passable.congr {d' : Disk} (h : Passable N d Z)
    (hn : ∀ {Y}, Y <:+ Z → ∀ p, d'.node Y p = d.node Y p) :
    Passable N d' Z := by
  induction Z with
  | nil => exact fun {p o} ho => h (hn (suffix_refl _) p ▸ ho)
  | cons a A ih =>
    obtain ⟨hA, hdir, p, hp, hex⟩ := h
    have hself : ∀ p, d'.node (a :: A) p = d.node (a :: A) p :=
      hn (suffix_refl _)
    have hup : ∀ p, d'.node A p = d.node A p := hn (suffix_cons a A)
    refine ⟨ih hA fun hY => hn (hY.trans (suffix_cons a A)),
      ⟨fun {p o} ho => hdir.dir (hself p ▸ ho), fun {p o} ho => ?_,
        fun {p o} ho => hdir.within (hself p ▸ ho)⟩, p, ?_, ?_⟩
    · obtain ⟨b, hb⟩ := hdir.held (hself p ▸ ho)
      exact ⟨b, (hup p).trans hb⟩
    · exact (hup p).trans hp
    · rw [hself]
      exact hex

/-- A walk from a mount to a directory makes a dentry that shows the disks. -/
theorem walk_dirSeen (h : Passable N d Z) (hN : 0 < N) :
    ∃ t dz, Still (walk N Z) (booted d) 0 t ∧ t.mem Z = some dz
      ∧ Reflects N d Z dz ∧ dz.replicaId = none := by
  induction Z with
  | nil =>
    obtain ⟨dz, hR, -, hid, hmount⟩ := still_mountRoot (s := booted d) h hN
    exact ⟨_, dz, hmount.bind .ret, one_mem, hR, hid⟩
  | cons a A ih =>
    obtain ⟨hA, hdir, hex⟩ := h
    obtain ⟨t, dA, hwalk, hmem, hR, -⟩ := ih hA
    obtain rfl : t.disk = d := hwalk.calm.disk
    obtain ⟨dz, hRz, -, hid, hlook⟩ := sfsLookup_dir hN hdir hex hmem hR
    refine ⟨t.one (a :: A) dz t.disk, dz, hwalk.bind ?_, one_mem, hRz, hid⟩
    refine (still_read hmem).bind ?_
    rw [if_pos hR.positive]
    exact hlook

/-- The walk to a name in a directory ends with its lookup. -/
theorem walk_entry (h : Passable N d Z) (hN : 0 < N) :
    ∃ t dZ, t.disk = d ∧ t.mem Z = some dZ ∧ Reflects N d Z dZ
      ∧ ∀ {err u}, Still (sfsLookup N (c :: Z)) t err u →
        Still (walk N (c :: Z)) (booted d) err u := by
  obtain ⟨t, dZ, hwalk, hmem, hR, -⟩ := walk_dirSeen h hN
  refine ⟨t, dZ, hwalk.calm.disk, hmem, hR, fun hlook => hwalk.bind ?_⟩
  refine (still_read hmem).bind ?_
  rw [if_pos hR.positive]
  exact hlook

theorem walk_file (w : World N D d) (hN : 0 < N) (hZ : D Z) :
    ∃ t dZ, t.disk = d ∧ t.mem Z = some dZ ∧ Reflects N d Z dZ
      ∧ ∀ Q, Runs (walk N (c :: Z)) (booted d) Q ↔ Runs (sfsLookup N (c :: Z)) t Q := by
  obtain ⟨t, dZ, hwalk, hZ', hR, -⟩ := walk_dirSeen (w.passable hZ) hN
  refine ⟨t, dZ, hwalk.calm.disk, hZ', hR, fun Q => ?_⟩
  rw [walk, checked, Runs, does_calm hwalk.calm]
  simp [hZ', hR.positive]

/-- What `Finds` says is seen. -/
theorem Finds.seenAt (w : World N D d) (hN : 0 < N) (hZ : D Z)
    (hD : ¬ D (c :: Z)) {r : Option (Nat × Nat)} (h : Finds d (c :: Z) r) :
    seenAt N d (c :: Z) = some r := by
  obtain ⟨t, dZ, rfl, hZ', hR, hwalk⟩ := walk_file (c := c) w hN hZ
  obtain ⟨err, u, hrun, rfl, hr⟩ :=
    runs_iff.mp ((hwalk _).mpr (h.lookup w hD hZ' hR))
  rw [Sfs.seenAt, hrun]
  simp [hr]

theorem Stumbles.seenAt (w : World N D d) (hN : 0 < N) (hZ : D Z)
    (hD : ¬ D (c :: Z)) (h : Stumbles d (c :: Z)) :
    seenAt N d (c :: Z) = none := by
  obtain ⟨t, dZ, rfl, hZ', hR, hwalk⟩ := walk_file (c := c) w hN hZ
  have hnone : run sysHandler (walk N (c :: Z)) (booted t.disk) = none := by
    by_contra hne
    obtain ⟨⟨err, u⟩, hrun⟩ := Option.ne_none_iff_exists'.mp hne
    exact h.lookup w hD hZ' hR (fun _ _ => True)
      ((hwalk _).mp (runs_iff.mpr ⟨err, u, hrun, trivial⟩))
  rw [Sfs.seenAt, hnone]

end Walk

end Sfs
