import Mathlib.Data.List.Nodup
import MultiLanes.ReaddirProofs
import MultiLanes.SfsCachedProofs
import MultiLanes.SfsTidyProofs

/-! # SFS — what is listed and what is found

A listing concatenates the normal replicas of a directory and drops a directory's name
that it has emitted before; it reads no links.  A lookup goes through the normal
partitions, follows the links of a file and scans all partitions for a directory.  In a
consistent directory both come to the same names: a file has one name in the normal
partitions, and a directory at least one.

The hash table is a set of names to the listing (`listing_offered`), so what it emits is
a fold over the entries.  It has room for short names only: the two agree when every
directory's name has room, and only then (`listing_agrees_iff`). -/

namespace Listing

open InteractProg Readdir Sfs Function List

/-! ## The table is a set of names -/

/-- What a pass has emitted after one more entry: a hashed entry is dropped when
    one of its name is there. -/
def offer (l : List Dirent) (e : Dirent) : List Dirent :=
  if e.hashed && l.any (fun x => x.hashed && x.name == e.name) then l
  else l ++ [e]

section Offer

variable {l es : List Dirent} {e : Dirent}

theorem offer_of_new (h : ∀ x ∈ l, x.name = e.name →
    ¬ (x.hashed = true ∧ e.hashed = true)) : offer l e = l ++ [e] := by
  rw [offer, if_neg]
  simp only [Bool.and_eq_true, any_eq_true, beq_iff_eq]
  rintro ⟨he, x, hx, hh, hn⟩
  exact h x hx hn ⟨hh, he⟩

theorem offer_of_known {x : Dirent} (hx : x ∈ l) (hh : x.hashed = true)
    (hn : x.name = e.name) (he : e.hashed = true) : offer l e = l := by
  rw [offer, if_pos]
  simp only [Bool.and_eq_true, any_eq_true, beq_iff_eq]
  exact ⟨he, x, hx, hh, hn⟩

/-- One more entry: it is dropped for one of its name, or put at the end. -/
theorem offer_cases (l : List Dirent) (e : Dirent) :
    (offer l e = l ∧ e.hashed = true ∧ ∃ x ∈ l, x.hashed = true ∧ x.name = e.name)
      ∨ offer l e = l ++ [e]
        ∧ ∀ x ∈ l, x.name = e.name → ¬ (x.hashed = true ∧ e.hashed = true) := by
  by_cases h : e.hashed = true ∧ ∃ x ∈ l, x.hashed = true ∧ x.name = e.name
  · obtain ⟨he, x, hx, hh, hn⟩ := h
    exact .inl ⟨offer_of_known hx hh hn he, he, x, hx, hh, hn⟩
  · have hnew : ∀ x ∈ l, x.name = e.name → ¬ (x.hashed = true ∧ e.hashed = true) := by
      intro x hx hn hh
      exact h ⟨hh.2, x, hx, hh.1, hn⟩
    exact .inr ⟨offer_of_new hnew, hnew⟩

/-- No name is lost. -/
theorem exists_offered_iff {n : Name} :
    (∃ x ∈ es.foldl offer l, x.name = n) ↔ (∃ x ∈ l, x.name = n) ∨ ∃ x ∈ es, x.name = n := by
  induction es generalizing l with
  | nil => simp
  | cons e es ih =>
    have hstep : (∃ x ∈ offer l e, x.name = n) ↔ (∃ x ∈ l, x.name = n) ∨ e.name = n := by
      rcases offer_cases l e with ⟨h, -, x, hx, -, hn⟩ | ⟨h, -⟩
      · rw [h]
        constructor
        · exact .inl
        · rintro (h | rfl)
          · exact h
          · exact ⟨x, hx, hn⟩
      · rw [h]
        simp [or_and_right, exists_or]
    rw [foldl_cons, ih, hstep, or_assoc]
    simp

/-- When two entries of one name are both hashed, no name is emitted twice. -/
theorem nodup_offered
    (hes : (l ++ es).Pairwise (fun a b => a.name = b.name → a.hashed = true ∧ b.hashed = true))
    (hl : (l.map Dirent.name).Nodup) :
    ((es.foldl offer l).map Dirent.name).Nodup := by
  induction es generalizing l with
  | nil => exact hl
  | cons e es ih =>
    rw [foldl_cons]
    rw [← singleton_append, ← append_assoc] at hes
    rcases offer_cases l e with ⟨h, -⟩ | ⟨h, hnew⟩
    · rw [h]
      refine ih (hes.sublist ?_) hl
      rw [append_assoc]
      exact List.Sublist.append_left (sublist_append_right _ _) l
    · rw [h]
      refine ih hes ?_
      rw [map_append, nodup_append]
      refine ⟨hl, by simp, ?_⟩
      intro n hn m hm hnm
      obtain ⟨x, hx, rfl⟩ := mem_map.mp hn
      have hxe : x.name = e.name := hnm.trans (mem_singleton.mp hm)
      have hR := pairwise_append.mp (pairwise_append.mp hes).1
      exact hnew x hx hxe (hR.2.2 x hx e (by simp) hxe)

end Offer

section Stream

variable {O : Directory} {es : List Dirent} {e : Dirent} {pos p : Nat}
  {s s' : DirInfo × Buffer}

/-- The entries that a buffer holds. -/
def entriesOf (b : Buffer) : List Dirent := b.emitted.map Prod.fst

/-- The buffer takes everything, and the table has the hashed names in it. -/
structure Tells (O : Directory) (s : DirInfo × Buffer) : Prop where
  unlimited : s.2.left = none
  known : ∀ n, Known O s.1 n ↔ ∃ x ∈ entriesOf s.2, x.hashed = true ∧ x.name = n

/-- One entry. -/
theorem Tells.filldir {refused : Bool} (h : Tells O s)
    (hf : sfsFilldir O e s = some (refused, s')) :
    refused = false ∧ Tells O s' ∧ entriesOf s'.2 = offer (entriesOf s.2) e := by
  obtain ⟨info, b⟩ := s
  obtain ⟨info', b'⟩ := s'
  have hleft := (sfsFilldir_offers hf).unlimited h.unlimited
  refine ⟨hleft.1, ?_⟩
  cases sfsFilldir_offers hf with
  | known hh hk =>
    -- one of the emitted entries has the name
    obtain ⟨x, hx, hxh, hxn⟩ := (h.known e.name).mp hk
    exact ⟨⟨h.unlimited, h.known⟩, (offer_of_known hx hxh hxn hh).symm⟩
  | full _ hl => cases h.unlimited.symm.trans hl
  | taken new _ =>
    have hnew : ∀ x ∈ entriesOf b, x.name = e.name → ¬ (x.hashed = true ∧ e.hashed = true) := by
      intro x hx hn hxh
      have hk : Known O info e.name := (h.known _).mpr ⟨x, hx, hxh.1, hn⟩
      cases (new hxh.2).1.symm.trans hk
    have hem : ∀ {l pos o}, entriesOf ⟨l, b.emitted ++ [(e, pos)], o⟩
        = entriesOf b ++ [e] := map_append ..
    refine ⟨⟨hleft.2.1, fun n => ?_⟩, hem.trans (offer_of_new hnew).symm⟩
    show Known O (enter O e info) n ↔ ∃ x ∈ entriesOf ⟨_, _, _⟩, _
    rw [known_enter, h.known, hem]
    constructor
    · rintro (⟨hh, rfl⟩ | ⟨x, hx, hxh⟩)
      · exact ⟨e, by simp, hh, rfl⟩
      · exact ⟨x, mem_append_left _ hx, hxh⟩
    · rintro ⟨x, hx, hxh, rfl⟩
      rcases mem_append.mp hx with hx | hx
      · exact .inr ⟨x, hx, hxh, rfl⟩
      · rw [mem_singleton.mp hx] at hxh ⊢
        exact .inl ⟨hxh, rfl⟩

/-- One replica. -/
theorem Tells.iterate (h : Tells O s) (hit : iterateFrom (sfsFilldir O) es pos s = some (p, s')) :
    Tells O s' ∧ entriesOf s'.2 = es.foldl offer (entriesOf s.2) := by
  induction es generalizing pos s with
  | nil =>
    cases hit
    exact ⟨h, rfl⟩
  | cons e es ih =>
    rw [iterateFrom] at hit
    split at hit
    · cases hit
    · next t ht => cases (h.filldir ht).1
    · next t ht =>
      obtain ⟨-, htell, hem⟩ := h.filldir ht
      rw [foldl_cons, ← hem]
      exact ih htell hit

/-- The replicas, each from its start. -/
theorem Tells.scan {rs : List (ReplicaFile × Nat)} {t : DirInfo × Buffer} (h : Tells O s)
    (hpos : ∀ i, s.1.fPos i = 0) (hs : Readdir.scan O rs s = some t) :
    entriesOf t.2 = (rs.flatMap (fun ri => ri.1.entries)).foldl offer (entriesOf s.2) := by
  induction rs generalizing s with
  | nil =>
    cases hs
    rfl
  | cons ri rs ih =>
    obtain ⟨r, i⟩ := ri
    obtain ⟨p, s', hit, hrest⟩ := scan_cons.mp hs
    rw [hpos i, drop_zero] at hit
    have hin : Tells O (enterReplica i s) := ⟨h.unlimited, h.known⟩
    obtain ⟨hout, hem⟩ := hin.iterate hit
    have hnext : Tells O (nextReplica r i s') := ⟨hout.unlimited, hout.known⟩
    have hframe := (iterateFrom_stream hit).1
    rw [flatMap_cons, foldl_append]
    show _ = List.foldl offer (r.entries.foldl offer (entriesOf (enterReplica i s).2)) _
    rw [← hem]
    refine ih (s := nextReplica r i s') hnext (fun j => ?_) hrest
    show update s'.1.fPos i 0 j = 0
    rw [hframe.fPos, update_apply]
    split
    · rfl
    · exact hpos j

/-- A listing offers the entries of the replicas one after the other. -/
theorem listing_offered {l : List (Dirent × Nat)} (hl : listing O = some l) :
    l.map Prod.fst = (O.replicas.flatMap ReplicaFile.entries).foldl offer [] := by
  obtain ⟨c, hc, rfl⟩ := Option.map_eq_some_iff.mp hl
  obtain ⟨t, hscan, rfl⟩ := Option.map_eq_some_iff.mp hc
  have hnew : Tells O (rewound (sfsAllocDirInfo O), Buffer.taking none) := by
    refine ⟨rfl, fun n => ?_⟩
    rw [known_iff]
    simp [rewound, sfsAllocDirInfo, entriesOf, Buffer.taking]
  have hzip : O.replicas.zipIdx.flatMap (fun ri => ri.1.entries)
      = O.replicas.flatMap ReplicaFile.entries := by
    have h := congrArg (List.flatMap ReplicaFile.entries) (zipIdx_map_fst 0 O.replicas)
    rw [flatMap_map] at h
    exact h
  rw [← hzip]
  refine hnew.scan (fun i => ?_) hscan
  show update (fun _ => 0) 0 0 i = 0
  rw [update_apply]
  split <;> rfl

end Stream

/-! ## An SFS directory that is opened -/

def dotdot : Name := [46, 46]

/-- How the names of the paths are spelt: no two alike, none as `.` or `..`. -/
structure Spelling where
  text : Nat → Name
  inj : Function.Injective text
  notDot : ∀ c, text c ≠ dot
  notDotdot : ∀ c, text c ≠ dotdot

/-- What an open file of the directory `Z` lists in partition `p`: itself, its parent and
    its children, each once, the directories with their type or with none. -/
structure Lists (sp : Spelling) (d : Disk) (Z : Path) (p : Nat)
    (r : ReplicaFile) : Prop where
  child : ∀ n, n ≠ dot → n ≠ dotdot → ((∃ e ∈ r.entries, e.name = n) ↔
    ∃ c o, d.node (c :: Z) p = some o ∧ sp.text c = n)
  once : (r.entries.map Dirent.name).Nodup
  dots : ∀ e ∈ r.entries, e.name = dot ∨ e.name = dotdot → e.hashed = true
  dirs : ∀ e ∈ r.entries, ∀ c b, d.node (c :: Z) p = some (.dir b) →
    e.name = sp.text c → e.hashed = true

/-- The partitions that `sfs_dir_open` takes: a replica is there, and the bit of
    the partition is set. -/
def openedIn (N : Nat) (dZ : SfsDentry) : List Nat :=
  (range N).filter (fun p =>
    ((dZ.replicas p).bind Replica.inode).isSome && dZ.normalDirMap p)

/-- `sfs_dir_open`; `files p` is what `dentry_open` gives for partition `p`. -/
def sfsDirOpen (N : Nat) (dZ : SfsDentry) (files : Nat → ReplicaFile)
    (size : Nat) (hash : Name → Nat) (room : Nat) : Directory where
  replicas := (openedIn N dZ).map files
  size := size
  hash := hash
  room := room

/-- A walk from a fresh mount ends at a positive dentry. -/
def Found (N : Nat) (d : Disk) (z : Path) : Prop :=
  ∃ t dz, run sysHandler (walk N z) (booted d) = some (0, t)
    ∧ t.mem z = some dz ∧ dz.positive = true

/-- The listing of `O` and the lookups in `Z`: the same names but `.` and `..`,
    and each one once. -/
def ListingAgrees (sp : Spelling) (N : Nat) (d : Disk) (Z : Path) (O : Directory) : Prop :=
  ∃ l, listing O = some l ∧ (∀ n, n ≠ dot → n ≠ dotdot → ((∃ e ∈ l, e.1.name = n) ↔
      ∃ c, sp.text c = n ∧ Found N d (c :: Z)))
    ∧ (l.map (fun e => e.1.name)).Nodup

section Opened

variable {sp : Spelling} {N : Nat} {D : Path → Prop} {d : Disk} {c p q : Nat}
  {z Z : Path} {dZ : SfsDentry} {F : Option File} {files : Nat → ReplicaFile}

theorem mem_openedIn (w : World N D d) (hR : Reflects N d Z dZ) :
    p ∈ openedIn N dZ ↔ d.node Z p = some (.dir true) := by
  simp only [openedIn, mem_filter, mem_range, Bool.and_eq_true]
  constructor
  · rintro ⟨-, -, hm⟩
    exact (hR.map p).mp hm
  · intro hn
    refine ⟨w.within hn, ?_, (hR.map p).mpr hn⟩
    rw [hR.dir hn]
    rfl

theorem found_dir (w : World N D d) (hN : 0 < N) (hz : D z) : Found N d z := by
  obtain ⟨t, dz, hwalk, hm, hR, -⟩ := walk_dirSeen (w.passable hz) hN
  exact ⟨t, dz, Runs.run (hwalk.calm.runs ⟨rfl, rfl⟩), hm, hR.positive⟩

/-- A name that is no directory's is found when there is a file. -/
theorem found_file (w : World N D d) (hN : 0 < N) (hZ : D Z)
    (hz : ¬ D (c :: Z)) (hn : Named d (c :: Z) F) :
    Found N d (c :: Z) ↔ F.isSome = true := by
  obtain ⟨t, dZ, rfl, hm, hR, hwalk⟩ := walk_file (c := c) w hN hZ
  obtain ⟨dz, hS, hlook⟩ := lookup_named w hz hm hR hn
  have hrun := Runs.run ((hwalk _).mpr (hlook.runs ⟨rfl, rfl⟩))
  rw [← hS.positive]
  constructor
  · rintro ⟨u, dz', hu, hm', hpos⟩
    cases hrun.symm.trans hu
    obtain rfl : dz = dz' := Option.mem_unique one_mem hm'
    exact hpos
  · intro hpos
    exact ⟨_, dz, hrun, one_mem, hpos⟩

/-- A file has its name in one normal partition. -/
theorem named_normal_unique (hn : Named d z F) (hp : d.node z.tail p = some (.dir true))
    (hcp : d.col z p ≠ none) (hq : d.node z.tail q = some (.dir true)) (hcq : d.col z q ≠ none) :
    p = q := by
  cases F with
  | none => exact absurd (congrFun hn.col p) hcp
  | some f =>
    -- the normal partition of a file: that of the data, or that of the
    -- metadata when it is partitioned
    have hone : ∀ r, d.node z.tail r = some (.dir true) → d.col z r ≠ none →
        r = (f.parted.map Prod.fst).getD f.data := by
      intro r hr hcr
      rw [hn.col] at hcr
      have hfit := hn.fits f rfl
      cases hm : f.parted with
      | none =>
        by_contra hne
        refine hcr ?_
        show f.colWith f.attr r = none
        rw [File.colWith_plain hm]
        exact only_of_ne hne
      | some m =>
        by_contra hne
        refine hcr ?_
        show f.colWith f.attr r = none
        rw [File.colWith_parted hm]
        refine both_of_ne hne ?_
        rintro rfl
        exact (hfit.split hm).2.1 hr
    rw [hone p hp hcp, hone q hq hcq]

/-- A name is in a normal partition when a lookup finds it. -/
theorem shown_iff_found (w : World N D d) (hN : 0 < N) (hZ : D Z)
    (hF : ¬ D (c :: Z) → ∃ F, Named d (c :: Z) F) :
    (∃ p, d.node Z p = some (.dir true) ∧ ∃ o, d.node (c :: Z) p = some o) ↔
      Found N d (c :: Z) := by
  by_cases hc : D (c :: Z)
  · exact ⟨fun _ => found_dir w hN hc, fun _ => w.shown hc⟩
  · obtain ⟨F, hn⟩ := hF hc
    rw [found_file w hN hZ hc hn]
    cases F with
    | none =>
      refine ⟨?_, nofun⟩
      rintro ⟨p, -, o, ho⟩
      have hcol : d.col (c :: Z) p = none := congrFun hn.col p
      cases ho.symm.trans ((w.col_none_iff hc).mp hcol)
    | some f =>
      refine ⟨fun _ => rfl, fun _ => ?_⟩
      have hfit := hn.fits f rfl
      cases hm : f.parted with
      | none => exact ⟨f.data, (hfit.plain hm).1, _, hn.data_node⟩
      | some m => exact ⟨m.1, (hfit.split hm).1, _, (hn.meta_node hm).1⟩

/-- Two entries of one name are those of a directory. -/
theorem entries_pairwise (w : World N D d) (hR : Reflects N d Z dZ)
    (hF : ∀ c, ¬ D (c :: Z) → ∃ F, Named d (c :: Z) F)
    (hL : ∀ p, d.node Z p = some (.dir true) → Lists sp d Z p (files p)) :
    (((openedIn N dZ).map files).flatMap ReplicaFile.entries).Pairwise
      (fun a b => a.name = b.name → a.hashed = true ∧ b.hashed = true) := by
  rw [flatMap_map, pairwise_flatMap]
  constructor
  · -- one replica lists no name twice
    intro p hp
    have hone := (hL p ((mem_openedIn w hR).mp hp)).once
    exact (pairwise_map.mp hone).imp (fun hne heq => absurd heq hne)
  · have hnodup : (openedIn N dZ).Nodup := nodup_range.filter _
    refine hnodup.imp_of_mem ?_
    intro p q hp hq hpq a ha b hb hab
    rw [mem_openedIn w hR] at hp hq
    have hLp := hL p hp
    have hLq := hL q hq
    by_cases hdots : a.name = dot ∨ a.name = dotdot
    · exact ⟨hLp.dots a ha hdots, hLq.dots b hb (hab ▸ hdots)⟩
    · rw [not_or] at hdots
      obtain ⟨c, o, ho, hc⟩ := (hLp.child _ hdots.1 hdots.2).mp ⟨a, ha, rfl⟩
      obtain ⟨c', o', ho', hc'⟩ :=
        (hLq.child _ hdots.1 hdots.2).mp ⟨b, hb, hab.symm⟩
      obtain rfl : c = c' := sp.inj (hc.trans hc'.symm)
      by_cases hD : D (c :: Z)
      · obtain ⟨b₁, rfl⟩ := (w.dir_iff ho).mpr hD
        obtain ⟨b₂, rfl⟩ := (w.dir_iff ho').mpr hD
        exact ⟨hLp.dirs a ha c b₁ ho hc.symm, hLq.dirs b hb c b₂ ho' (hab.symm.trans hc.symm)⟩
      · -- a file's name is in one normal partition
        obtain ⟨F, hn⟩ := hF c hD
        have hcol : ∀ {r x}, d.node (c :: Z) r = some x → d.col (c :: Z) r ≠ none := by
          intro r x hx h
          cases hx.symm.trans ((w.col_none_iff hD).mp h)
        exact absurd (named_normal_unique hn hp (hcol ho) hq (hcol ho')) hpq

/-- The names in the replicas are those that a lookup finds. -/
theorem exists_entry_iff (w : World N D d) (hN : 0 < N) (hZ : D Z)
    (hR : Reflects N d Z dZ) (hF : ∀ c, ¬ D (c :: Z) → ∃ F, Named d (c :: Z) F)
    (hL : ∀ p, d.node Z p = some (.dir true) → Lists sp d Z p (files p))
    {n : Name} (hdot : n ≠ dot) (hdotdot : n ≠ dotdot) :
    (∃ e ∈ ((openedIn N dZ).map files).flatMap ReplicaFile.entries, e.name = n)
      ↔ ∃ c, sp.text c = n ∧ Found N d (c :: Z) := by
  constructor
  · rintro ⟨e, he, hn⟩
    rw [flatMap_map] at he
    obtain ⟨p, hp, hep⟩ := mem_flatMap.mp he
    rw [mem_openedIn w hR] at hp
    obtain ⟨c, o, ho, hc⟩ := ((hL p hp).child n hdot hdotdot).mp ⟨e, hep, hn⟩
    exact ⟨c, hc, (shown_iff_found w hN hZ (hF c)).mp ⟨p, hp, o, ho⟩⟩
  · rintro ⟨c, hc, hfound⟩
    obtain ⟨p, hp, o, ho⟩ := (shown_iff_found w hN hZ (hF c)).mpr hfound
    obtain ⟨e, he, hn⟩ := ((hL p hp).child n hdot hdotdot).mpr ⟨c, o, ho, hc⟩
    refine ⟨e, ?_, hn⟩
    rw [flatMap_map]
    exact mem_flatMap.mpr ⟨p, (mem_openedIn w hR).mpr hp, he⟩

/-- The listing and the lookups of a consistent directory agree exactly when
    every name that is hashed has room in the table's entries. -/
theorem listing_agrees_iff (w : World N D d) (hN : 0 < N) (hZ : D Z)
    (hR : Reflects N d Z dZ) (hF : ∀ c, ¬ D (c :: Z) → ∃ F, Named d (c :: Z) F)
    (hL : ∀ p, d.node Z p = some (.dir true) → Lists sp d Z p (files p))
    (size : Nat) (hash : Name → Nat) (room : Nat) :
    ListingAgrees sp N d Z (sfsDirOpen N dZ files size hash room) ↔
      Fits (sfsDirOpen N dZ files size hash room) := by
  constructor
  · rintro ⟨l, hl, -⟩
    exact listing_isSome_iff.mp ⟨l, hl⟩
  · intro hfit
    obtain ⟨l, hl⟩ := listing_isSome_iff.mpr hfit
    have hoff := listing_offered hl
    refine ⟨l, hl, ?_, ?_⟩
    · intro n hdot hdotdot
      rw [← exists_entry_iff w hN hZ hR hF hL hdot hdotdot]
      have hmem : (∃ e ∈ l, e.1.name = n) ↔ ∃ x ∈ l.map Prod.fst, x.name = n := by simp
      rw [hmem, hoff, exists_offered_iff]
      simp [sfsDirOpen]
    · have hnodup := nodup_offered (l := []) (entries_pairwise w hR hF hL) List.nodup_nil
      have hnames : l.map (fun e => e.1.name) = (l.map Prod.fst).map Dirent.name := by simp
      rw [hnames, hoff]
      exact hnodup

/-- The file of a replica with the given children. -/
def replicaOf (sp : Spelling) (cs : List (Nat × DType)) : ReplicaFile where
  entries := ⟨dot, .dir⟩ :: ⟨dotdot, .dir⟩ :: cs.map (fun c => ⟨sp.text c.1, c.2⟩)
  size := 4096
  self := ⟨dot, .dir⟩
  self_first := rfl
  self_name := dot_name
  self_hashed := dot_hashed
  size_pos := dirSize_pos

theorem lists_replicaOf {cs : List (Nat × DType)} (hcs : (cs.map Prod.fst).Nodup)
    (hmem : ∀ c, (∃ o, d.node (c :: Z) p = some o) ↔ c ∈ cs.map Prod.fst)
    (hdir : ∀ x ∈ cs, ∀ b, d.node (x.1 :: Z) p = some (.dir b) → x.2 ≠ .other) :
    Lists sp d Z p (replicaOf sp cs) where
  child n hdot hdotdot := by
    simp only [replicaOf, mem_cons, exists_eq_or_imp, mem_map,
      exists_exists_and_eq_and, hdot.symm, hdotdot.symm, false_or]
    constructor
    · rintro ⟨x, hx, hn⟩
      obtain ⟨o, ho⟩ := (hmem x.1).mpr (mem_map_of_mem hx)
      exact ⟨x.1, o, ho, hn⟩
    · rintro ⟨c, o, ho, hn⟩
      obtain ⟨x, hx, rfl⟩ := mem_map.mp ((hmem c).mp ⟨o, ho⟩)
      exact ⟨x, hx, hn⟩
  once := by
    have htext : ((cs.map Prod.fst).map sp.text).Nodup :=
      List.Nodup.map sp.inj hcs
    have hdots : dot ≠ dotdot := by decide
    simpa [replicaOf, hdots, sp.notDot, sp.notDotdot, Function.comp_def] using htext
  dots e he hn := by
    simp only [replicaOf, mem_cons, mem_map] at he
    rcases he with rfl | rfl | ⟨x, -, rfl⟩
    · rfl
    · rfl
    · exact (hn.elim (sp.notDot x.1) (sp.notDotdot x.1)).elim
  dirs e he c b hb hn := by
    simp only [replicaOf, mem_cons, mem_map] at he
    rcases he with rfl | rfl | ⟨x, hx, rfl⟩
    · rfl
    · rfl
    · obtain rfl : x.1 = c := sp.inj hn
      simpa [Dirent.hashed] using hdir x hx b hb

end Opened

/-! ## Two directories -/

/-- Names of one letter, `k` and one more for each name. -/
def letters (k : Nat) (hk : 0 < k) : Spelling where
  text c := replicate (k + c) 97
  inj c c' h := by simpa using congrArg length h
  notDot c h := by
    have hm : 97 ∈ dot := h ▸ mem_replicate.mpr ⟨by omega, rfl⟩
    exact absurd hm (by decide)
  notDotdot c h := by
    have hm : 97 ∈ dotdot := h ▸ mem_replicate.mpr ⟨by omega, rfl⟩
    exact absurd hm (by decide)

/-- The names `a`, `aa` and so on. -/
def short : Spelling := letters 1 (by decide)

def trioDirs : List Path := [[], [0]]

/-- The root is normal in two of three partitions.  It has a subdirectory in
    both, a plain file, and a file whose data is in the third. -/
def trioEntries : List (Path × Nat × Obj) :=
  [([], 0, .dir true), ([], 1, .dir true), ([], 2, .dir false),
    ([0], 0, .dir true), ([0], 1, .dir false), ([1], 1, .file 0),
    ([2], 0, .file 0), ([2], 2, .file 0)]

def trio : Disk :=
  .ofList trioEntries [(0, 0, pointerTo 2), (2, 0, pointerTo 0)] 1 3

theorem trio_world : World 3 (· ∈ trioDirs) trio := world_ofList (by decide)

theorem trio_named (c : Nat) (hc : [c] ∉ trioDirs) : ∃ F, Named trio [c] F := by
  by_cases h₁ : c = 1
  · subst h₁
    exact ⟨_, named_plain trio_world hc (p := 1) (i := 0) (a := none)
      (by decide) (by decide) (by decide) (.inl rfl)⟩
  · by_cases h₂ : c = 2
    · subst h₂
      refine ⟨some ⟨2, 0, some (pointerTo 0), some (0, 0)⟩, ?_, ?_⟩
      · refine col_of_range trio_world hc (by decide) (fun q hq => ?_)
        exact both_of_ne (ne_of_gt (by omega)) (ne_of_gt hq)
      · rintro f ⟨⟩
        exact ⟨by decide, by decide, rfl⟩
    · refine ⟨none, named_absent trio_world hc (fun q _ => ?_)⟩
      rw [trio_world.col_none_iff hc]
      by_contra hne
      obtain ⟨o, ho⟩ := Option.ne_none_iff_exists'.mp hne
      have hm := mem_of_node ho
      simp [trioEntries] at hm
      simp [trioDirs] at hc
      omega

/-- What the replicas of the root list. -/
def trioFiles (p : Nat) : ReplicaFile :=
  replicaOf short (if p = 0 then [(0, .dir), (2, .other)] else [(0, .dir), (1, .unknown)])

theorem trio_lists (p : Nat) (hp : trio.node [] p = some (.dir true)) :
    Lists short trio [] p (trioFiles p) := by
  have hm := mem_of_node hp
  simp [trioEntries] at hm
  rcases hm with rfl | rfl
  · refine lists_replicaOf (by decide) (fun c => ?_) (by decide)
    rw [trio, exists_node_iff]
    simp [trioEntries, eq_comm]
  · refine lists_replicaOf (by decide) (fun c => ?_) (by decide)
    rw [trio, exists_node_iff]
    simp [trioEntries, eq_comm]

/-- The root of `trio`, opened. -/
def trioOpen : Directory :=
  sfsDirOpen 3 (trio.dirDentry 3 []) trioFiles 4096 sum 26

theorem trio_listing_agrees : Fits trioOpen ∧ ListingAgrees short 3 trio [] trioOpen := by
  have hfit : Fits trioOpen := by decide
  exact ⟨hfit, (listing_agrees_iff trio_world (by decide) trio_world.root
    (dirDentry_reflects trio_world (by decide)) trio_named trio_lists
    4096 sum 26).mpr hfit⟩

/-- The names of 27 letters and more. -/
def long : Spelling := letters 27 (by decide)

def soloDirs : List Path := [[], [0]]

/-- One partition, and a directory in its root. -/
def soloEntries : List (Path × Nat × Obj) :=
  [([], 0, .dir true), ([0], 0, .dir true)]

def solo : Disk := .ofList soloEntries [] 0 1

theorem solo_world : World 1 (· ∈ soloDirs) solo := world_ofList (by decide)

def soloOpen : Directory :=
  sfsDirOpen 1 (solo.dirDentry 1 []) (fun _ => replicaOf long [(0, .dir)]) 4096 sum 26

/-- A directory whose name has 27 letters is found, and the listing writes past
    its entry of the table. -/
theorem solo_listing_overflows :
    Found 1 solo [0] ∧ listing soloOpen = none ∧ ¬ ListingAgrees long 1 solo [] soloOpen := by
  have hnone : listing soloOpen = none := by decide
  refine ⟨found_dir solo_world (by decide) (by decide), hnone, ?_⟩
  rintro ⟨l, hl, -⟩
  exact nomatch hnone.symm.trans hl

end Listing
