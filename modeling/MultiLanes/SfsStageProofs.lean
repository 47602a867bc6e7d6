import MultiLanes.SfsTrailProofs

/-! # SFS — the stages of a rename

Between two durable steps of a rename all that matters is in the columns of the two
names, in the meta partition that the source's dentry has, and in whether the data file
has been moved (`Stage`).  Each rule here is one step of `rename.c` from a stage to the
next.  A `Course` lists the pairs of columns at which a crash may find the rename, and
those in which it ends with an error. -/

namespace Sfs

open InteractProg Function

/-- The two names of a rename. -/
structure Ends (D : Path → Prop) (x y : Path) : Prop where
  ne : x ≠ y
  old : ¬ D x
  new : ¬ D y
  oldDir : D x.tail
  newDir : D y.tail

/-- The dentries of the two names while the file `i` is moved in partition `o`;
    `gone` says that it has been. -/
structure Pair (N : Nat) (x y : Path) (o i : Nat) (gone : Bool)
    (cx cy : Column) (m : Option Nat) (dx dy : SfsDentry) : Prop where
  positive : dx.positive = true
  replicaId : dx.replicaId = some o
  metaId : dx.metaId = m
  null : ∀ {p}, N ≤ p → dx.replicas p = none
  left : ∀ {p}, p ≠ o → dx.Match x cx p
  right : ∀ {p}, p ≠ o → dy.Match y cy p
  own : dx.replicas o = some ⟨if gone then y else x, some (.file i)⟩
  target : ∃ r, dy.replicas o = some ⟨y, r⟩

/-- A moment of a rename from `s`. -/
structure Stage (N : Nat) (D P : Path → Prop) (s : Sys) (x y : Path) (o i : Nat)
    (gone : Bool) (cx cy : Column) (m : Option Nat) (t : Sys) : Prop where
  view : View N D P s.disk x y cx cy t.disk
  pair : ∃ dx dy, t = s.two x dx y dy t.disk ∧ Pair N x y o i gone cx cy m dx dy

/-- The end of a rename: the dentry of `x` is that of the new name. -/
structure Done (N : Nat) (D P : Path → Prop) (s : Sys) (x y : Path) (o : Nat)
    (cx cy : Column) (m : Option Nat) (t : Sys) : Prop where
  view : View N D P s.disk x y cx cy t.disk
  moved : ∃ dx dy, t = s.two x dx y dy t.disk ∧ dx.positive = true
    ∧ dx.replicaId = some o ∧ dx.metaId = m ∧ (∀ p, dx.Match y cy p)
    ∧ ∀ {p}, N ≤ p → dx.replicas p = none

/-- The code runs to an end in `Q` and returns 0; the columns of the two names are as in
    `cs` on the way, and as in `fs` when an operation fails and the error is returned. -/
def Course (N : Nat) (D P : Path → Prop) (d₀ : Disk) (x y : Path) (c : Code Int) (s : Sys)
    (cs fs : List (Column × Column)) (Q : Sys → Prop) : Prop :=
  ∃ t ds es, Trail c s t ds es ∧ List.Forall₂ (fun c d => View N D P d₀ x y c.1 c.2 d) cs ds
    ∧ List.Forall₂ (fun c d => View N D P d₀ x y c.1 c.2 d) fs es
    ∧ Q t

section Rules

variable {N : Nat} {D P : Path → Prop} {s t u : Sys} {x y : Path} {o i j p : Nat}
  {gone : Bool} {cx cy : Column} {m : Option Nat} {a : Option Ptrs} {v : Ptrs}
  {k out : Code Int} {cs fs : List (Column × Column)} {Q : Sys → Prop}

theorem Course.ret {d₀ : Disk} (h : Q s) : Course N D P d₀ x y (.ret 0) s [] [] Q :=
  ⟨s, [], [], .ret, .nil, .nil, h⟩

theorem Course.calm {α : Type} {d₀ : Disk} {c : Code α} {f : α → Code Int}
    {b : α} (hc : Calm c s b u) (h : Course N D P d₀ x y (f b) u cs fs Q) :
    Course N D P d₀ x y (c >>= f) s cs fs Q := by
  obtain ⟨t, ds, es, ht, hds, hes, hQ⟩ := h
  exact ⟨t, ds, es, ht.calm hc, hds, hes, hQ⟩

variable {c : Column} {dz : SfsDentry} {z : Path} {parent : Option Replica} {r : Inode}

theorem match_congr {c' : Column}
    (h : dz.Match z c p) (hc : (c' p).map Prod.fst = (c p).map Prod.fst) :
    dz.Match z c' p := by
  have hfile : (c' p).map (fun f => Inode.file f.1) = (c p).map (fun f => Inode.file f.1) := by
    have h2 := congrArg (Option.map Inode.file) hc
    rw [Option.map_map, Option.map_map] at h2
    exact h2
  rcases h with ⟨h, hn⟩ | h
  · refine .inl ⟨h, ?_⟩
    rw [hn] at hc
    exact Option.map_eq_none_iff.mp hc
  · exact .inr (by rw [h, hfile])

/-- Other links do not show in a dentry. -/
theorem match_put {q : Nat} (h : dz.Match z c p) (hc : c q = some (j, a)) :
    dz.Match z (update c q (some (j, some v))) p := by
  refine match_congr h ?_
  by_cases hp : p = q
  · rw [hp, update_self, hc]
    rfl
  · rw [update_of_ne hp]

/-- The slot `q` is stored. -/
theorem match_store {q : Nat} {f : Option (Nat × Option Ptrs)} (h : p ≠ q → dz.Match z c p) :
    (dz.setReplica q (some ⟨z, f.map (fun f => .file f.1)⟩)).Match z (update c q f) p := by
  by_cases hp : p = q
  · refine .inr ?_
    rw [hp, setReplica_self, update_self]
  · rw [SfsDentry.Match, setReplica_of_ne hp, update_of_ne hp]
    exact h hp

/-- The next stage when a file gets other links. -/
theorem Stage.put {cx' cy' : Column} (h : Stage N D P s x y o i gone cx cy m t)
    (hv : View N D P s.disk x y cx' cy' (t.disk.setAttr p j (some v)))
    (hl : ∀ {dz : SfsDentry} {q}, dz.Match x cx q → dz.Match x cx' q)
    (hr : ∀ {dz : SfsDentry} {q}, dz.Match y cy q → dz.Match y cy' q) :
    Stage N D P s x y o i gone cx' cy' m (t.onDisk (t.disk.setAttr p j (some v))) := by
  obtain ⟨-, dx, dy, ht, hp⟩ := h
  exact ⟨hv, dx, dy, by rw [ht]; rfl, hp.positive, hp.replicaId, hp.metaId, hp.null,
    fun hq => hl (hp.left hq), fun hq => hr (hp.right hq), hp.own, hp.target⟩

section

variable (hE : Ends D x y)
include hE

/-- The slot of the source has the file. -/
theorem Stage.own (h : Stage N D P s x y o i gone cx cy m t) :
    ∃ dx, t.mem x = some dx ∧ dx.IsFile o i := by
  obtain ⟨-, dx, dy, ht, hp⟩ := h
  exact ⟨dx, by rw [ht]; exact two_left hE.ne, by rw [SfsDentry.IsFile, hp.own]; rfl⟩

/-- `put` on the source, before it is moved. -/
theorem Course.put_source
    (h : Stage N D P s x y o i false cx cy m t) (hc : cx o = some (i, a))
    (hk : ∀ {t'}, Stage N D P s x y o i false (update cx o (some (i, some v))) cy m t' →
      Course N D P s.disk x y k t' cs fs Q) :
    Course N D P s.disk x y (checked (put x o v) k) t ((cx, cy) :: cs) ((cx, cy) :: fs) Q := by
  obtain ⟨dx, hmem, hi⟩ := h.own hE
  obtain ⟨w, ds, es, htr, hds, hes, hQ⟩ := hk (h.put (h.view.put_left hE.ne hc)
    (fun hm => match_put hm hc) id)
  exact ⟨w, _, _, htr.put hmem hi, .cons h.view hds, .cons h.view hes, hQ⟩

/-- `put` on the source after it was moved; the error is dropped. -/
theorem Course.put_moved
    (h : Stage N D P s x y o i true cx cy m t) (hc : cy o = some (i, a))
    (hz : Zero k)
    (hk : ∀ {t'}, Stage N D P s x y o i true cx (update cy o (some (i, some v))) m t' →
      Course N D P s.disk x y k t' cs fs Q) :
    Course N D P s.disk x y (put x o v >>= fun _ => k) t ((cx, cy) :: cs)
      fs Q := by
  obtain ⟨dx, hmem, hi⟩ := h.own hE
  obtain ⟨w, ds, es, htr, hds, hes, hQ⟩ := hk (h.put (h.view.put_right hE.ne hc) id
    fun hm => match_put hm hc)
  exact ⟨w, _, _, htr.putAnyway hmem hi hz, .cons h.view hds, hes, hQ⟩

section

variable (h : Stage N D P s x y o i gone cx cy m t) (hpo : p ≠ o) (hc : cy p = some (j, a))
include h hpo hc

/-- A file of the target gets other links. -/
theorem Stage.put_target :
    ∃ dy, t.mem y = some dy ∧ dy.IsFile p j
      ∧ Stage N D P s x y o i gone cx (update cy p (some (j, some v))) m
        (t.onDisk (t.disk.setAttr p j (some v))) := by
  have hnext := h.put (v := v) (h.view.put_right hE.ne hc) id fun hm => match_put hm hc
  obtain ⟨-, dx, dy, ht, hp⟩ := h
  refine ⟨dy, by rw [ht]; exact two_right, ?_, hnext⟩
  rw [SfsDentry.IsFile, (hp.right hpo).slot hc]
  rfl

theorem Course.put_target
    (hk : ∀ {t'}, Stage N D P s x y o i gone cx (update cy p (some (j, some v))) m t' →
      Course N D P s.disk x y k t' cs fs Q) :
    Course N D P s.disk x y (checked (put y p v) k) t ((cx, cy) :: cs) ((cx, cy) :: fs) Q := by
  obtain ⟨dy, hmem, hi, hnext⟩ := h.put_target hE hpo hc (v := v)
  obtain ⟨w, ds, es, htr, hds, hes, hQ⟩ := hk hnext
  exact ⟨w, _, _, htr.put hmem hi, .cons h.view hds, .cons h.view hes, hQ⟩

theorem Course.put_target_anyway (hz : Zero k)
    (hk : ∀ {t'}, Stage N D P s x y o i gone cx (update cy p (some (j, some v))) m t' →
      Course N D P s.disk x y k t' cs fs Q) :
    Course N D P s.disk x y (put y p v >>= fun _ => k) t ((cx, cy) :: cs)
      fs Q := by
  obtain ⟨dy, hmem, hi, hnext⟩ := h.put_target hE hpo hc (v := v)
  obtain ⟨w, ds, es, htr, hds, hes, hQ⟩ := hk hnext
  exact ⟨w, _, _, htr.putAnyway hmem hi hz, .cons h.view hds, hes, hQ⟩

end

section

variable (hpar : parent.bind Replica.inode = some r) (h : Stage N D P s x y o i false cx cy m t)
  (hc : cx o = some (i, a)) (hh : t.disk.Holds y.tail o)
include hpar h hc hh

/-- The file is renamed in its partition.  What is left to say is how it goes on
    and what is done about an error. -/
theorem Course.rename
    {f : Int → Code Int} {cf : Column × Column} {df : Disk}
    (hf : ∀ e, e ≠ 0 → ∃ u, run sysHandler (f e) t = some (e, u) ∧ u.disk = df)
    (hdf : View N D P s.disk x y cf.1 cf.2 df)
    (hk : ∀ {t'}, Stage N D P s x y o i true (update cx o none) (update cy o (some (i, a))) m t' →
      Course N D P s.disk x y (f 0) t' cs fs Q) :
    Course N D P s.disk x y (renameReplica parent x y o >>= f) t ((cx, cy) :: cs) (cf :: fs) Q := by
  obtain ⟨hv, dx, dy, ht, hp⟩ := h
  obtain ⟨r, hr⟩ := hp.target
  have hn : t.disk.node x o = some (.file i) :=
    (col_eq_some.mp ((congrFun hv.left o).trans hc)).1
  have hny : ∀ b, t.disk.node y o ≠ some (.dir b) :=
    fun b hb => hE.new ((hv.world.dir_iff hb).mp ⟨b, rfl⟩)
  have hnext : Stage N D P s x y o i true (update cx o none) (update cy o (some (i, a))) m
      (s.two x (dx.setReplica o (some ⟨y, some (.file i)⟩)) y
        (dy.setReplica o (some ⟨y, none⟩)) (t.disk.moveFile x y o)) := by
    refine ⟨hv.move hE.ne hE.old hE.new hc hh, _, _, rfl, hp.positive,
      hp.replicaId, hp.metaId, fun hq => ?_, fun hq => ?_, fun hq => ?_,
      setReplica_self, none, setReplica_self⟩
    · rw [setReplica_of_ne]
      · exact hp.null hq
      · rintro rfl
        exact absurd (hv.world.within hn) (not_lt.mpr hq)
    · rw [SfsDentry.Match, setReplica_of_ne hq, update_of_ne hq]
      exact hp.left hq
    · rw [SfsDentry.Match, setReplica_of_ne hq, update_of_ne hq]
      exact hp.right hq
  obtain ⟨w, ds, es, htr, hds, hes, hQ⟩ := hk hnext
  refine ⟨w, t.disk :: ds, df :: es, ?_, .cons hv hds, .cons hdf hes, hQ⟩
  rw [ht]
  exact .rename hE.ne hpar hp.own hr hn hny (fun e he => by
    obtain ⟨u, hu, hd⟩ := hf e he
    exact ⟨u, ht ▸ hu, hd⟩) htr

/-- `if(unlikely(err)) goto out;` after the rename. -/
theorem Course.checkedRename
    (hk : ∀ {t'}, Stage N D P s x y o i true (update cx o none) (update cy o (some (i, a))) m t' →
      Course N D P s.disk x y k t' cs fs Q) :
    Course N D P s.disk x y (checked (renameReplica parent x y o) k) t
      ((cx, cy) :: cs) ((cx, cy) :: fs) Q := by
  refine .rename hE hpar h hc hh (fun e he => ⟨t, ?_, rfl⟩) h.view hk
  rw [if_pos he]
  rfl

end

/-- `set_meta_id`. -/
theorem Course.setMetaId {m' : Option Nat} (h : Stage N D P s x y o i gone cx cy m t)
    (hk : ∀ {t'}, Stage N D P s x y o i gone cx cy m' t' → Course N D P s.disk x y k t' cs fs Q) :
    Course N D P s.disk x y (setMetaId x m' >>= fun _ => k) t cs fs Q := by
  obtain ⟨hv, dx, dy, ht, hp⟩ := h
  have hcalm : Calm (Sfs.setMetaId x m') t () (s.two x { dx with metaId := m' } y dy t.disk) := by
    refine ⟨rfl, fun e I G Q => ?_⟩
    rw [ht, Sfs.setMetaId, does_modD_last, two_left hE.ne]
    simp [two_setD_left hE.ne]
  exact .calm hcalm (hk ⟨hv, _, dy, rfl, hp.positive, hp.replicaId, rfl,
    hp.null, hp.left, hp.right, hp.own, hp.target⟩)

end

/-- The next stage when a file of the target comes or goes. -/
theorem Stage.store_target {f : Option (Nat × Option Ptrs)} {d : Disk}
    (h : Stage N D P s x y o i gone cx cy m t) (hpo : p ≠ o)
    (hv : View N D P s.disk x y cx (update cy p f) d) :
    ∃ dy, t.mem y = some dy ∧ dy.Match y cy p
      ∧ Stage N D P s x y o i gone cx (update cy p f) m ((t.onDisk d).setD y
          (dy.setReplica p (some ⟨y, f.map (fun f => .file f.1)⟩))) := by
  obtain ⟨-, dx, dy, ht, hp⟩ := h
  obtain ⟨r, hr⟩ := hp.target
  refine ⟨dy, by rw [ht]; exact two_right, hp.right hpo, hv, dx, _, ?_,
    hp.positive, hp.replicaId, hp.metaId, hp.null, hp.left,
    fun hq => match_store fun _ => hp.right hq, hp.own, r,
    (setReplica_of_ne hpo.symm).trans hr⟩
  rw [ht, two_onDisk, two_setD_right]
  rfl

/-- The stage after a file of the target is deleted. -/
theorem Course.unlink_target
    (hE : Ends D x y) (hpar : parent.bind Replica.inode = some r)
    (h : Stage N D P s x y o i gone cx cy m t) (hpo : p ≠ o)
    (hc : cy p = some (j, a))
    (hk : ∀ {t'}, Stage N D P s x y o i gone cx (update cy p none) m t' →
      Course N D P s.disk x y k t' cs fs Q) :
    Course N D P s.disk x y (orOut (simpleUnlinkNotPut parent y p) out k) t
      ((cx, cy) :: cs) fs Q := by
  obtain ⟨dy, hmem, hslot, hnext⟩ :=
    h.store_target hpo (h.view.unlink_right hE.ne hE.new)
  have hn := (col_eq_some.mp ((congrFun h.view.right p).trans hc)).1
  obtain ⟨w, ds, es, htr, hds, hes, hQ⟩ := hk hnext
  exact ⟨w, _, _, htr.made (made_simpleUnlinkNotPut hpar hmem (hslot.slot hc) hn),
    .cons h.view hds, hes, hQ⟩

/-- The meta file of the source is deleted. -/
theorem Course.dropMeta {delete : Nat → Code Int} (hE : Ends D x y)
    (h : Stage N D P s x y o i gone cx cy m t) (hpo : p ≠ o)
    (hc : cx p = some (j, a))
    (hdel : ∀ {dx}, t.mem x = some dx → dx.replicas p = some ⟨x, some (.file j)⟩ →
      t.disk.node x p = some (.file j) →
      Made (delete p) t 0 ((t.onDisk (t.disk.setNode x p none)).setD x
        (dx.setReplica p (some ⟨x, none⟩))) [t.disk])
    (hk : ∀ {t'}, Stage N D P s x y o i gone (update cx p none) cy m t' →
      Course N D P s.disk x y k t' cs fs Q) :
    Course N D P s.disk x y (dropMeta (some p) delete >>= fun _ => k) t ((cx, cy) :: cs) fs Q := by
  obtain ⟨hv, dx, dy, ht, hp⟩ := h
  have hmem : t.mem x = some dx := by rw [ht]; exact two_left hE.ne
  have hn : t.disk.node x p = some (.file j) :=
    (col_eq_some.mp ((congrFun hv.left p).trans hc)).1
  have hnext : Stage N D P s x y o i gone (update cx p none) cy m
      ((t.onDisk (t.disk.setNode x p none)).setD x (dx.setReplica p (some ⟨x, none⟩))) := by
    refine ⟨hv.unlink_left hE.ne hE.old, dx.setReplica p (some ⟨x, none⟩), dy,
      ?_, hp.positive, hp.replicaId, hp.metaId, fun hq => ?_,
      fun hq => match_store (f := none) (fun _ => hp.left hq), hp.right,
      (setReplica_of_ne hpo.symm).trans hp.own, hp.target⟩
    · rw [ht, two_onDisk, two_setD_left hE.ne]
      rfl
    · rw [setReplica_of_ne]
      · exact hp.null hq
      · rintro rfl
        exact absurd (hv.world.within hn) (not_lt.mpr hq)
  obtain ⟨w, ds, es, htr, hds, hes, hQ⟩ := hk hnext
  refine ⟨w, t.disk :: ds, es, ?_, .cons hv hds, hes, hQ⟩
  have htr' := Trail.made (f := fun _ => k) (hdel hmem ((hp.left hpo).slot hc) hn) htr
  rw [Sfs.dropMeta, bind_bind]
  exact htr'

/-- The meta file of the target is made. -/
theorem Course.create_target
    (hE : Ends D x y) (hpar : parent.bind Replica.inode = some r)
    (h : Stage N D P s x y o i gone cx cy m t) (hpo : p ≠ o)
    (hc : cy p = none) (hh : t.disk.Holds y.tail p)
    (hk : ∀ {t'}, Stage N D P s x y o i gone cx (update cy p (some (t.disk.next, none))) m t' →
      Course N D P s.disk x y k t' cs fs Q) :
    Course N D P s.disk x y (checked (createReplica parent y p) k) t
      ((cx, cy) :: cs) ((cx, cy) :: fs) Q := by
  obtain ⟨dy, hmem, -, hnext⟩ :=
    h.store_target hpo (h.view.create_right hE.ne hE.new hh)
  have hn : t.disk.node y p = none :=
    (h.view.world.col_none_iff hE.new).mp ((congrFun h.view.right p).trans hc)
  obtain ⟨w, ds, es, htr, hds, hes, hQ⟩ := hk hnext
  exact ⟨w, _, _, htr.create hpar hmem hn, .cons h.view hds, .cons h.view hes, hQ⟩

/-- `sfs_d_move` and the end. -/
theorem Course.done (hE : Ends D x y)
    (h : Stage N D P s x y o i true cx cy m t) (hc : cy o = some (i, a)) :
    Course N D P s.disk x y (sfsDMove x y o (List.range N) >>= fun _ => .ret 0) t
      [] [] (Done N D P s x y o cx cy m) := by
  obtain ⟨hv, dx, dy, ht, hp⟩ := h
  have hcalm : Calm (sfsDMove x y o (List.range N)) t ()
      (s.two x (dx.take dy o (List.range N)) y (dy.take dx o (List.range N)) t.disk) := by
    have h : Calm (sfsDMove x y o (List.range N)) (s.two x dx y dy t.disk) ()
        (s.two x (dx.take dy o (List.range N)) y (dy.take dx o (List.range N))
          t.disk) := (still_sfsDMove hE.ne List.nodup_range).calm
    rw [← ht] at h
    exact h
  refine .calm hcalm (.ret ⟨hv, _, _, rfl, hp.positive, hp.replicaId, hp.metaId,
    fun p => ?_, fun {p} hpN => ?_⟩)
  · by_cases hpo : p = o
    · refine .inr ?_
      rw [hpo, hc]
      simpa [SfsDentry.take] using hp.own
    · by_cases hpN : p < N
      · have hslot : (dx.take dy o (List.range N)).replicas p
            = dy.replicas p := if_pos ⟨hpo, List.mem_range.mpr hpN⟩
        rw [SfsDentry.Match, hslot]
        exact hp.right hpo
      · have hslot : (dx.take dy o (List.range N)).replicas p
            = dx.replicas p := if_neg (fun h => hpN (List.mem_range.mp h.2))
        refine .inl ⟨hslot.trans (hp.null (not_lt.mp hpN)), ?_⟩
        cases hcy : cy p with
        | none => rfl
        | some f =>
          have hn := (col_eq_some.mp ((congrFun hv.right p).trans hcy)).1
          exact absurd (hv.world.within hn) hpN
  · have hslot : (dx.take dy o (List.range N)).replicas p = dx.replicas p :=
      if_neg (fun h => absurd (List.mem_range.mp h.2) (not_lt.mpr hpN))
    exact hslot.trans (hp.null hpN)

end Rules

end Sfs
