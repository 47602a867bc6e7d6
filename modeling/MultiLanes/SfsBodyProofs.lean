import MultiLanes.SfsStageProofs

/-! # SFS — the courses of `rename2non` and `rename2exist`

For each branch of the two functions, the columns of the names at every moment of it,
the columns it leaves when it returns an error, and its end. `f` is the source; the
column of the target is left open where the branch does not depend on it. -/

namespace Sfs

open InteractProg Function

section Bodies

variable {N : Nat} {D P : Path → Prop} {s t : Sys} {x y : Path} {f : File}
  {cy : Column} {m : Option Nat} {a : Option Ptrs} {parent : Option Replica}
  {r : Inode} {p e k : Nat}

theorem View.holds {d₀ d : Disk} {cx cy : Column} {Z : Path}
    (h : View N D P d₀ x y cx cy d) (hZ : D Z) :
    d.Holds Z p ↔ d₀.Holds Z p := by
  unfold Disk.Holds
  rw [h.dirs hZ]

/-! ## The end -/

/-- The moment before the meta file of the source goes. -/
def File.drop (f : File) (cy : Column) : List (Column × Column) :=
  match f.parted with
  | none => []
  | some _ => [(f.rest, cy)]

/-- What the names are at the moments of a branch, what an error leaves of them,
    and the column of the target in the end. -/
structure Way where
  moments : List (Column × Column)
  faults : List (Column × Column)
  last : Column

/-- With the moment before the meta file of the source goes. -/
def Way.steps (w : Way) (f : File) : List (Column × Column) :=
  w.moments ++ f.drop w.last

/-- The meta file of the source goes, if it has one, and the slots of the two
    dentries are exchanged. -/
theorem course_finish {delete : Nat → Code Int} (hE : Ends D x y) (hA : f.Apart)
    (hdel : ∀ {p j dx}, f.parted ≠ none → t.mem x = some dx →
      dx.replicas p = some ⟨x, some (.file j)⟩ →
      t.disk.node x p = some (.file j) →
      Made (delete p) t 0 ((t.onDisk (t.disk.setNode x p none)).setD x
        (dx.setReplica p (some ⟨x, none⟩))) [t.disk])
    (h : Stage N D P s x y f.data f.ino true f.rest cy m t)
    (hc : cy f.data = some (f.ino, a)) :
    Course N D P s.disk x y (do
        dropMeta f.metaId delete
        sfsDMove x y f.data (List.range N)
        return 0) t (f.drop cy) [] (Done N D P s x y f.data noFile cy m) := by
  rw [File.drop, File.metaId]
  cases hp : f.parted with
  | none =>
    rw [File.rest, hp] at h
    exact .done hE h hc
  | some m' =>
    have hrest : f.rest = only m'.1 (m'.2, some (pointerTo f.data)) := by
      rw [File.rest, hp]
    rw [hrest] at h ⊢
    refine .dropMeta hE h (hA m' hp) only_self
      (hdel (by rw [hp]; exact Option.some_ne_none _)) (fun h' => ?_)
    rw [only_clear] at h'
    exact .done hE h' hc

theorem zero_finish {delete : Nat → Code Int} {o : Nat} {om : Option Nat} : Zero (do
      dropMeta om delete
      sfsDMove x y o (List.range N)
      return 0) :=
  leaves_bind fun _ => leaves_bind fun _ => rfl

theorem course_finish2non (hE : Ends D x y) (hA : f.Apart)
    (h : Stage N D P s x y f.data f.ino true f.rest cy m t) (hc : cy f.data = some (f.ino, a)) :
    Course N D P s.disk x y (finish2non N x y f.data f.metaId) t (f.drop cy) []
      (Done N D P s x y f.data noFile cy m) :=
  course_finish hE hA (fun _ => made_unlinkSlot) h hc

/-- `out:` of `rename2exist`; the parent is known when there is a meta file. -/
theorem course_finish2exist {metaParent : Option Replica} (hE : Ends D x y) (hA : f.Apart)
    (hpar : f.parted ≠ none → metaParent.bind Replica.inode = some r)
    (h : Stage N D P s x y f.data f.ino true f.rest cy m t) (hc : cy f.data = some (f.ino, a)) :
    Course N D P s.disk x y (finish2exist N x y f.data f.metaId metaParent) t
      (f.drop cy) [] (Done N D P s x y f.data noFile cy m) :=
  course_finish hE hA (fun hp => made_simpleUnlinkNotPut (hpar hp)) h hc

/-! ## `rename2non` -/

/-- A plain source into a directory that is normal there. -/
def turnPlain (f : File) : Way :=
  ⟨[(f.col, noFile)], [(f.col, noFile)], only f.data (f.ino, f.attr)⟩

theorem course_turn_plain (hE : Ends D x y) (hA : f.Apart)
    (hpar : parent.bind Replica.inode = some r) (hp : f.parted = none)
    (hh : s.disk.Holds y.tail f.data)
    (h : Stage N D P s x y f.data f.ino false f.col noFile f.metaId t) :
    Course N D P s.disk x y (rename2nonTurn N x y f.data f.metaId parent) t
      ((turnPlain f).steps f) (turnPlain f).faults
      (Done N D P s x y f.data noFile (turnPlain f).last none) := by
  have hnone : f.metaId = none := by rw [File.metaId, hp]; rfl
  rw [hnone] at h ⊢
  refine .checkedRename hE hpar h hA.colWith_data ((h.view.holds hE.newDir).mpr hh) (fun h' => ?_)
  refine .setMetaId hE h' (fun h'' => ?_)
  rw [File.col, hA.leave] at h''
  have hfin := course_finish2non hE hA h'' only_self
  rw [hnone, noFile_add] at hfin
  exact hfin

/-- A partitioned source: its pointer is masked by a rename link to itself until it is moved. -/
def turnParted (f : File) : Way where
  moments := [(f.col, noFile), (f.colWith (some (renameTo f.data)), noFile),
    (f.rest, only f.data (f.ino, some (renameTo f.data)))]
  faults := [(f.col, noFile), (f.colWith (some (renameTo f.data)), noFile)]
  last := only f.data (f.ino, some Ptrs.unset)

theorem course_turn_parted (hE : Ends D x y) (hA : f.Apart)
    (hpar : parent.bind Replica.inode = some r) {m' : Nat × Nat} (hp : f.parted = some m')
    (hh : s.disk.Holds y.tail f.data)
    (h : Stage N D P s x y f.data f.ino false f.col noFile f.metaId t) :
    Course N D P s.disk x y (rename2nonTurn N x y f.data f.metaId parent) t
      ((turnParted f).steps f) (turnParted f).faults
      (Done N D P s x y f.data noFile (turnParted f).last none) := by
  have hsome : f.metaId = some m'.1 := by rw [File.metaId, hp]; rfl
  rw [rename2nonTurn, if_pos (by rw [hsome]; rfl)]
  refine .put_source hE h hA.colWith_data (fun h' => ?_)
  rw [File.col, hA.set] at h'
  refine .checkedRename hE hpar h' hA.colWith_data ((h'.view.holds hE.newDir).mpr hh) (fun h' => ?_)
  rw [hA.leave, noFile_add] at h'
  rw [onlyIf_pos (by rw [hsome]; rfl), bind_bind]
  have hzero : Zero (setMetaId x none >>= fun _ =>
      finish2non N x y f.data f.metaId) := leaves_bind fun _ => zero_finish
  refine .put_moved hE h' only_self hzero (fun h' => ?_)
  rw [only_set] at h'
  refine .setMetaId hE h' (fun h'' => ?_)
  exact course_finish2non hE hA h'' only_self

/-- The target directory is a shadow in the partition of the source: a meta file
    with inode `n` is made in partition `p`. -/
def metaWay (f : File) (p n : Nat) : Way :=
  let made := only p (n, some (pointerTo f.data))
  let moved := fun v => both f.data (f.ino, some v) p (n, some (pointerTo f.data))
  let unmoved := [(f.col, noFile), (f.col, only p (n, none)), (f.col, made),
    (f.colWith (some (renameTo p)), made)]
  ⟨unmoved ++ [(f.rest, moved (renameTo p))], unmoved, moved (pointerTo p)⟩

theorem course_meta (hE : Ends D x y) (hA : f.Apart) (hpar : parent.bind Replica.inode = some r)
    {metaParent : Option Replica} {r' : Inode} (hmpar : metaParent.bind Replica.inode = some r')
    (hpo : p ≠ f.data) (hh : s.disk.Holds y.tail f.data) (hhp : s.disk.Holds y.tail p)
    (h : Stage N D P s x y f.data f.ino false f.col noFile f.metaId t) :
    let w := metaWay f p t.disk.next
    Course N D P s.disk x y (checked (createReplica metaParent y p) <|
        checked (put y p (pointerTo f.data)) <|
        checked (put x f.data (renameTo p)) <|
        checked (renameReplica parent x y f.data) do
          let _ ← put x f.data (pointerTo p)
          setMetaId x p
          finish2non N x y f.data f.metaId) t
      (w.steps f) w.faults (Done N D P s x y f.data noFile w.last (some p)) := by
  intro w
  refine .create_target hE hmpar h hpo rfl ((h.view.holds hE.newDir).mpr hhp) (fun h' => ?_)
  rw [noFile_add] at h'
  refine .put_target hE h' hpo only_self (fun h' => ?_)
  rw [only_set] at h'
  refine .put_source hE h' hA.colWith_data (fun h' => ?_)
  rw [File.col, hA.set] at h'
  refine .checkedRename hE hpar h' hA.colWith_data ((h'.view.holds hE.newDir).mpr hh) (fun h' => ?_)
  rw [hA.leave, only_add] at h'
  refine .put_moved hE h' both_left (leaves_bind fun _ => zero_finish) (fun h' => ?_)
  rw [both_set] at h'
  refine .setMetaId hE h' (fun h'' => ?_)
  exact course_finish2non hE hA h'' both_left

/-! ## `rename2exist` -/

/-- A file's links are changed, after an error. -/
theorem run_modify {z : Path} {dz : SfsDentry} {i : Nat} {g : Ptrs → Ptrs}
    (hz : s.mem z = some dz) (hi : dz.IsFile p i) :
    run sysHandler (modify z p g) s = some (0, s.onDisk (s.disk.setAttr p i
        (some (g ((s.disk.attr p i).getD Ptrs.unset))))) := by
  rw [SfsDentry.IsFile] at hi
  simp [modify, fileOf, findReplicaDentry, sfsD, getxattr, setxattr, perform,
    run_ask, sysHandler, Disk.step, hz, hi]

/-- `modify` on the source, before it is moved. -/
theorem Stage.modify_source {o i : Nat} {cx : Column} {v : Ptrs} {g : Ptrs → Ptrs} (hE : Ends D x y)
    (h : Stage N D P s x y o i false cx cy m t) (hc : cx o = some (i, some v)) :
    ∃ u, run sysHandler (modify x o g) t = some (0, u) ∧ Stage N D P s x y o i false
        (update cx o (some (i, some (g v)))) cy m u := by
  obtain ⟨hv, dx, dy, ht, hp⟩ := h
  have hmem : t.mem x = some dx := by rw [ht]; exact two_left hE.ne
  have hi : dx.IsFile o i := by rw [SfsDentry.IsFile, hp.own]; rfl
  have ha : t.disk.attr o i = some v :=
    (col_eq_some.mp ((congrFun hv.left o).trans hc)).2
  refine ⟨_, run_modify hmem hi, ?_, dx, dy, by rw [ht]; rfl, hp.positive,
    hp.replicaId, hp.metaId, hp.null, fun hq => match_put (hp.left hq) hc,
    hp.right, hp.own, hp.target⟩
  rw [ha]
  exact hv.put_left hE.ne hc

/-- `modify` on a file of the target. -/
theorem Stage.modify_target {o i j : Nat} {gone : Bool} {cx : Column} {v : Ptrs} {g : Ptrs → Ptrs}
    (hE : Ends D x y) (h : Stage N D P s x y o i gone cx cy m t) (hpo : p ≠ o)
    (hc : cy p = some (j, some v)) :
    ∃ u, run sysHandler (modify y p g) t = some (0, u) ∧ Stage N D P s x y o i gone cx
        (update cy p (some (j, some (g v)))) m u := by
  have ha : t.disk.attr p j = some v :=
    (col_eq_some.mp ((congrFun h.view.right p).trans hc)).2
  obtain ⟨dy, hmem, hi, hnext⟩ := h.put_target hE hpo hc (v := g v)
  refine ⟨_, run_modify hmem hi, ?_⟩
  rw [ha]
  exact hnext

/-- The source in the column of the target, with the links `v`. -/
abbrev File.into (f : File) (cy : Column) (v : Ptrs) : Column :=
  update cy f.data (some (f.ino, some v))

/-- Condition 1.1: the file that is in the way is overwritten; `cz` is what is
    left of the destination, and `es` what comes after the move. -/
def overwriteWay (f : File) (cy cz : Column) (es : List (Column × Column)) : Way where
  moments := (f.col, cy) :: (f.colWith (some (renameTo f.data)), cy)
    :: (f.rest, f.into cy (renameTo f.data)) :: es
  faults := [(f.col, cy), (f.colWith (some Ptrs.unset), cy)]
  last := f.into cz Ptrs.unset

/-- The data file of the destination is overwritten. -/
def overwriteData (f : File) (cy : Column) : Way := overwriteWay f cy cy []

/-- The meta file is overwritten, and the data file, in partition `e`, is deleted. -/
def overwriteMeta (f : File) (cy : Column) (e : Nat) : Way :=
  let cz := update cy e none
  overwriteWay f cy cz [(f.rest, f.into cz (renameTo f.data))]

/-- Condition 1.2: the file of the destination in partition `q` is hidden until
    it is deleted; `cz` and `es` as above. -/
def hideWay (f : File) (cy cz : Column) (q l : Nat) (es : List (Column × Column)) : Way :=
  let hid := update cy q (some (l, some (hiddenBy f.data)))
  { moments := (f.col, cy) :: (f.colWith (some (staleAt q)), cy)
      :: (f.colWith (some (staleAt q)), hid) :: (f.rest, f.into hid (staleAt q))
      :: (f.rest, f.into (update cy q none) (staleAt q)) :: es
    faults := [(f.col, cy), (f.colWith (some (staleAt q)), cy),
      (f.colWith (some Ptrs.unset), update cy q (some (l, some Ptrs.unset)))]
    last := f.into cz Ptrs.unset }

/-- A plain destination. -/
def hidePlain (f : File) (cy : Column) (e k : Nat) : Way :=
  hideWay f cy (update cy e none) e k []

/-- A partitioned destination: its meta file is hidden, and both its files are deleted. -/
def hideParted (f : File) (cy : Column) (q l e : Nat) : Way :=
  let cz := update (update cy q none) e none
  hideWay f cy cz q l [(f.rest, f.into cz (staleAt q))]

/-- Condition 2: the file of the destination in partition `q` becomes the meta
    file; `cz` and `es` as above. -/
def reuseWay (f : File) (cy cz : Column) (q l : Nat) (es : List (Column × Column)) : Way :=
  let ren := update cy q (some (l, some (renameTo f.data)))
  let unmoved := [(f.col, cy), (f.col, ren), (f.colWith (some (renameTo q)), ren)]
  { moments := unmoved ++ (f.rest, f.into ren (renameTo q)) :: es
    faults := unmoved
    last := f.into
      (update cz q (some (l, some (pointerTo f.data)))) (pointerTo q) }

/-- The data file of the destination is in the way, or becomes the meta file. -/
def reuseData (f : File) (cy : Column) (q l : Nat) : Way :=
  let ren := update cy q (some (l, some (renameTo f.data)))
  reuseWay f cy cy q l [(f.rest, f.into ren (pointerTo q))]

/-- The data file of the destination is elsewhere, and is deleted. -/
def reuseMeta (f : File) (cy : Column) (q l e : Nat) : Way :=
  let cz := update cy e none
  let ren := update cz q (some (l, some (renameTo f.data)))
  reuseWay f cy cz q l [(f.rest, f.into ren (renameTo q)), (f.rest, f.into ren (pointerTo q))]

section Exist

variable {existParent existMetaParent : Option Replica} {r' r'' : Inode}
  {out : Code Int} {em : Option Nat} {cs : List (Column × Column)}
  {Q : Sys → Prop} {b : Option Ptrs}

/-- The course of `code` from when the source is moved and the column of the target is `cy`. -/
abbrev Onward (N : Nat) (D P : Path → Prop) (s : Sys) (x y : Path) (f : File) (cy : Column)
    (m : Option Nat) (code : Code Int) (cs : List (Column × Column)) (Q : Sys → Prop) : Prop :=
  ∀ {t}, Stage N D P s x y f.data f.ino true f.rest cy m t →
    Course N D P s.disk x y code t cs [] Q

/-- The two pointers are set at the end. -/
theorem course_link (hE : Ends D x y) {q l : Nat} (hqo : q ≠ f.data)
    {v : Ptrs} (hq : cy q = some (l, b)) (hz : Zero out)
    (hout : Onward N D P s x y f (f.into (update cy q
      (some (l, some (pointerTo f.data)))) (pointerTo q)) m out cs Q) :
    Onward N D P s x y f (f.into cy v) m (do
        let _ ← put x f.data (pointerTo q)
        let _ ← put y q (pointerTo f.data)
        out)
      ((f.rest, f.into cy v) :: (f.rest, f.into cy (pointerTo q)) :: cs) Q := by
  intro t h
  refine .put_moved hE h (update_self ..) (leaves_bind fun _ => hz) (fun h' => ?_)
  rw [update_idem] at h'
  refine .put_target_anyway hE h' hqo ((update_of_ne hqo ..).trans hq) hz (fun h' => ?_)
  rw [update_comm hqo.symm] at h'
  exact hout h'

variable (hE : Ends D x y) (hA : f.Apart) (hpar : parent.bind Replica.inode = some r)
  (hh : s.disk.Holds y.tail f.data)

include hE hA hpar hh

/-- Condition 1.1 up to the move; `rest` is what is done then. -/
theorem course_overwrite {rest : Code Int}
    (hrest : overwriteExist x y f.data e em parent existParent out
      = checked (put x f.data (renameTo f.data)) (do
        let err ← renameReplica parent x y f.data
        if err ≠ 0 then
          let _ ← modify x f.data (fun a => { a with rename := none })
          return err
        else
          setMetaId x none
          rest))
    (hk : Onward N D P s x y f (f.into cy (renameTo f.data)) none rest cs Q)
    (h : Stage N D P s x y f.data f.ino false f.col cy m t) :
    Course N D P s.disk x y (overwriteExist x y f.data e em parent existParent out) t
      ((f.col, cy) :: (f.colWith (some (renameTo f.data)), cy) :: cs)
      [(f.col, cy), (f.colWith (some Ptrs.unset), cy)] Q := by
  rw [hrest]
  refine .put_source hE h hA.colWith_data (fun h' => ?_)
  rw [File.col, hA.set] at h'
  obtain ⟨u, hu, hback⟩ := h'.modify_source
    (g := fun a => { a with rename := none }) hE hA.colWith_data
  rw [hA.set] at hback
  refine .rename hE hpar h' hA.colWith_data ((h'.view.holds hE.newDir).mpr hh)
    (fun e he => ⟨u, ?_, rfl⟩) hback.view (fun h' => ?_)
  · rw [if_pos he, run_bind_some hu]
    rfl
  · rw [hA.leave] at h'
    exact .setMetaId hE h' hk

theorem course_overwrite_data (hem : em ≠ some f.data) (hz : Zero out)
    (hout : Onward N D P s x y f (overwriteData f cy).last none out cs Q)
    (h : Stage N D P s x y f.data f.ino false f.col cy m t) :
    Course N D P s.disk x y (overwriteExist x y f.data e em parent existParent out) t
      ((overwriteData f cy).moments ++ cs) (overwriteData f cy).faults Q := by
  refine course_overwrite hE hA hpar hh (by rw [overwriteExist, if_neg hem]) (fun h' => ?_) h
  refine .put_moved hE h' (update_self ..) hz (fun h' => ?_)
  rw [update_idem] at h'
  exact hout h'

theorem course_overwrite_meta (hepar : existParent.bind Replica.inode = some r') (heo : e ≠ f.data)
    (he : cy e = some (k, b)) (hz : Zero out)
    (hout : Onward N D P s x y f (overwriteMeta f cy e).last none out cs Q)
    (h : Stage N D P s x y f.data f.ino false f.col cy m t) :
    Course N D P s.disk x y (overwriteExist x y f.data e (some f.data) parent existParent out) t
      ((overwriteMeta f cy e).moments ++ cs) (overwriteMeta f cy e).faults Q := by
  refine course_overwrite hE hA hpar hh (by rw [overwriteExist, if_pos rfl]) (fun h' => ?_) h
  refine .unlink_target hE hepar h' heo ((update_of_ne heo ..).trans he) (fun h' => ?_)
  rw [update_comm heo.symm] at h'
  refine .put_moved hE h' (update_self ..) hz (fun h' => ?_)
  rw [update_idem] at h'
  exact hout h'

/-- Condition 1.2 up to where the file that was hidden is deleted; `rest` is what
    is done then. -/
theorem course_hide {q l : Nat}
    (hqpar : existParent.bind Replica.inode = some r') (hqo : q ≠ f.data)
    (hl : cy q = some (l, b)) {rest : Code Int}
    (hk : Onward N D P s x y f (f.into (update cy q none) (staleAt q))
      none rest ((f.rest, f.into (update cy q none) (staleAt q)) :: cs)
      Q)
    (h : Stage N D P s x y f.data f.ino false f.col cy m t) :
    Course N D P s.disk x y (checked (put x f.data (staleAt q)) <|
        checked (put y q (hiddenBy f.data)) do
          let err ← renameReplica parent x y f.data
          if err ≠ 0 then
            let _ ← modify x f.data (fun a => { a with stale := none })
            let _ ← modify y q (fun a => { a with hidden := none })
            return err
          else
            setMetaId x none
            orOut (simpleUnlinkNotPut existParent y q) out rest) t
      (hideWay f cy cy q l cs).moments (hideWay f cy cy q l cs).faults Q := by
  refine .put_source hE h hA.colWith_data (fun h' => ?_)
  rw [File.col, hA.set] at h'
  refine .put_target hE h' hqo hl (fun h' => ?_)
  obtain ⟨u, hu, hback⟩ := h'.modify_source
    (g := fun a => { a with stale := none }) hE hA.colWith_data
  rw [hA.set] at hback
  obtain ⟨w, hw, hback'⟩ := hback.modify_target
    (g := fun a => { a with hidden := none }) hE hqo (update_self ..)
  rw [update_idem] at hback'
  refine .rename hE hpar h' hA.colWith_data ((h'.view.holds hE.newDir).mpr hh)
    (fun e he => ⟨w, ?_, rfl⟩) hback'.view (fun h' => ?_)
  · rw [if_pos he, run_bind_some hu, run_bind_some hw]
    rfl
  · rw [hA.leave] at h'
    refine .setMetaId hE h' (fun h' => .unlink_target hE hqpar h' hqo
      ((update_of_ne hqo ..).trans (update_self ..))
      (fun h' => ?_))
    rw [update_comm hqo.symm, update_idem] at h'
    exact hk h'

theorem course_hide_plain (hepar : existParent.bind Replica.inode = some r') (heo : e ≠ f.data)
    (he : cy e = some (k, b)) (hz : Zero out)
    (hout : Onward N D P s x y f (hidePlain f cy e k).last none out cs Q)
    (h : Stage N D P s x y f.data f.ino false f.col cy m t) :
    Course N D P s.disk x y (hideExist x y f.data e none parent existParent existMetaParent out) t
      ((hidePlain f cy e k).moments ++ cs) (hidePlain f cy e k).faults Q := by
  refine course_hide hE hA hpar hh hepar heo he (fun h' => ?_) h
  refine .put_moved hE h' (update_self ..) hz (fun h' => ?_)
  rw [update_idem] at h'
  exact hout h'

theorem course_hide_parted (hepar : existParent.bind Replica.inode = some r')
    (hmpar : existMetaParent.bind Replica.inode = some r'') {q l : Nat}
    {c : Option Ptrs} (hqo : q ≠ f.data) (heo : e ≠ f.data) (heq : e ≠ q)
    (hq : cy q = some (l, c)) (he : cy e = some (k, b)) (hz : Zero out)
    (hout : Onward N D P s x y f (hideParted f cy q l e).last none out cs Q)
    (h : Stage N D P s x y f.data f.ino false f.col cy m t) :
    Course N D P s.disk x y
      (hideExist x y f.data e (some q) parent existParent existMetaParent out) t
      ((hideParted f cy q l e).moments ++ cs) (hideParted f cy q l e).faults
      Q := by
  refine course_hide hE hA hpar hh hmpar hqo hq (fun h' => ?_) h
  refine .unlink_target hE hepar h' heo ((update_of_ne heo ..).trans
      ((update_of_ne heq ..).trans he)) (fun h' => ?_)
  rw [update_comm heo.symm] at h'
  refine .put_moved hE h' (update_self ..) hz (fun h' => ?_)
  rw [update_idem] at h'
  exact hout h'

/-- Condition 2 up to the move; `rest` is what is done then. -/
theorem course_reuse {q l : Nat} (hqo : q ≠ f.data) (hl : cy q = some (l, b)) {rest : Code Int}
    (hk : Onward N D P s x y f (f.into (update cy q
        (some (l, some (renameTo f.data)))) (renameTo q)) (some q) rest
      ((f.rest, f.into (update cy q (some (l, some (renameTo f.data)))) (renameTo q)) :: cs) Q)
    (h : Stage N D P s x y f.data f.ino false f.col cy m t) :
    Course N D P s.disk x y (checked (put y q (renameTo f.data)) <|
        checked (put x f.data (renameTo q)) <|
        checked (renameReplica parent x y f.data) do
          setMetaId x q
          rest) t
      (reuseWay f cy cy q l cs).moments (reuseWay f cy cy q l cs).faults Q := by
  refine .put_target hE h hqo hl (fun h' => ?_)
  refine .put_source hE h' hA.colWith_data (fun h' => ?_)
  rw [File.col, hA.set] at h'
  refine .checkedRename hE hpar h' hA.colWith_data ((h'.view.holds hE.newDir).mpr hh) (fun h' => ?_)
  rw [hA.leave] at h'
  exact .setMetaId hE h' hk

theorem course_reuse_data {q l : Nat} (hem : em.getD e = q) (hsame : ¬ (em.isSome ∧ e ≠ f.data))
    (hqo : q ≠ f.data) (hq : cy q = some (l, b)) (hz : Zero out)
    (hout : Onward N D P s x y f (reuseData f cy q l).last (some q) out cs Q)
    (h : Stage N D P s x y f.data f.ino false f.col cy m t) :
    Course N D P s.disk x y (reuseExist x y f.data e em parent existParent out) t
      ((reuseData f cy q l).moments ++ cs) (reuseData f cy q l).faults Q := by
  subst hem
  refine course_reuse hE hA hpar hh hqo hq (fun h' => ?_) h
  rw [if_neg hsame]
  refine course_link hE hqo (update_self ..) hz (fun h' => ?_) h'
  rw [update_idem] at h'
  exact hout h'

theorem course_reuse_meta (hepar : existParent.bind Replica.inode = some r') {q l : Nat}
    {c : Option Ptrs} (hqo : q ≠ f.data) (heo : e ≠ f.data) (heq : e ≠ q) (hq : cy q = some (l, c))
    (he : cy e = some (k, b)) (hz : Zero out)
    (hout : Onward N D P s x y f (reuseMeta f cy q l e).last (some q) out cs Q)
    (h : Stage N D P s x y f.data f.ino false f.col cy m t) :
    Course N D P s.disk x y (reuseExist x y f.data e (some q) parent existParent out) t
      ((reuseMeta f cy q l e).moments ++ cs) (reuseMeta f cy q l e).faults
      Q := by
  refine course_reuse hE hA hpar hh hqo hq (fun h' => ?_) h
  rw [if_pos ⟨rfl, heo⟩]
  refine .unlink_target hE hepar h' heo ((update_of_ne heo ..).trans
      ((update_of_ne heq ..).trans he)) (fun h' => ?_)
  rw [update_comm heo.symm, update_comm heq.symm] at h'
  refine course_link hE hqo (update_self ..) hz (fun h' => ?_) h'
  rw [update_idem] at h'
  exact hout h'

end Exist

end Bodies

end Sfs
