import MultiLanes.SfsOwnProofs

/-! # SFS — the placement invariant

Mounts and calls keep to `placeContract`, so in every configuration of every run
`normal_dir_count` is the number of bits of `normal_dir_map`, they are partitions, and
the loops of `dispatch.c` end and choose what they are for. A loop of `local_dispatch`
runs on its own there: no other call moves the counter of `dispatch` meanwhile.

The threshold is kept when the runs are heedful, or when there are no more partitions
than it has.  `check_normal_dir` takes a mark that cannot be read for none, and then one
more mark is set than the threshold allows. -/

namespace Sfs

open InteractProg Function List

/-! ## Tasks -/

section Tasks

variable {N : Nat} {h : Prop} {U A I : Path → Prop} {x y z : Path} {s : Sys}
  {φ : SfsDentry → Prop} {p : Nat}

/-- No names. -/
abbrev noPath : Path → Prop := fun _ => False

/-- A dentry for itself. -/
theorem own_one (hz : U z) : Own U noPath noPath z :=
  ⟨nofun, nofun, hz, fun h => h⟩

theorem idles_none : Idles noPath s := nofun

theorem places_sfsLookup (hN : 0 < N) (hz : U z) :
    Places N h U (fun _ => True) (sfsLookup N z) (fun _ _ => True) := by
  have o := own_one hz
  have hname : ∀ b, Tamed N (· = z) any (instantiate z b) :=
    fun b => tamed_instantiate rfl b
  refine (o.setD (fun _ _ => trivial) (counted_fresh hN) (fun _ => rfl)
    (fun _ _ => idles_none) lasting_slotted nofun).bind fun _ => ?_
  refine (o.normalScan forall_mem_range).bind fun r => ?_
  split
  · exact .ret (fun _ _ => trivial) fun _ _ _ => trivial
  · exact ((hname _).places (fun w hw => hw ▸ hz) robust_true).bind fun _ =>
      .ret (fun _ _ => ⟨trivial, trivial⟩) fun _ _ _ => trivial

theorem Own.addRoots (o : Own U A I []) {ps : List Nat} (hps : ∀ p ∈ ps, p < N) (hφ : Lasting φ) :
    Places N h U (At I [] φ) (addRoots ps) (fun _ => At I [] φ) := by
  have htame : Tamed N A any (Sfs.addRoots ps) := by
    induction ps with
    | nil => trivial
    | cons p ps ih =>
      refine Asks.perform trivial fun i _ => ?_
      exact Asks.bind (tamed_dAddReplica (hps p (.head _)) _)
        fun _ _ => ih fun q hq => hps q (.tail _ hq)
  exact (o.tamed hφ htame).post fun _ _ _ hs => hs.2

/-- Each partition is checked once. -/
theorem Own.checkRoots (o : Own U A I []) {ps : List Nat} {e : Int} (hps : ∀ p ∈ ps, p < N)
    (hnd : ps.Nodup) : Places N h U (At I [] (fun d => ∀ q ∈ ps, d.normalDirMap q = false))
      (checkRoots ps e) (fun _ _ => True) := by
  have hlast : ∀ ps : List Nat, Lasting (fun d => ∀ q ∈ ps, d.normalDirMap q = false) :=
    fun ps => lasting_map fun m _ => ∀ q ∈ ps, m q = false
  induction ps generalizing e with
  | nil => exact .ret (o.robust_at (hlast [])).stable fun _ _ _ => trivial
  | cons p ps ih =>
    obtain ⟨hp, hnd'⟩ := nodup_cons.mp hnd
    refine Places.bind ?_ fun _ => ih (fun q hq => hps q (.tail _ hq)) hnd'
    refine o.checkNormalDir (hps p (.head _)) (hlast _) (hlast _)
      (fun hd => hd p (.head _)) (fun {d} hd q hq => ?_)
      fun hd q hq => hd q (.tail _ hq)
    have hqp : q ≠ p := fun h => hp (h ▸ hq)
    show update d.normalDirMap p true q = false
    rw [update_of_ne hqp]
    exact hd q (.tail _ hq)

theorem places_mountRoot (hN : 0 < N) (hroot : U []) :
    Places N h U (fun _ => True) (mountRoot N) (fun _ _ => True) := by
  have o := own_one hroot
  have hd : Counted N { SfsDentry.fresh with positive := true } :=
    .empty ((honest_fresh hN).withIds nofun nofun) rfl fun _ => rfl
  have hlast : Lasting (fun d => ∀ q ∈ range N, d.normalDirMap q = false) :=
    lasting_map fun m _ => ∀ q ∈ range N, m q = false
  refine (o.setD (fun _ _ => trivial) hd (fun _ => rfl)
    (fun _ _ => idles_none) hlast fun _ _ => rfl).bind fun _ => ?_
  refine (o.addRoots forall_mem_range hlast).bind fun _ => ?_
  exact o.checkRoots forall_mem_range nodup_range

theorem Own.simpleAddDirEntry (o : Own U A I z.tail) (hp : p < N) :
    Places N h U (At I z.tail (CanTurn N p)) (simpleAddDirEntry z p) (fun _ => Here I z.tail) := by
  refine (o.createReplicaDir hp (fun _ hs => hs.here) fun _ _ hs => hs).bind fun r => ?_
  split
  · exact o.ret
  · refine (o.rest tamed_deref).bind fun _ => ?_
    refine (o.rest tamed_findReplicaDentry).bind fun old => ?_
    split
    · exact o.ret
    · refine o.rest (R := any) ?_
      refine Asks.bind (tamed_getReplicaDentry fun _ => hp) fun _ _ =>
        Asks.perform trivial fun err _ => ?_
      exact Asks.bind (Asks.onlyIf fun _ => tamed_storeReplica hp _) fun _ _ => trivial

/-- The `int` is a partition that may be turned, if it is one. -/
def MayUse (N : Nat) (id : Int) (d : SfsDentry) : Prop :=
  ∀ p : Nat, id = p → CanTurn N p d

theorem lasting_mayUse {id : Int} : Lasting (MayUse N id) :=
  lasting_map fun m n => ∀ p : Nat, id = p → (m p = true ∨ n < spanThreshold N)

theorem Own.addInRange (o : Own U A I z.tail) (id : Int) : Places N h U (At I z.tail (MayUse N id))
      (inRange N id (Sfs.simpleAddDirEntry z)) (fun _ => Here I z.tail) := by
  unfold inRange
  split
  · next hid =>
    refine (o.simpleAddDirEntry (p := id.toNat) (by omega)).pre ?_
    rintro s - ⟨hidle, e, he, huse⟩
    exact ⟨hidle, e, he, huse id.toNat (by omega)⟩
  · exact (o.tamed (R := fun _ => False) lasting_mayUse tamed_oops).post fun _ _ _ hs => hs.1.elim

/-- The field is used when there are normal partitions, and is one of them. -/
theorem Own.firstNormalDirId (o : Own U A I z) {d : SfsDentry}
    (hd : Counted N d) (h0 : d.normalDirCount ≠ 0) :
    PlacesDir N h U (At I z (Filled d)) (firstNormalDirId z) (fun id => At I z (MayUse N id)) := by
  refine Contract.Triple.perform (f := .ret) placeDir_lawful
    (o.robust_at (lasting_filled d)).stable (fun _ _ _ => trivial)
    (T := fun id => At I z (MayUse N id)) ?_ fun id =>
      .ret (o.robust_at lasting_mayUse).stable fun _ _ hs => hs
  rintro s v t - ⟨hidle, e, he, hf⟩ ⟨⟨e', he', hv⟩, rfl⟩
  cases he.symm.trans he'
  obtain ⟨f, hfirst, hbit⟩ := hd.honest.first h0
  have hvf := hv f (hf.map.2.2.trans hfirst)
  refine ⟨hidle, e, he, fun p hp => .inl ?_⟩
  obtain rfl : f = p := by omega
  rw [hf.map.1]
  exact hbit

theorem Own.sfsMkdir (o : Own U A I z.tail) (hN : 0 < N) (hz : A z) :
    PlacesDir N h U (Here I z.tail) (sfsMkdir N z) (fun _ _ => True) := by
  refine (Places.lift (o.sfsD lasting_true)).bind fun d =>
    .given fun ⟨hd, _⟩ => ?_
  extract_lets add
  have hadd : ∀ id, PlacesDir N h U (At I z.tail (MayUse N id)) (add id) (fun _ _ => True) := by
    intro id
    refine (Places.lift (o.addInRange id)).bind fun err => ?_
    have hend : PlacesDir N h U (Here I z.tail) (pure err) (fun _ _ => True) :=
      .ret (o.stable (N := N)) fun _ _ _ => trivial
    split
    · exact hend
    · exact (Places.lift (o.rest (tamed_instantiate hz true))).bind fun _ =>
        .ret (o.stable (N := N)) fun _ _ _ => trivial
  split
  · next h0 =>
    -- without normal partitions any one may be turned
    refine PlacesDir.bind (Q := fun id => At I z.tail (MayUse N id)) ?_ hadd
    refine (Places.lift (o.tamed (lasting_filled d) (tamed_dispatch hN))).bind
      fun p => .given fun _ => ?_
    refine .ret (o.robust_at (lasting_filled d)).stable ?_
    rintro s - ⟨hidle, e, he, hf⟩
    refine ⟨hidle, e, he, fun _ _ => .inr ?_⟩
    rw [hf.map.2.1, h0]
    exact spanThreshold_pos hN
  · next h0 => exact (o.firstNormalDirId hd h0).bind hadd

/-- The dentries move with the names. -/
theorem places_moveD (hx : U x) (hy : U y) :
    Places N h U (fun s => s.Has x Idle) (moveD x y) (fun _ _ => True) := by
  refine Contract.Triple.perform (f := .ret) place_lawful
    (stable_has hx fun _ _ => Idle.filled) (T := fun _ _ => True) ?_
    (fun _ _ _ _ _ _ => trivial) fun _ =>
      .ret (fun _ _ => trivial) fun _ _ _ => trivial
  rintro s - ⟨e, he, hi⟩
  refine ⟨hx, hy, fun d hd => ?_⟩
  rw [Option.mem_unique hd he]
  exact hi

/-- A name in a directory, and the directory. -/
theorem own_name (hz : z ≠ []) : Own (fun w => w = z.tail ∨ w = z) (· = z) noPath z.tail :=
  ⟨fun _ hw => .inr hw, nofun, .inl rfl, (tail_ne_self hz).symm⟩

/-- The names of a rename; the source is a file, and so no directory that is worked in. -/
theorem own_names {d : SfsDentry} (hy : s.NameIn y) (hd : s.mem x = some d)
    (hfile : d.replicaId ≠ none) :
    Own (Op.rename x y).Holds (fun w => w = x ∨ w = y) (· = x) y.tail where
  names w hw := hw.imp .inr .inr
  idle w hw := .inl hw
  dir := .inr (.inl rfl)
  apart := by
    obtain ⟨hne, e, he, -, hdir⟩ := hy
    rintro (hx | hself)
    · rw [hx] at he
      rw [Option.mem_unique hd he] at hfile
      exact hfile hdir
    · exact tail_ne_self hne hself.symm

/-- What the contract asks of a task, it does. -/
theorem Task.guarded {k : Task} (hN : 0 < N) (hi : PlaceInv N h s) (hk : k.Ready s) :
    (placeDirContract N h).Guarded (placeDirEnv N h) k.Holds (fun _ _ => True) (k.code N) s := by
  have hhere : ∀ {z : Path}, s.NameIn z → Here noPath z.tail s :=
    fun hz => ⟨idles_none, hz.2.imp fun _ hd => ⟨hd.1, trivial⟩⟩
  cases k with
  | mount =>
    exact Places.lift (places_mountRoot (U := Task.mount.Holds) hN rfl) s hi trivial
  | call o =>
    obtain ⟨hplace, hr⟩ := hk
    cases o with
    | lookup z =>
      exact (Places.lift (places_sfsLookup hN (.inr rfl))) s hi trivial
    | create z =>
      exact ((Places.lift ((own_name hr.1.1).sfsCreate hN rfl
        lasting_true)).post fun _ _ _ _ => trivial) s hi (hhere hr.1)
    | mkdir z =>
      exact (own_name hr.1.1).sfsMkdir hN rfl s hi (hhere hr.1)
    | link x y =>
      exact ((Places.lift ((own_name hr.2.1.1).sfsLink hN rfl
        lasting_true)).post fun _ _ _ _ => trivial) s hi (hhere hr.2.1)
    | rename x y =>
      obtain ⟨-, -, hy, ⟨d, hd, -, hfile⟩, -⟩ := hr
      have o := own_names hy hd hfile
      have hidle : Here (· = x) y.tail s := by
        refine ⟨?_, (hhere hy).2⟩
        rintro _ rfl
        exact ⟨d, hd, .inl hfile⟩
      refine Places.lift (U := (Task.call (.rename x y)).Holds)
        (Places.bind (o.sfsRenameOther (.inl rfl) (.inr rfl)) fun err => ?_) s hi hidle
      split
      · exact .ret o.stable fun _ _ _ => trivial
      · refine Places.bind ((places_moveD (.inl (.inr rfl))
          (.inr (.inr rfl))).pre fun _ _ hs => hs.1 x rfl) fun _ => ?_
        exact .ret (fun _ _ => trivial) fun _ _ _ => trivial
    | unlink z => exact hplace.elim
    | rmdir z => exact hplace.elim
    | renameDir x y => exact hplace.elim

end Tasks

/-! ## Every configuration -/

section Configurations

variable {N : Nat} {h : Prop} {s : Sys} {x : Path} {d : SfsDentry}

theorem PlaceInv.blank (hs : ∀ x, s.mem x = none)
    (hfew : h → ∀ x, (range N).countP (s.disk.marked x) ≤ spanThreshold N) :
    PlaceInv N h s where
  counted {x _} hd := by cases (hs x).symm.trans hd
  truthful _ {x _} hd := by cases (hs x).symm.trans hd
  few := hfew

theorem Unmarked.inv (hs : Unmarked s) : PlaceInv N h s := by
  refine .blank hs.1 fun _ x => ?_
  have hnone : s.disk.marked x = fun _ => false := funext (hs.2.1 x)
  rw [hnone, countP_false]
  exact Nat.zero_le _

theorem forget_mem_of_ne {w : Path} (hw : w ≠ x) :
    (s.forget x).mem w = s.mem w := update_of_ne hw ..

/-- The contract holds for all that the machine does. -/
theorem place_fits (hN : 0 < N) : (placeDirContract N h).Fits (placement N h) Unmarked where
  lawful := placeDir_lawful
  symm hap x hx hU := hap x hU hx
  init hs := Unmarked.inv hs
  starts hi hw := by
    obtain ⟨k, hk, rfl⟩ := hw
    exact Task.guarded hN hi hk
  drifts hi hd := by
    obtain ⟨x, hx, rfl⟩ := hd
    refine ⟨⟨fun hd => hi.counted (forget_some hd).2,
      fun hh _ _ hd => hi.truthful hh (forget_some hd).2, hi.few⟩, fun U hU => ?_⟩
    refine ⟨fun w hw => .same (forget_mem_of_ne ?_), fun _ _ _ hm => hm⟩
    rintro rfl
    exact hx U hU hw
  boots hi hb := by
    cases hb
    exact .blank (fun _ => rfl) hi.few

/-- Bits that are not set are not counted. -/
theorem countP_range_of_lt {f : Nat → Bool} {n : Nat} (hN : N ≤ n) (hf : ∀ p, f p = true → p < N) :
    (range n).countP f = (range N).countP f := by
  obtain ⟨k, rfl⟩ := Nat.exists_eq_add_of_le hN
  rw [range_add, countP_append]
  refine Nat.add_eq_left.mpr (countP_eq_zero.mpr fun q hq hbit => ?_)
  obtain ⟨j, -, rfl⟩ := mem_map.mp hq
  exact absurd (hf _ hbit) (by omega)

/-- What is said of a directory: the count is that of the bits of the 64-bit map,
    they are partitions, and the loops of `local_dispatch` and
    `select_normal_dir_rr` end with the partition they look for. -/
structure WellPlaced (N : Nat) (s : Sys) (x : Path) (d : SfsDentry) : Prop where
  count : d.normalDirCount = (range 64).countP d.normalDirMap
  below : ∀ p, d.normalDirMap p = true → p < N
  dispatch : ∃ r t, run sysHandler (localDispatch N x) s = some (r, t) ∧ r < N
    ∧ if d.normalDirCount < spanThreshold N then d.normalDirMap r = false
      else d.normalDirMap r = true
  select : ∃ m t, run sysHandler (selectNormalDirRr N x) s = some (m, t)
    ∧ if d.normalDirCount = 0 then m = none else ∃ r, m = some r ∧ d.normalDirMap r = true

theorem Counted.wellPlaced (hN : 0 < N) (hN' : N ≤ 64) (hc : Counted N d)
    (hd : s.mem x = some d) : WellPlaced N s x d where
  count := hc.count.trans (countP_range_of_lt hN' hc.honest.map).symm
  below := hc.honest.map
  dispatch := by
    obtain ⟨r, l, c, hr, -, -, hchoice, hcalm⟩ := calm_choose hN (by omega) hd
      hc.honest.counter hc.count
    exact ⟨r, _, hcalm.made.run, hr, hchoice⟩
  select := by
    by_cases h0 : d.normalDirCount = 0
    · refine ⟨none, s, ?_, by rw [if_pos h0]⟩
      have hcalm : Calm (selectNormalDirRr N x) s none s := by
        refine ⟨rfl, fun e I G Q => ?_⟩
        rw [selectNormalDirRr, does_sfsD]
        simp [hd, h0]
      exact hcalm.made.run
    · obtain ⟨r, -, hr, -, hcalm⟩ := calm_selectNormal hd hc.honest.counter hc.count h0
      exact ⟨some r, _, hcalm.made.run, by rw [if_neg h0]; exact ⟨r, rfl, hr⟩⟩

/-- The bits of a directory are marks, and there are few. -/
theorem PlaceInv.few_bits (hi : PlaceInv N h s) (hd : s.mem x = some d)
    (hdir : d.OfDir) (hcase : h ∨ N ≤ 20) :
    d.normalDirCount ≤ spanThreshold N := by
  have hc := hi.counted hd
  rw [hc.count]
  rcases hcase with hh | hN
  · refine le_trans (countP_mono_left fun p _ hp => ?_) (hi.few hh x)
    exact hi.truthful hh hd hdir.2 p hp
  · calc (range N).countP d.normalDirMap ≤ (range N).length := countP_le_length
      _ = N := length_range
      _ = spanThreshold N := (Nat.min_eq_right hN).symm

/-- In every configuration of every run all is well with the directories; and the threshold
    is kept if the runs are heedful, or if there are not more partitions than it says. -/
theorem placement_kept (hN : 1 ≤ N) (hN' : N ≤ 64) {c : Config DirSig Sys (Path → Prop) Int}
    (hc : (placement N h).Runs Unmarked c) (hd : c.state.mem x = some d) (hdir : d.OfDir) :
    WellPlaced N c.state x d ∧ (h ∨ N ≤ 20 → d.normalDirCount ≤ spanThreshold N) := by
  have hi : PlaceInv N h c.state := (place_fits hN).inv hc
  exact ⟨(hi.counted hd).wellPlaced hN hN' hd, hi.few_bits hd hdir⟩

end Configurations

/-! ## Concrete runs -/

instance {N : Nat} {q : SfsReq} {s : Sys} : Decidable (Heed N q s) := by
  cases q with
  | setNormal x p =>
    exact inferInstanceAs (Decidable (s.Has x (fun d =>
      ∀ q < N, s.disk.marked x q = true → d.normalDirMap q = true)))
  | rename x y p =>
    exact inferInstanceAs (Decidable (∀ b, s.disk.node x p ≠ some (.dir b)))
  | _ => exact .isTrue trivial

/-- `dirHandler`, as far as it is heedful. -/
def placeHandler (N : Nat) (h : Prop) [Decidable h] (lost : Path → Nat → Bool) : Handler DirSig Sys
  | .sfs q, s => if h → Heed N q s then dirHandler 0 lost (.sfs q) s else none
  | q, s => dirHandler 0 lost q s

/-- A task that runs alone. -/
def Sys.done (s : Sys) (N : Nat) (h : Prop) [Decidable h]
    (lost : Path → Nat → Bool) (k : Task) : Sys :=
  ((run (placeHandler N h lost) (k.code N) s).map Prod.snd).getD s

/-- The machine is restarted, and SFS mounted. -/
def Sys.again (s : Sys) (N : Nat) (h : Prop) [Decidable h] (lost : Path → Nat → Bool) : Sys :=
  { s with mem := fun _ => none }.done N h lost .mount

/-- The calls are ready one after the other. -/
def Sys.AllPlaced (N : Nat) (h : Prop) [Decidable h] : Sys → List Op → Prop
  | _, [] => True
  | s, o :: os => (o.Places ∧ o.Ready s) ∧ AllPlaced N h (s.done N h noneLost (.call o)) os

section Concrete

variable {N : Nat} {h : Prop} [Decidable h] {lost : Path → Nat → Bool} {s : Sys}

instance {o : Op} : Decidable o.Places :=
  match o with
  | .lookup _ | .create _ | .mkdir _ | .link _ _ | .rename _ _ =>
    .isTrue trivial
  | .unlink _ | .rmdir _ | .renameDir _ _ => .isFalse fun h => h

instance decidableAllPlaced : ∀ (os : List Op) (s : Sys),
    Decidable (s.AllPlaced N h os)
  | [], _ => .isTrue trivial
  | o :: os, s =>
    have := decidableAllPlaced os (s.done N h noneLost (.call o))
    inferInstanceAs (Decidable ((o.Places ∧ o.Ready s)
      ∧ Sys.AllPlaced N h (s.done N h noneLost (.call o)) os))

theorem placeDirEnv_of_handler {q : DirReq} {a : q.Ans} {t : Sys}
    (hq : placeHandler N h lost q s = some (a, t)) :
    placeDirEnv N h q s a t := by
  cases q with
  | sfs q =>
    rw [placeHandler] at hq
    split at hq
    · next hh =>
      have henv : dirEnv (.sfs q) s a t := dirEnv_of_dirHandler hq
      exact ⟨henv, hh⟩
    · cases hq
  | firstNormal x =>
    rw [placeHandler] at hq
    · exact dirEnv_of_dirHandler hq
    · exact nofun
  | shrink x =>
    rw [placeHandler] at hq
    · exact dirEnv_of_dirHandler hq
    · exact nofun
  | moveTree x y =>
    rw [placeHandler] at hq
    · exact dirEnv_of_dirHandler hq
    · exact nofun

theorem runs_done (lost : Path → Nat → Bool) {k : Task}
    (hs : (placement N h).Runs Unmarked (.idle s)) (hk : k.Ready s) :
    (placement N h).Runs Unmarked (.idle (s.done N h lost k)) := by
  unfold Sys.done
  cases hr : run (placeHandler N h lost) (k.code N) s with
  | none => exact hs
  | some r =>
    refine hs.alone ⟨k, hk, rfl⟩ (a := r.1) ?_
    refine (outcome_env.mpr hr).widen fun q s x t hq => ?_
    exact placeDirEnv_of_handler hq

theorem runs_again (lost : Path → Nat → Bool) (hs : (placement N h).Runs Unmarked (.idle s)) :
    (placement N h).Runs Unmarked (.idle (s.again N h lost)) :=
  runs_done lost (hs.step (.boot rfl)) fun _ => rfl

theorem runs_all (os : List Op)
    (hs : (placement N h).Runs Unmarked (.idle s)) (ho : s.AllPlaced N h os) :
    (placement N h).Runs Unmarked
      (.idle (os.foldl (fun s o => s.done N h noneLost (.call o)) s)) := by
  induction os generalizing s with
  | nil => exact hs
  | cons o os ih => exact ih (runs_done noneLost hs ho.1) ho.2

end Concrete

/-- Nothing is mounted, on partitions without a mark. -/
def stopped : Sys := ⟨fun _ => none, unmarked, 0⟩

theorem stopped_unmarked : Unmarked stopped := by
  refine ⟨fun _ => rfl, fun x p => ?_, rfl⟩
  by_cases hx : x = []
  · simp [Disk.marked, stopped, unmarked, hx]
  · simp [Disk.marked, stopped, unmarked, hx]

/-- A file is created in the root. -/
def addFile (k : Nat) : List Op := [.lookup [k], .create [k]]

/-- Twenty files. -/
def twentyFiles : List Op := (range 20).flatMap addFile

/-- The mark of the root in the first partition. -/
def firstMark : Path → Nat → Bool := fun x p => decide (x = [] ∧ p = 0)

/-- Twenty files on 22 partitions; at the next mount the first mark cannot be
    read; one more file, and one more mount: the root is normal in 21. -/
theorem threshold_passed : ∃ c, (placement 22 False).Runs Unmarked c ∧ c.state.Has [] (fun d =>
        d.OfDir ∧ spanThreshold 22 < d.normalDirCount) := by
  have hinit : (placement 22 False).Runs Unmarked (.idle stopped) :=
    .init stopped_unmarked
  have hfull := runs_all twentyFiles (runs_again noneLost hinit) (by decide +kernel)
  have hover := runs_all (addFile 20) (runs_again firstMark hfull) (by decide +kernel)
  exact ⟨_, runs_again noneLost hover, by decide +kernel⟩

/-- A heedful run: a file on two partitions. -/
theorem one_file_placed : ∃ c d, (placement 2 True).Runs Unmarked c ∧ c.state.mem [] = some d
      ∧ d.OfDir ∧ d.normalDirCount = 1 ∧ WellPlaced 2 c.state [] d
      ∧ d.normalDirCount ≤ spanThreshold 2 := by
  have hinit : (placement 2 True).Runs Unmarked (.idle stopped) :=
    .init stopped_unmarked
  have hrun := runs_all (addFile 0) (runs_again noneLost hinit) (by decide +kernel)
  obtain ⟨d, hd, hdir, hcount⟩ : Sys.Has
      ((addFile 0).foldl (fun s o => s.done 2 True noneLost (.call o))
        (stopped.again 2 True noneLost)) []
      (fun d => d.OfDir ∧ d.normalDirCount = 1) := by decide +kernel
  obtain ⟨hwell, hfew⟩ := placement_kept (by decide) (by decide) hrun hd hdir
  exact ⟨_, d, hrun, hd, hdir, hcount, hwell, hfew (Or.inl trivial)⟩

end Sfs
