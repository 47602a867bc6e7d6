import MultiLanes.SfsRemovalProofs

/-! # SFS — rmdir and the name space that is seen

A rmdir is to remove a directory or to leave it as it was.  What is seen is what a
lookup finds after a mount (`look`).  `RmdirAtomic` is the property of one call in one
state, whatever the partitions refuse.

The code removes the replicas of the directory one by one and leaves the one in the
partition `first_normal_dir_id` of the parent for the end, since the parent is normal
there.  But `check_normal_dir` records the normal partition that it has seen last, and
`sfs_mkdir` put the directory where another one was recorded: then all replicas may be
gone with an error.  `Covered` says what is left in view, and `rmdirAtomic_iff` that it
is what decides. -/

namespace SfsAtomic

open InteractProg Sfs Option

variable {N : Nat} {D : Path → Prop} {E : Surroundings} {s t u : Sys}
  {x y z Z : Path} {dx dz dZ : SfsDentry} {a c p q f : Nat} {d d' : Disk}
  {S : List Nat}

/-! ## What is seen -/

/-- What a lookup has found. -/
inductive Sight
  | nothing
  | dir
  | file (p i : Nat)
deriving DecidableEq, Repr

def sight (dx : SfsDentry) : Sight :=
  if dx.positive then
    match dx.replicaId with
    | none => .dir
    | some p =>
      match (dx.replicas p).bind Replica.inode with
      | some (.file i) => .file p i
      | _ => .nothing
  else .nothing

/-- What is found at `x` after a mount; `none` when the walk fails. -/
def look (N : Nat) (d : Disk) (x : Path) : Option Sight :=
  match run sysHandler (walk N x) (booted d) with
  | none => none
  | some (err, t) => if err = 0 then (t.mem x).map sight else none

theorem look_of_still (h : Still (walk N x) (booted d) 0 t)
    (hx : t.mem x = some dx) : look N d x = some (sight dx) := by
  rw [look, still_run h]
  show (t.mem x).map sight = _
  rw [hx]
  rfl

theorem look_passable (h : Passable N d Z) (hN : 0 < N) : look N d Z = some .dir := by
  obtain ⟨t, dz, hwalk, hmem, hR, hid⟩ := walk_dirSeen h hN
  rw [look_of_still hwalk hmem, sight, if_pos hR.positive, hid]

/-- A name that no normal partition of the parent has is not seen. -/
theorem look_hidden (h : Passable N d Z) (hN : 0 < N)
    (hex : ¬ ShownAt d (c :: Z)) : look N d (c :: Z) = some .nothing := by
  obtain ⟨t, dZ, rfl, hmem, hR, hwalk⟩ := walk_entry (c := c) h hN
  exact look_of_still (hwalk (sfsLookup_notShown hex hmem hR)) one_mem

theorem look_file {i : Nat} (w : World N D d) (hplain : Plain d) (hN : 0 < N)
    (hD : D Z) (hn : d.node (c :: Z) p = some (.file i)) :
    look N d (c :: Z) = some (.file p i) := by
  obtain ⟨t, dZ, rfl, hmem, hR, hwalk⟩ := walk_entry (c := c) (w.passable hD) hN
  have hlook := look_of_still (hwalk (still_lookup_file w hplain hmem hR hn)) one_mem
  rw [hlook]
  simp [sight, SfsDentry.fill, setReplica_self, Disk.slot, hn, Obj.inode]

/-- What is seen of a name goes by what it is in the partitions. -/
theorem look_congr (w : World N D d) (hplain : Plain d) (w' : World N D d') (hplain' : Plain d')
    (hN : 0 < N) (hD : D Z) (hn : ∀ p, d'.node (c :: Z) p = d.node (c :: Z) p) :
    look N d' (c :: Z) = look N d (c :: Z) := by
  by_cases hc : D (c :: Z)
  · rw [look_passable (w'.passable hc) hN, look_passable (w.passable hc) hN]
  · by_cases hex : ∃ p, d.node (c :: Z) p ≠ none
    · obtain ⟨p, hp⟩ := hex
      obtain ⟨o, ho⟩ := ne_none_iff_exists'.mp hp
      obtain ⟨i, rfl⟩ := w.file_of_not hc ho
      rw [look_file w hplain hN hD ho, look_file w' hplain' hN hD ((hn p).trans ho)]
    · have hno : ¬ ShownAt d (c :: Z) := fun ⟨p, _, hp⟩ => hex ⟨p, hp⟩
      have hno' : ¬ ShownAt d' (c :: Z) :=
        fun ⟨p, _, hp⟩ => hex ⟨p, hn p ▸ hp⟩
      rw [look_hidden (w'.passable hD) hN hno', look_hidden (w.passable hD) hN hno]

/-! ## The property -/

/-- After a rmdir of `z`: it is gone from all partitions, or there is an error
    and it is seen as before, with all that is in it. -/
def Atomic (N : Nat) (s : Sys) (z : Path) (err : Int) (t : Sys) : Prop :=
  (err = 0 ∧ ∀ p, t.disk.node z p = none) ∨ (err ≠ 0 ∧ look N t.disk z = some .dir
        ∧ ∀ c, look N t.disk (c :: z) = look N s.disk (c :: z))

/-- A rmdir of `z` in `s` is atomic whatever is refused, and succeeds when all
    replicas are empty and none refuses. -/
def RmdirAtomic (N : Nat) (s : Sys) (z : Path) : Prop :=
  Must harsh.dirEnv ((Op.rmdir z).code N) s (Atomic N s z)
    ∧ ((∀ c p, s.disk.node (c :: z) p = none) →
        Must mild.dirEnv ((Op.rmdir z).code N) s (fun err _ => err = 0))

/-- `q` is the first partition where the directory has entries. -/
def FirstFull (d : Disk) (z : Path) (q : Nat) : Prop :=
  (∃ c, d.node (c :: z) q ≠ none) ∧ ∀ p < q, ∀ c, d.node (c :: z) p = none

/-- The partition that the parent has recorded has a replica; or, from the first
    replica with entries on, there is one where the parent is normal. -/
def Covered (s : Sys) (z : Path) : Prop :=
  s.Has z.tail fun dZ => ∃ f, dZ.firstNormalDirId = some f
    ∧ (s.disk.Holds z f ∨ ∃ q r, FirstFull s.disk z q ∧ q ≤ r
        ∧ s.disk.Holds z r ∧ s.disk.node z.tail r = some (.dir true))

/-! ## In a sane state -/

section Sane

theorem emptyDir_of_none (h : ∀ c, d.node (c :: z) p = none) : d.emptyDir z p = true := by
  rw [Disk.emptyDir, List.all_eq_true]
  intro c _
  rw [h c]
  rfl

theorem passable_drop (h : Passable N d Z) : Passable N (d.drop (a :: Z) S) Z := by
  refine h.congr fun hY p => Disk.drop_of_ne ?_
  rintro rfl
  exact absurd hY.length_le (by simp)

/-- A replica is left where the parent is normal: the directory is seen, and all
    that was in it. -/
theorem atomic_of_left (h : Sane N D s) (hN : 0 < N) (hD : D (a :: Z))
    (hS : ∀ p ∈ S, s.disk.emptyDir (a :: Z) p = true) (hq : q ∉ S)
    (hn : s.disk.node Z q = some (.dir true)) (hz : s.disk.Holds (a :: Z) q)
    {err : Int} (herr : err ≠ 0) :
    Atomic N s (a :: Z) err (s.drop (a :: Z) dz S) := by
  have hentry := h.no_entries hS
  have w : World N D (s.disk.drop (a :: Z) S) := h.world.drop hentry hq hn hz
  refine .inr ⟨herr, look_passable (w.passable hD) hN, fun c => ?_⟩
  exact look_congr h.world h.plain w (h.plain.drop hentry) hN hD
    fun p => Disk.drop_of_ne (tail_ne c _).symm

/-- The directory is gone. -/
theorem atomic_done (w : World N D s.disk) (hD : D z) (hall : ∀ p, s.disk.Holds z p → p ∈ S) :
    Atomic N s z 0 (s.one z dx (s.disk.drop z S)) :=
  .inl ⟨rfl, w.drop_gone hD hall⟩

/-- A partition with entries is not done. -/
theorem not_mem_of_full (h : Sane N D s) (hS : ∀ p ∈ S, s.disk.emptyDir z p = true)
    (hq : s.disk.node (c :: z) q ≠ none) : q ∉ S :=
  fun hmem => hq (h.no_entries hS q hmem c)

/-- What is covered is never lost from view. -/
theorem rmdired_atomic {err : Int} (hr : Rmdired E N s (a :: Z) dz f dx err t)
    (h : Sane N D s) (hN : 0 < N) (hD : D (a :: Z))
    (hf : s.disk.node Z f = some (.dir true))
    (hcov : s.disk.Holds (a :: Z) f ∨ ∃ q r, FirstFull s.disk (a :: Z) q ∧ q ≤ r
      ∧ s.disk.Holds (a :: Z) r ∧ s.disk.node Z r = some (.dir true)) :
    Atomic N s (a :: Z) err t := by
  cases hr with
  | done _ hall _ => exact atomic_done h.world hD hall
  | kept herr hS hn _ =>
    exact atomic_of_left h hN hD hS.empty hS.keep_not_mem hf hn herr
  | @stopped m S _ herr hS hm _ _ =>
    rcases hcov with hn | ⟨q, r, ⟨⟨c, hc⟩, -⟩, hqr, hr, hnormal⟩
    · exact atomic_of_left h hN hD hS.empty hS.keep_not_mem hf hn herr
    · -- the loop has not come further than the entries
      by_cases hqf : q = f
      · obtain ⟨o, ho⟩ := ne_none_iff_exists'.mp hc
        exact atomic_of_left h hN hD hS.empty hS.keep_not_mem hf (hqf ▸ h.world.held ho) herr
      · have hmq : m ≤ q := by
          by_contra hlt
          obtain ⟨o, ho⟩ := ne_none_iff_exists'.mp hc
          exact not_mem_of_full h hS.empty hc ((hS.mem_iff q).mpr
            ⟨Nat.lt_of_not_le hlt, hqf, h.world.held ho⟩)
        exact atomic_of_left h hN hD hS.empty (hS.not_mem (le_trans hmq hqr)) hnormal hr herr
  | lost hS hno =>
    obtain ⟨q, r, ⟨⟨c, hc⟩, -⟩, -⟩ := hcov.resolve_left hno
    obtain ⟨o, ho⟩ := ne_none_iff_exists'.mp hc
    have hq : s.disk.Holds (a :: Z) q := h.world.held ho
    have hqf : q ≠ f := fun hqf => hno (hqf ▸ hq)
    exact absurd ((hS.mem_iff q).mpr ⟨h.world.within ho, hqf, hq⟩) (not_mem_of_full h hS.empty hc)

theorem mild_obeys (r : SfsReq) : mild.Obeys r := fun h => h

/-- In surroundings that do what is legal, only entries stop the loop. -/
theorem balks_full (hb : mild.Balks d z p) : ∃ c, d.node (c :: z) p ≠ none := by
  by_contra hno
  have hnone : ∀ c, d.node (c :: z) p = none := by
    intro c
    by_contra hc
    exact hno ⟨c, hc⟩
  rcases hb with he | hobey
  · cases he.symm.trans (emptyDir_of_none hnone)
  · exact hobey (mild_obeys _)

/-- Without a replica in the recorded partition: either there are no entries, or
    the loop stops at the first ones, and what was before them is gone. -/
theorem rmdired_bare {err : Int} (hr : Rmdired mild N s (a :: Z) dz f dx err t)
    (h : Sane N D s) (hno : ¬ s.disk.Holds (a :: Z) f) :
    err ≠ 0 ∧ ((∀ c p, s.disk.node (c :: a :: Z) p = none)
      ∨ ∃ m S, FirstFull s.disk (a :: Z) m ∧ Upto s (a :: Z) f m S ∧ t = s.drop (a :: Z) dz S) := by
  -- what was passed has no entries
  have hbefore : ∀ {m S c p}, Upto s (a :: Z) f m S → p < m →
      s.disk.node (c :: a :: Z) p = none := by
    intro m S c p hS hp
    by_contra hc
    obtain ⟨o, ho⟩ := ne_none_iff_exists'.mp hc
    have hheld : s.disk.Holds (a :: Z) p := h.world.held ho
    have hpf : p ≠ f := fun hpf => hno (hpf ▸ hheld)
    exact not_mem_of_full h hS.empty hc ((hS.mem_iff p).mpr ⟨hp, hpf, hheld⟩)
  cases hr with
  | done hn _ _ => exact absurd hn hno
  | kept _ _ hn _ => exact absurd hn hno
  | @stopped m S _ herr hS _ _ hb =>
    exact ⟨herr, .inr ⟨m, S, ⟨balks_full hb, fun p hp c => hbefore hS hp⟩, hS, rfl⟩⟩
  | lost hS _ =>
    refine ⟨by decide, .inl fun c p => ?_⟩
    by_contra hc
    obtain ⟨o, ho⟩ := ne_none_iff_exists'.mp hc
    exact hc (hbefore hS (h.world.within ho))

/-- What decides, in a sane state. -/
theorem rmdirAtomic_iff_of_sane (h : Sane N D s) (hN : 0 < N)
    (hr : (Op.rmdir z).Ready s) : RmdirAtomic N s z ↔ Covered s z := by
  obtain ⟨⟨hne, dZ, hZ, -⟩, dz, hz, hdir⟩ := hr
  obtain ⟨a, Z, rfl⟩ := List.exists_cons_of_ne_nil hne
  have hD : D (a :: Z) := (h.dir_iff hz).mp hdir
  obtain ⟨-, f, hf, hnode⟩ := h.first hD hZ
  have hs := h.shrink (a :: Z)
  have hmust : ∀ E : Surroundings, Must E.dirEnv ((Op.rmdir (a :: Z)).code N) s
      (Rmdired E N (s.shrink (a :: Z)) (a :: Z) dz f { dz.clean with positive := false }) :=
    fun E => must_rmdirCall h hD hz hZ hf
  constructor
  · rintro ⟨hatomic, hempty⟩
    refine ⟨dZ, hZ, f, hf, or_iff_not_imp_left.mpr fun hno => ?_⟩
    obtain ⟨err, t, hout, hrm⟩ := (hmust mild).outcome
    obtain ⟨herr, hnone | ⟨m, S, hfull, hS, rfl⟩⟩ := rmdired_bare hrm hs hno
    · exact absurd ((hempty hnone).sure err t hout) herr
    · rcases hatomic.sure err _ (hout.widen fun _ _ _ _ => harsh_of_mild) with
        ⟨h0, -⟩ | ⟨-, hseen, -⟩
      · exact absurd h0 herr
      · by_contra hcov
        have hhid : ¬ ShownAt (s.disk.drop (a :: Z) S) (a :: Z) := by
          rintro ⟨p, hp, hz'⟩
          obtain ⟨o, ho⟩ := ne_none_iff_exists'.mp hz'
          obtain ⟨ho', hpS⟩ := Disk.drop_some ho
          obtain ⟨b, rfl⟩ := h.world.dir_of hD ho'
          have hpm : m ≤ p := by
            by_contra hlt
            have hpf : p ≠ f := fun hpf => hno ⟨b, hpf ▸ ho'⟩
            exact hpS ⟨rfl, (hS.mem_iff p).mpr ⟨Nat.lt_of_not_le hlt, hpf, b, ho'⟩⟩
          exact hcov ⟨m, p, hfull, hpm, ⟨b, ho'⟩, (Disk.drop_some hp).1⟩
        have hpass := h.world.passable (h.world.up hD)
        have hlook :=
          look_hidden (passable_drop (a := a) (S := S) hpass) hN hhid
        cases hlook.symm.trans hseen
  · rintro ⟨dZ', hZ', f', hf', hcov⟩
    cases hZ.symm.trans hZ'
    cases hf.symm.trans hf'
    refine ⟨(hmust harsh).mono fun err t hrm => ?_,
      fun hnone => (hmust mild).mono fun err t hrm => ?_⟩
    · show Atomic N (s.shrink (a :: Z)) (a :: Z) err t
      exact rmdired_atomic hrm hs hN hD hnode hcov
    have hheld : s.disk.Holds (a :: Z) f := by
      refine hcov.resolve_right ?_
      rintro ⟨q, r, ⟨⟨c, hc⟩, -⟩, -⟩
      exact hc (hnone c q)
    have hnot : ∀ {p}, ¬ mild.Balks s.disk (a :: Z) p := by
      intro p hb
      obtain ⟨c, hc⟩ := balks_full hb
      exact hc (hnone c p)
    cases hrm with
    | done _ _ _ => rfl
    | stopped _ _ _ _ hb => exact absurd hb hnot
    | kept _ _ _ hb => exact absurd hb hnot
    | lost _ hno => exact absurd hheld hno

end Sane

/-! ## Runs -/

/-- Lookups, and the calls that make and remove directories and files. -/
def Plants : Op → Prop
  | .lookup _ | .create _ | .mkdir _ | .unlink _ | .rmdir _ => True
  | _ => False

/-- The states that calls for which `fair` holds lead to, from a mount of fresh partitions,
    with remounts and dentries taken from the cache, whatever change a partition refuses. -/
inductive Reach (fair : Op → Int → Sys → Sys → Prop) (N : Nat) : Sys → Prop
  | mount {t : Sys} {a : Int} :
      Outcome harsh.dirEnv (lift (mountRoot N)) (booted (blank N)) a t →
      Reach fair N t
  | remount {s t : Sys} {a : Int} : Reach fair N s →
      Outcome harsh.dirEnv (lift (mountRoot N))
        { s with mem := fun _ => none } a t → Reach fair N t
  | call {s t : Sys} {o : Op} {a : Int} : Reach fair N s → Plants o →
      o.Ready s → Outcome harsh.dirEnv (o.code N) s a t → fair o a s t →
      Reach fair N t
  | forget {s : Sys} (x : Path) : Reach fair N s →
      (∀ a, s.mem (a :: x) = none) → Reach fair N (s.forget x)

/-- No rmdir has failed half-way. -/
def Whole : Op → Int → Sys → Sys → Prop
  | .rmdir _, err, s, t => err = 0 ∨ t.disk = s.disk
  | _, _, _, _ => True

section Runs

variable {fair : Op → Int → Sys → Sys → Prop} {o : Op} {err : Int}

theorem sane_of_mount (w : World N D s.disk) (hplain : Plain s.disk)
    (hN : 0 < N) (hmem : ∀ z, s.mem z = none)
    (ho : Outcome harsh.dirEnv (lift (mountRoot N)) s err t) : Sane N D t := by
  obtain ⟨u, hstill, hu⟩ := sane_mount w hplain hN hmem
  have hmust : Must harsh.dirEnv (lift (mountRoot N)) s (fun _ t => t = u) :=
    must_lift.mpr ((must_still hstill).mpr rfl)
  exact hmust.sure err t ho ▸ hu

/-- A call that has not failed half-way leads from a sane state to a sane state. -/
theorem sane_of_call (h : Sane N D s) (hN : 0 < N) (hp : Plants o) (hr : o.Ready s)
    (ho : Outcome harsh.dirEnv (o.code N) s err t) (hfair : Whole o err s t) : ∃ D, Sane N D t := by
  cases o with
  | lookup z =>
    obtain ⟨⟨hne, dZ, hZ, hdir⟩, -⟩ := hr
    obtain ⟨c, Z, rfl⟩ := List.exists_cons_of_ne_nil hne
    obtain ⟨u, hstill, hu⟩ := h.lookup hN hZ ((h.dir_iff hZ).mp hdir)
    have hmust : Must harsh.dirEnv (lift (sfsLookup N (c :: Z))) s
        (fun _ t => t = u) := must_lift.mpr ((must_still hstill).mpr rfl)
    exact ⟨D, hmust.sure err t ho ▸ hu⟩
  | create z =>
    obtain ⟨dz, hv⟩ := h.vacant hr.1 hr.2
    have hgo := Minds.lift (goes_sfsCreate (E := harsh) hv hN)
    exact ⟨D, (hgo.sure err t ho).1⟩
  | mkdir z =>
    obtain ⟨dz, hv⟩ := h.vacant hr.1 hr.2
    have hgo := goes_sfsMkdir (E := harsh) hv hN
    exact (hgo.sure err t ho).elim (fun ht => ⟨D, ht⟩) fun ht => ⟨_, ht⟩
  | unlink z =>
    obtain ⟨-, dz, hz, hfile⟩ := hr
    have hmust := must_lift.mpr (must_unlinkCall (E := harsh) h hN hz hfile)
    exact ⟨D, hmust.sure err t ho⟩
  | rmdir z =>
    obtain ⟨⟨hne, dZ, hZ, -⟩, dz, hz, hdir⟩ := hr
    obtain ⟨a, Z, rfl⟩ := List.exists_cons_of_ne_nil hne
    have hD : D (a :: Z) := (h.dir_iff hz).mp hdir
    obtain ⟨-, f, hf, -⟩ := h.first hD hZ
    have hrm := (must_rmdirCall (E := harsh) h hD hz hZ hf).sure err t ho
    have hz' : (s.shrink (a :: Z)).mem (a :: Z) = some dz :=
      (shrink_mem fun h => h.2 rfl).trans hz
    exact (hrm.sane (h.shrink _) hN hD hz' hfair).elim (fun ht => ⟨D, ht⟩) fun ht => ⟨_, ht⟩
  | _ => exact hp.elim

theorem Reach.sane (hN : 0 < N) (h : Reach Whole N s) : ∃ D, Sane N D s := by
  induction h with
  | mount ho =>
    exact ⟨_, sane_of_mount world_blank plain_blank hN (fun _ => rfl) ho⟩
  | @remount s _ _ _ ho ih =>
    obtain ⟨D, hD⟩ := ih
    exact ⟨D, sane_of_mount (s := { s with mem := fun _ => none }) hD.world
      hD.plain hN (fun _ => rfl) ho⟩
  | call _ hp hr ho hfair ih =>
    obtain ⟨D, hD⟩ := ih
    exact sane_of_call hD hN hp hr ho hfair
  | forget x _ hx ih =>
    obtain ⟨D, hD⟩ := ih
    exact ⟨D, hD.forget hx⟩

end Runs

/-! ## The result -/

/-- In every state of runs in which no rmdir has failed half-way: a rmdir is atomic in the name
    space that is seen, and succeeds when it can, if and only if the directory is covered. -/
theorem rmdirAtomic_iff {N : Nat} (hN : 0 < N) {s : Sys} (h : Reach Whole N s)
    {z : Path} (hz : (Op.rmdir z).Ready s) :
    RmdirAtomic N s z ↔ Covered s z := by
  obtain ⟨D, hD⟩ := h.sane hN
  exact rmdirAtomic_iff_of_sane hD hN hz

/-! ## Concrete runs

On three partitions a directory `[0]` is made, in it the directory `[1, 0]` and a file.
The directory goes to the partition 1 and the file to the partition 2, so that `[0]` is
normal in both.  `set_normal_dir` has recorded 1, and `check_normal_dir` records 2. -/

section Concrete

variable {fair : Op → Int → Sys → Sys → Prop} {o : Op} {os : List Op}

theorem harsh_of_run {α : Type} {k : DirCode α} {r : α}
    (h : run (dirHandler 0 noneLost) k s = some (r, t)) :
    Outcome harsh.dirEnv k s r t :=
  (outcome_env.mpr h).widen fun _ _ _ _ hq => harsh_of_dirHandler hq

theorem Reach.after (h : Reach fair N s) (hp : Plants o) (ho : o.Ready s)
    (hf : ∀ a s t, fair o a s t) : Reach fair N (s.after N noneLost o) := by
  unfold Sys.after
  cases hr : run (dirHandler 0 noneLost) (o.code N) s with
  | none => exact h
  | some r => exact h.call hp ho (harsh_of_run hr) (hf ..)

theorem Reach.afterAll (h : Reach fair N s) (ho : s.AllReady N noneLost os)
    (hp : ∀ o ∈ os, Plants o) (hf : ∀ o ∈ os, ∀ a s t, fair o a s t) :
    Reach fair N (os.foldl (fun s o => s.after N noneLost o) s) := by
  induction os generalizing s with
  | nil => exact h
  | cons o os ih =>
    exact ih (h.after (hp o (.head _)) ho.1 (hf o (.head _))) ho.2
      (fun o' ho' => hp o' (.tail _ ho')) fun o' ho' => hf o' (.tail _ ho')

theorem Reach.again (h : Reach fair N s) : Reach fair N (s.remount N noneLost) := by
  unfold Sys.remount
  cases hr : run (dirHandler 0 noneLost) (lift (mountRoot N)) { s with mem := fun _ => none } with
  | none => exact h
  | some r => exact h.remount (harsh_of_run hr)

/-- The mount of fresh partitions. -/
def started : Sys := (booted (blank 3)).remount 3 noneLost

theorem started_reach : Reach fair 3 started := by
  have hrun : ∃ r, run (dirHandler 0 noneLost) (lift (mountRoot 3)) (booted (blank 3)) = some r :=
    isSome_iff_exists.mp (by decide)
  obtain ⟨r, hr⟩ := hrun
  have heq : started = r.2 := by
    show ((run (dirHandler 0 noneLost) (lift (mountRoot 3))
      (booted (blank 3))).map Prod.snd).getD (booted (blank 3)) = r.2
    rw [hr]
    rfl
  exact heq ▸ .mount (harsh_of_run hr)

/-- The directories and the file are made. -/
def grown : Sys :=
  [Op.lookup [0], .mkdir [0], .lookup [1, 0], .mkdir [1, 0], .lookup [2, 0],
    .create [2, 0]].foldl (fun s o => s.after 3 noneLost o) started

theorem grown_reach : Reach Whole 3 grown :=
  started_reach.afterAll (by decide) (by simp [Plants]) (by simp [Whole])

theorem grown_atomic :
    Reach Whole 3 grown ∧ (Op.rmdir [1, 0]).Ready grown ∧ RmdirAtomic 3 grown [1, 0] := by
  refine ⟨grown_reach, by decide, ?_⟩
  refine (rmdirAtomic_iff (by decide) grown_reach (by decide)).mpr ?_
  have hfirst : (grown.mem [0]).bind SfsDentry.firstNormalDirId = some 1 := by
    decide
  obtain ⟨dZ, hZ, hf⟩ := Option.bind_eq_some_iff.mp hfirst
  exact ⟨dZ, hZ, 1, hf, Or.inl ⟨false, by decide⟩⟩

/-- The directories are looked up after a remount. -/
def regrown : Sys :=
  [Op.lookup [0], .lookup [1, 0]].foldl (fun s o => s.after 3 noneLost o)
    (grown.remount 3 noneLost)

/-- The only replica is empty and its file system removes it: the call fails,
    and the directory is gone. -/
theorem regrown_not_atomic : Reach Whole 3 regrown ∧ (Op.rmdir [1, 0]).Ready regrown
      ∧ look 3 regrown.disk [1, 0] = some .dir
      ∧ regrown.disk.node [1, 0] 1 = some (.dir false)
      ∧ regrown.disk.emptyDir [1, 0] 1 = true
      ∧ (∃ t, run (dirHandler 0 noneLost) ((Op.rmdir [1, 0]).code 3) regrown = some (eio, t)
          ∧ (∀ p < 3, t.disk.node [1, 0] p = none)
          ∧ look 3 t.disk [1, 0] = some .nothing)
      ∧ ¬ RmdirAtomic 3 regrown [1, 0] := by
  have hrun : (run (dirHandler 0 noneLost) ((Op.rmdir [1, 0]).code 3)
      regrown).map (fun r : Int × Sys => (r.1,
        (List.range 3).all fun p => (r.2.disk.node [1, 0] p).isNone,
        look 3 r.2.disk [1, 0])) = some (eio, true, some .nothing) := by
    decide
  obtain ⟨⟨err, t⟩, hr, heq⟩ := Option.map_eq_some_iff.mp hrun
  obtain ⟨rfl, heq'⟩ := Prod.mk.inj heq
  obtain ⟨hgone, hlook⟩ := Prod.mk.inj heq'
  have hnone : ∀ p < 3, t.disk.node [1, 0] p = none := fun p hp =>
    Option.isNone_iff_eq_none.mp (List.all_eq_true.mp hgone p (List.mem_range.mpr hp))
  refine ⟨(grown_reach.again).afterAll (by decide) (by simp [Plants])
    (by simp [Whole]), by decide, by decide, by decide, by decide,
    ⟨t, hr, hnone, hlook⟩, fun h => ?_⟩
  rcases h.1.sure eio t (harsh_of_run hr) with ⟨h0, -⟩ | ⟨-, hseen, -⟩
  · exact absurd h0 (by decide)
  · exact nomatch hlook.symm.trans hseen

end Concrete

end SfsAtomic
