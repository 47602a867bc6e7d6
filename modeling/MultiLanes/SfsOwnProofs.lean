import MultiLanes.SfsThreadsProofs

/-! # SFS — code that has dentries for itself

Triples of `placeContract` for the functions of the calls.  What is known of an own
dentry has to survive that others fill slots (`Lasting`); tame code keeps it too
(`Robust`).  So what `can_turn2normal` or `local_dispatch` has seen of a directory still
holds when `set_normal_dir` marks it, and what a lookup has not yet found in a partition
is not yet counted there. -/

namespace Sfs

open InteractProg Function

/-! ## Triples -/

/-- See `Contract.Triple`. -/
abbrev Places {α : Type} (N : Nat) (h : Prop) (U : Path → Prop)
    (P : Sys → Prop) (c : Code α) (Q : α → Sys → Prop) : Prop :=
  (placeContract N h).Triple (placeEnv N h) U P c Q

/-- See `Contract.Triple`. -/
abbrev PlacesDir {α : Type} (N : Nat) (h : Prop) (U : Path → Prop)
    (P : Sys → Prop) (c : DirCode α) (Q : α → Sys → Prop) : Prop :=
  (placeDirContract N h).Triple (placeDirEnv N h) U P c Q

/-- What tame code does to the dentries, on the names `A`. -/
def TameMove (A : Path → Prop) (s t : Sys) : Prop :=
  ∀ w, Left s t w ∨ A w ∧ ∃ d d', s.mem w = some d ∧ t.mem w = some d' ∧ Retained d d'

/-- Neither the others nor tame code change it. -/
structure Robust (h : Prop) (U A : Path → Prop) (P : Sys → Prop) : Prop where
  stable : (placeContract 0 h).Stable U P
  tame : ∀ {s t}, TameMove A s t → P s → P t

/-- What is known of a dentry survives that slots are filled. -/
def Lasting (φ : SfsDentry → Prop) : Prop := ∀ d d', Filled d d' → φ d → φ d'

section Rules

variable {N : Nat} {h : Prop} {U A : Path → Prop} {P P' : Sys → Prop}
  {α β : Type} {s t : Sys} {w : Path} {φ : SfsDentry → Prop}

theorem Places.bind {c : Code α} {f : α → Code β} {Q : α → Sys → Prop} {R : β → Sys → Prop}
    (hc : Places N h U P c Q) (hf : ∀ a, Places N h U (Q a) (f a) R) : Places N h U P (c >>= f) R :=
  Contract.Triple.bind place_lawful hc hf

theorem PlacesDir.bind {c : DirCode α} {f : α → DirCode β} {Q : α → Sys → Prop}
    {R : β → Sys → Prop} (hc : PlacesDir N h U P c Q)
    (hf : ∀ a, PlacesDir N h U (Q a) (f a) R) : PlacesDir N h U P (c >>= f) R :=
  Contract.Triple.bind placeDir_lawful hc hf

/-- Code that does not use `first_normal_dir_id`. -/
theorem Places.lift {c : Code α} {Q : α → Sys → Prop} (hc : Places N h U P c Q) :
    PlacesDir N h U P (lift c) Q := by
  have hlift : ∀ (c : Code α) s, (placeContract N h).Guarded (placeEnv N h) U Q c s →
      (placeDirContract N h).Guarded (placeDirEnv N h) U Q (Sfs.lift c) s := by
    intro c
    induction c with
    | ret a => exact fun s hg => hg
    | ask q k ih =>
      intro s hg t ht hi
      obtain ⟨hm, hk⟩ := hg t ht hi
      exact ⟨hm, fun a u hu => ih a u (hk a u hu)⟩
  exact fun s hi hs => hlift c s (hc s hi hs)

theorem robust_true : Robust h U A (fun _ => True) :=
  ⟨fun _ _ => trivial, fun _ _ => trivial⟩

theorem Robust.and (hP : Robust h U A P) (hP' : Robust h U A P') :
    Robust h U A (fun s => P s ∧ P' s) :=
  ⟨fun hr hs => ⟨hP.stable hr hs.1, hP'.stable hr hs.2⟩,
    fun hm hs => ⟨hP.tame hm hs.1, hP'.tame hm hs.2⟩⟩

theorem stable_has (hw : U w) (hφ : Lasting φ) :
    (placeContract N h).Stable U (fun s => s.Has w φ) :=
  fun hr hs => (hr.left w hw).has hs (hφ _ _)

/-- A dentry that is not among the names. -/
theorem robust_has (hw : U w) (hA : ¬ A w) (hφ : Lasting φ) : Robust h U A (fun s => s.Has w φ) :=
  ⟨stable_has hw hφ, fun hm hs =>
    ((hm w).resolve_right fun h => hA h.1).has hs (hφ _ _)⟩

/-- A dentry that may be among them. -/
theorem robust_has_name (hw : U w) (hφ : Lasting φ) (hr : ∀ {d d'}, Retained d d' → φ d → φ d') :
    Robust h U A (fun s => s.Has w φ) := by
  refine ⟨stable_has hw hφ, fun hm hs => ?_⟩
  rcases hm w with hl | ⟨-, d, d', hd, hd', hret⟩
  · exact hl.has hs (hφ _ _)
  · obtain ⟨e, he, hφe⟩ := hs
    cases hd.symm.trans he
    exact ⟨d', hd', hr hret hφe⟩

/-- A tame request is allowed, and moves as it should. -/
theorem Tame.place {q : SfsReq} (hq : Tame N A q) (hA : ∀ z, A z → U z)
    (hi : PlaceInv N h s) : PlaceMay N h U q s := by
  cases q with
  | modD z f =>
    intro d hd
    have hc := hi.counted hd
    obtain ⟨hhon, hf | ⟨hz, hr⟩⟩ := hq d hc.honest
    · exact ⟨hc.same hhon hf.map, fun hh => (hi.truthful hh hd).filled hf, .inr hf⟩
    · exact ⟨hc.retained hhon hr, fun hh => (hi.truthful hh hd).retained hr, .inl (hA z hz)⟩
  | setD z d => exact hq.elim
  | moveD x y => exact hq.elim
  | setNormal x p => exact hq.elim
  | rmdir x p => exact hq.elim
  | _ => trivial

theorem Tame.move {q : SfsReq} {a : q.Ans} (hq : Tame N A q)
    (hi : PlaceInv N h s) (hE : frail q s a t) :
    Told N q a ∧ TameMove A s t := by
  constructor
  · cases q with
    | sfsD x => exact (hi.counted (frail_sfsD hE).2).honest
    | _ => trivial
  · intro w
    rcases frail_mem hE with hmem | ⟨x, d, rfl, rfl⟩
        | ⟨x, f, d, rfl, hd, rfl⟩ | ⟨x, y, rfl, rfl⟩
    · exact .inl (.same (by rw [hmem]))
    · exact hq.elim
    · by_cases hwx : w = x
      · subst hwx
        rcases (hq d (hi.counted hd).honest).2 with hf | ⟨hz, hr⟩
        · exact .inl (.inr ⟨d, f d, hd, one_mem, hf⟩)
        · exact .inr ⟨hz, d, f d, hd, one_mem, hr⟩
      · exact .inl (.same (one_mem_of_ne hwx))
    · exact hq.elim

/-- Tame code. -/
theorem Tamed.places {R : α → Prop} {c : Code α} (hc : Tamed N A R c)
    (hA : ∀ z, A z → U z) (hP : Robust h U A P) :
    Places N h U P c (fun a s => R a ∧ P s) :=
  Contract.Triple.of_asks hc hP.stable (fun _ _ hq hi _ => hq.place hA hi) fun hq hi hs hE => by
      obtain ⟨hx, hm⟩ := hq.move hi hE.1
      exact ⟨hx, hP.tame hm hs⟩

/-- A store in an own dentry. -/
theorem places_modD {g : SfsDentry → SfsDentry} {Q : Sys → Prop} (hw : U w)
    (hP : (placeContract N h).Stable U P) (hQ : (placeContract N h).Stable U Q)
    (hm : ∀ s e, PlaceInv N h s → P s → s.mem w = some e →
      Counted N (g e) ∧ (h → Truthful s.disk w (g e)))
    (hs : ∀ s e, PlaceInv N h s → P s → s.mem w = some e → Q (s.setD w (g e))) :
    Places N h U P (modD w g) (fun _ => Q) := by
  refine Contract.Triple.perform (f := .ret) place_lawful hP (T := fun _ => Q)
    ?_ ?_ fun _ => .ret hQ fun _ _ h => h
  · intro s hi hPs e he
    obtain ⟨hc, ht⟩ := hm s e hi hPs he
    exact ⟨hc, ht, .inl hw⟩
  · rintro s x t hi hPs ⟨hE, -⟩
    rcases hE with hE | ⟨hf, -⟩
    · obtain ⟨e, he, hr⟩ := Option.map_eq_some_iff.mp hE
      rw [← (Prod.mk.inj hr).2]
      exact hs s e hi hPs he
    · exact hf.elim

end Rules

/-! ## Own dentries -/

/-- The dentries that a call has for itself: the names `A` that its tame code
    stores in, those among them that stay idle, and the directory `w`. -/
structure Own (U A I : Path → Prop) (w : Path) : Prop where
  names : ∀ z, A z → U z
  idle : ∀ z, I z → A z
  dir : U w
  apart : ¬ A w

/-- The dentries in `I` are idle. -/
def Idles (I : Path → Prop) (s : Sys) : Prop := ∀ z, I z → s.Has z Idle

/-- And `φ` is known of the directory. -/
def At (I : Path → Prop) (w : Path) (φ : SfsDentry → Prop) (s : Sys) : Prop :=
  Idles I s ∧ s.Has w φ

/-- Nothing more is known of the directory than that it is cached. -/
abbrev Here (I : Path → Prop) (w : Path) : Sys → Prop := At I w (fun _ => True)

/-- `can_turn2normal`. -/
def CanTurn (N p : Nat) (d : SfsDentry) : Prop :=
  d.normalDirMap p = true ∨ d.normalDirCount < spanThreshold N

section Own

variable {N : Nat} {h : Prop} {U A I : Path → Prop} {w z : Path} {α : Type}
  {s t : Sys} {φ : SfsDentry → Prop} {p : Nat}

theorem lasting_map (f : (Nat → Bool) → Nat → Prop) :
    Lasting (fun d => f d.normalDirMap d.normalDirCount) := by
  intro d d' hf hd
  rw [hf.map.1, hf.map.2.1]
  exact hd

theorem lasting_true : Lasting (fun _ => True) := fun _ _ _ hd => hd

theorem lasting_filled (d : SfsDentry) : Lasting (Filled d) :=
  fun _ _ hf hd => hd.trans hf

theorem lasting_canTurn : Lasting (CanTurn N p) :=
  lasting_map fun m n => m p = true ∨ n < spanThreshold N

theorem lasting_bit : Lasting (fun d => d.normalDirMap p = true) :=
  lasting_map fun m _ => m p = true

theorem robust_idles (hI : ∀ z, I z → U z) : Robust h U A (Idles I) := by
  have hone := fun z (hz : I z) => robust_has_name (h := h) (A := A) (hI z hz)
    (fun _ _ => Idle.filled) Idle.retained
  exact ⟨fun hr hs z hz => (hone z hz).stable hr (hs z hz),
    fun hm hs z hz => (hone z hz).tame hm (hs z hz)⟩

theorem Idles.setD {d : SfsDentry} (hs : Idles I s) (hw : ¬ I w) : Idles I (s.setD w d) := by
  intro z hz
  obtain ⟨e, he, hidle⟩ := hs z hz
  have hne : z ≠ w := by
    rintro rfl
    exact hw hz
  exact ⟨e, (one_mem_of_ne hne).trans he, hidle⟩

theorem Own.robust (o : Own U A I w) : Robust h U A (Idles I) :=
  robust_idles fun z hz => o.names z (o.idle z hz)

theorem Own.robust_at (o : Own U A I w) (hφ : Lasting φ) :
    Robust h U A (At I w φ) := o.robust.and (robust_has o.dir o.apart hφ)

theorem Own.dir_not_idle (o : Own U A I w) : ¬ I w :=
  fun hw => o.apart (o.idle w hw)

/-- Tame code keeps what is known of the directory. -/
theorem Own.tamed (o : Own U A I w) (hφ : Lasting φ) {R : α → Prop}
    {c : Code α} (hc : Tamed N A R c) :
    Places N h U (At I w φ) c (fun a s => R a ∧ At I w φ s) :=
  hc.places o.names (o.robust_at hφ)

theorem At.imp {ψ : SfsDentry → Prop} (hs : At I w φ s) (hφ : ∀ {d}, φ d → ψ d) : At I w ψ s :=
  ⟨hs.1, hs.2.imp fun _ hd => ⟨hd.1, hφ hd.2⟩⟩

theorem At.here (hs : At I w φ s) : Here I w s := hs.imp fun _ => trivial

theorem Own.stable (o : Own U A I w) : (placeContract N h).Stable U (Here I w) :=
  (o.robust_at lasting_true).stable

/-- Tame code of which nothing needs to be known. -/
theorem Own.rest (o : Own U A I w) {R : α → Prop} {c : Code α}
    (hc : Tamed N A R c) : Places N h U (Here I w) c (fun _ => Here I w) :=
  (o.tamed lasting_true hc).post fun _ _ _ hs => hs.2

/-- The end of the code, with what is known of the directory then. -/
theorem Own.leave (o : Own U A I w) (hφ : Lasting φ) {R : α → SfsDentry → Prop} {a : α}
    (hR : ∀ {d}, φ d → R a d) : Places N h U (At I w φ) (pure a) (fun a => At I w (R a)) :=
  .ret (o.robust_at hφ).stable fun _ _ hs => hs.imp hR

theorem Own.ret (o : Own U A I w) {a : α} : Places N h U (Here I w) (pure a) (fun _ => Here I w) :=
  o.leave lasting_true id

/-- The directory is read. -/
theorem Own.sfsD (o : Own U A I w) (hφ : Lasting φ) :
    Places N h U (At I w φ) (sfsD w) (fun d s => (Counted N d ∧ φ d) ∧ At I w (Filled d) s) := by
  refine Contract.Triple.perform (f := .ret) place_lawful (o.robust_at hφ).stable
    (fun _ _ _ => trivial)
    (T := fun d s => (Counted N d ∧ φ d) ∧ At I w (Filled d) s) ?_ fun d =>
      .ret (fun hr hs => ⟨hs.1, (o.robust_at (lasting_filled d)).stable hr hs.2⟩) fun _ _ hs => hs
  rintro s d t hi ⟨hidle, e, he, hφe⟩ ⟨hE, -⟩
  obtain ⟨rfl, hd⟩ := frail_sfsD hE
  cases hd.symm.trans he
  exact ⟨⟨hi.counted hd, hφe⟩, hidle, d, hd, .refl d⟩

/-! ## `set_normal_dir` and `check_normal_dir` -/

theorem frail_setNormal {a : Int} (hE : frail (.setNormal w p) s a t) :
    t.mem = s.mem ∧ (a = 0 → t.disk.marked w p = true) := by
  rcases hE with hE | ⟨hf, rfl⟩
  · obtain ⟨⟨b, d⟩, hr, heq⟩ := Option.map_eq_some_iff.mp hE
    cases heq
    refine ⟨rfl, ?_⟩
    rintro rfl
    simp only [Disk.step] at hr
    split at hr
    · cases hr
    · cases hr
    · cases hr
      exact (congrFun marked_setNormal p).trans (update_self ..)
  · exact ⟨rfl, fun h0 => absurd h0 hf⟩

theorem stable_marked : (placeContract N h).Stable U (fun s => h → s.disk.marked w p = true) :=
  fun hr hs hh => hr.marks hh w p (hs hh)

/-- A mark is set where it may be. -/
theorem Own.setNormalDir (o : Own U A I w) :
    Places N h U (At I w (CanTurn N p)) (setNormalDir w p) (fun _ => Here I w) := by
  refine (o.sfsD lasting_canTurn).bind fun d => .given fun ⟨hc, hturn⟩ => ?_
  have hstable : (placeContract N h).Stable U (At I w (Filled d)) :=
    (o.robust_at (lasting_filled d)).stable
  split
  · exact o.leave (lasting_filled d) fun _ => trivial
  · next hoff =>
    have hoff' : d.normalDirMap p = false := by simpa using hoff
    refine (o.tamed (lasting_filled d) tamed_deref).bind fun r =>
      .given fun hr => ?_
    have hp : p < N := by
      by_contra hp
      cases hr.symm.trans (hc.honest.slots p (not_lt.mp hp))
    refine (o.tamed (lasting_filled d) tamed_deref).bind fun _ =>
      .given fun _ => ?_
    refine Contract.Triple.perform place_lawful hstable ?_ (T := fun err s => At I w (Filled d) s
        ∧ (err = 0 → h → s.disk.marked w p = true)) ?_ fun err => ?_
    · rintro s - ⟨-, e, he, hf⟩
      refine ⟨e, he, ?_, ?_⟩
      · rw [hf.map.1]
        exact hoff'
      · rw [hf.map.2.1]
        exact hturn.resolve_left hoff
    · rintro s err t - ⟨hidle, hw⟩ ⟨hE, -⟩
      obtain ⟨hmem, hmark⟩ := frail_setNormal hE
      refine ⟨⟨fun z hz => ?_, ?_⟩, fun h0 _ => hmark h0⟩
      · rw [Sys.Has, hmem]
        exact hidle z hz
      · rw [Sys.Has, hmem]
        exact hw
    · refine Places.bind (Q := fun _ => Here I w) ?_ fun _ => o.ret
      have hset : (placeContract N h).Stable U (fun s => At I w (Filled d) s
          ∧ (err = 0 → h → s.disk.marked w p = true)) :=
        fun hr hs => ⟨hstable hr hs.1, fun h0 => stable_marked hr (hs.2 h0)⟩
      by_cases herr : err = 0
      · rw [onlyIf_pos herr]
        refine places_modD o.dir hset o.stable ?_ fun s e _ hs _ =>
          ⟨hs.1.1.setD o.dir_not_idle, _, one_mem, trivial⟩
        rintro s e hi ⟨⟨-, e', he', hf⟩, hmark⟩ he
        cases he.symm.trans he'
        have hbit : e.normalDirMap p = false := by
          rw [hf.map.1]
          exact hoff'
        exact ⟨(hi.counted he).turnNormal hp hbit,
          fun hh => (hi.truthful hh he).addNormal (hmark herr hh)⟩
      · rw [onlyIf_neg herr]
        exact .ret hset fun _ _ hs => hs.1.here

/-- A directory is made normal, or only cloned. -/
theorem Own.createReplicaDir (o : Own U A I w) (hp : p < N) {normal : Bool} {P : Sys → Prop}
    (hP : ∀ s, P s → Here I w s) (hturn : normal = true → ∀ s, P s → At I w (CanTurn N p) s) :
    Places N h U P (createReplicaDir w p normal) (fun _ => Here I w) := by
  cases normal with
  | false =>
    exact (o.rest (tamed_createReplicaDir_shadow hp)).pre fun s _ hs => hP s hs
  | true =>
    refine Contract.Triple.pre ?_ fun s _ hs => hturn rfl s hs
    refine (o.tamed lasting_canTurn (tamed_replicaBranch hp)).bind fun r =>
      .given fun _ => ?_
    split
    · exact o.leave lasting_canTurn fun _ => trivial
    · rw [if_pos rfl]
      refine o.setNormalDir.bind fun err => ?_
      split <;> exact o.ret

/-! ## `dispatch.c` -/

theorem Own.takeNormal (o : Own U A I w) (hφ : Lasting φ) : Places N h U (At I w φ) (takeNormal N w)
      (fun r s => r < N ∧ At I w (fun d => d.normalDirMap r = true) s) := by
  refine (o.sfsD hφ).bind fun d => .given fun ⟨hc, _⟩ => ?_
  split
  · exact (o.tamed (R := fun _ => False) (lasting_filled d) tamed_spin).post
      fun _ _ _ hs => hs.1.elim
  · next r hr =>
    have hbit := nextNormal_map hr
    have hrN := hc.honest.map r hbit
    have hN : 0 < N := Nat.zero_lt_of_lt hrN
    refine Places.bind (Q := fun _ => At I w (fun d => d.normalDirMap r = true))
      (places_modD o.dir (o.robust_at (lasting_filled d)).stable
        (o.robust_at lasting_bit).stable ?_ ?_) fun _ =>
      .ret (o.robust_at lasting_bit).stable fun _ _ hs => ⟨hrN, hs⟩
    · intro s e hi _ he
      have hce := hi.counted he
      have hhon := hce.honest.withCounter (Nat.mod_lt (r + 1) hN)
      exact ⟨hce.same hhon ⟨rfl, rfl, rfl⟩, fun hh hn q hq => hi.truthful hh he hn q hq⟩
    · rintro s e - ⟨hidle, e', he', hf⟩ he
      cases he.symm.trans he'
      refine ⟨hidle.setD o.dir_not_idle, _, one_mem, ?_⟩
      show e.normalDirMap r = true
      rw [hf.map.1]
      exact hbit

/-- Without a normal partition there is no choice. -/
theorem Own.selectNormalDirRr (o : Own U A I w) (hφ : Lasting φ) :
    Places N h U (At I w φ) (selectNormalDirRr N w) (fun m s => match m with
      | none => At I w (fun d => φ d ∧ d.normalDirCount = 0) s
      | some r => r < N ∧ At I w (fun d => d.normalDirMap r = true) s) := by
  refine (o.sfsD hφ).bind fun d => .given fun ⟨_, hd⟩ => ?_
  split
  · next h0 =>
    exact .ret (o.robust_at (lasting_filled d)).stable fun _ _ hs =>
      hs.imp fun hf => ⟨hφ _ _ hf hd, hf.map.2.1.trans h0⟩
  · refine (o.takeNormal (lasting_filled d)).bind fun r => .given fun hr => ?_
    exact .ret (o.robust_at lasting_bit).stable fun _ _ hs => ⟨hr, hs⟩

/-- The partition that is chosen may be turned, or is normal. -/
theorem Own.localDispatch (o : Own U A I w) (hN : 0 < N) (hφ : Lasting φ) :
    Places N h U (At I w φ) (localDispatch N w) (fun r s => r < N ∧ At I w (CanTurn N r) s) := by
  refine (o.sfsD hφ).bind fun d => .given fun _ => ?_
  split
  · next hlt =>
    refine (o.tamed (lasting_filled d) (tamed_dispatchFree hN _ _)).post ?_
    rintro r s - ⟨⟨hr, -⟩, hs⟩
    exact ⟨hr, hs.imp fun hf => .inr (hf.map.2.1 ▸ hlt)⟩
  · refine (o.takeNormal (lasting_filled d)).post ?_
    rintro r s - ⟨hr, hs⟩
    exact ⟨hr, hs.imp .inl⟩

theorem lasting_turns (b : Bool) : Lasting (fun d => b = true ↔ CanTurn N p d) :=
  lasting_map fun m n => b = true ↔ (m p = true ∨ n < spanThreshold N)

theorem Own.canTurn2normal (o : Own U A I w) (hφ : Lasting φ) :
    Places N h U (At I w φ) (canTurn2normal N w p)
      (fun b s => At I w (fun d => b = true ↔ CanTurn N p d) s) := by
  refine (o.sfsD hφ).bind fun d => .given fun _ => ?_
  refine o.leave (R := fun b d => b = true ↔ CanTurn N p d) (lasting_filled d) fun hf =>
    lasting_turns _ _ _ hf ?_
  show _ ↔ d.normalDirMap p = true ∨ d.normalDirCount < spanThreshold N
  cases d.normalDirMap p <;> simp

/-- A partition that may be turned, as `can_turn2normal` has said. -/
theorem At.turns {b : Bool} (hs : At I w (fun d => b = true ↔ CanTurn N p d) s) (hb : b = true) :
    At I w (CanTurn N p) s := hs.imp fun hturn => hturn.mp hb

/-! ## Files -/

/-- `if(unlikely(err)) goto out;` -/
theorem Places.checked {P R : Sys → Prop} {c k : Code Int}
    {Q : Sys → Prop} (hQ : (placeContract N h).Stable U Q)
    (hc : Places N h U P c (fun _ => Q)) (hk : Places N h U Q k (fun _ => R))
    (hR : ∀ s, Q s → R s) : Places N h U P (checked c k) (fun _ => R) := by
  refine hc.bind fun err => ?_
  split
  · exact .ret hQ fun s _ hs => hR s hs
  · exact hk

theorem Own.checked (o : Own U A I w) {P : Sys → Prop} {c k : Code Int}
    (hc : Places N h U P c (fun _ => Here I w)) (hk : Tamed N A any k) :
    Places N h U P (checked c k) (fun _ => Here I w) :=
  .checked o.stable hc (o.rest hk) fun _ hs => hs

/-- The directory is made normal first. -/
theorem Own.above (o : Own U A I w) (hp : p < N) {k : Replica → Code Int}
    (hk : ∀ r, Tamed N A any (k r)) :
    Places N h U (At I w (CanTurn N p)) (do
      match ← Sfs.createReplicaDir w p true with
      | .error err => return err
      | .ok r => k r) (fun _ => Here I w) := by
  refine (o.createReplicaDir hp (fun _ hs => hs.here) fun _ _ hs => hs).bind fun r => ?_
  cases r with
  | error err => exact o.ret
  | ok r => exact o.rest (hk r)

theorem Own.simpleAddEntry (o : Own U A I z.tail) (hp : p < N) :
    Places N h U (At I z.tail (CanTurn N p)) (simpleAddEntry z p) (fun _ => Here I z.tail) :=
  o.above hp fun _ => .bind (tamed_getReplicaDentry fun _ => hp) fun _ _ => tamed_createReplica hp

theorem Own.sfsCreate (o : Own U A I z.tail) (hN : 0 < N) (hz : A z) (hφ : Lasting φ) :
    Places N h U (At I z.tail φ) (sfsCreate N z) (fun _ => Here I z.tail) := by
  refine (o.localDispatch hN hφ).bind fun p => .given fun hp => ?_
  refine o.checked (o.simpleAddEntry hp) ?_
  exact .bind (tamed_setReplicaId hz hp) fun _ _ =>
    .bind (tamed_instantiate hz _) fun _ _ => trivial

variable {x y : Path}

theorem Own.simpleAddLink (o : Own U A I y.tail) (hp : p < N) :
    Places N h U (At I y.tail (CanTurn N p)) (simpleAddLink x y p) (fun _ => Here I y.tail) :=
  o.above hp fun _ => .bind (tamed_getReplicaDentry fun _ => hp) fun _ _ => tamed_linkReplica hp

theorem Own.simpleAddPartitionedLink (o : Own U A I y.tail) (hp : p < N) {q : Nat} (hq : q < N) :
    Places N h U (At I y.tail (CanTurn N p))
      (simpleAddPartitionedLink x y p q) (fun _ => Here I y.tail) := by
  refine o.above hp fun _ => .bind (tamed_createReplicaDir_shadow hq) fun r _ => ?_
  split
  · trivial
  · refine .bind (tamed_getReplicaDentry fun _ => hp) fun _ _ => ?_
    refine .bind (tamed_getReplicaDentry fun _ => hq) fun _ _ => ?_
    exact Asks.checked (tamed_createReplica hp) <| Asks.checked (tamed_put _) <|
      Asks.checked (tamed_linkReplica hq) (tamed_put _)

/-- The partition of a file is read. -/
theorem Own.dataId (o : Own U A I w) (hφ : Lasting φ) {f : SfsDentry → Nat → Code α}
    {Q : α → Sys → Prop} (hf : ∀ d r, Honest N d → d.replicaId = some r →
      Places N h U (At I w φ) (f d r) Q) :
    Places N h U (At I w φ) (do
      let d ← Sfs.sfsD x
      let r ← deref d.replicaId
      f d r) Q := by
  have hread : Tamed N A (Honest N) (Sfs.sfsD x) := ⟨trivial, fun _ hd => hd⟩
  exact (o.tamed hφ hread).bind fun d => .given fun hd =>
    (o.tamed hφ tamed_deref).bind fun r => .given fun hr => hf d r hd hr

theorem Own.sfsLink (o : Own U A I y.tail) (hN : 0 < N) (hy : A y) (hφ : Lasting φ) :
    Places N h U (At I y.tail φ) (sfsLink N x y) (fun _ => Here I y.tail) := by
  refine o.dataId hφ fun d r hd hr => ?_
  have hrN := hd.replicaId r hr
  refine (o.canTurn2normal hφ).bind fun b => ?_
  extract_lets link
  -- the rest, with the partition of the meta file
  have hlink : ∀ m, (∀ q, m = some q → q < N) →
      Places N h U (At I y.tail (CanTurn N (m.getD r))) (link m) (fun _ => Here I y.tail) := by
    intro m hm
    refine o.checked ?_ ?_
    · cases m with
      | none => exact o.simpleAddLink hrN
      | some q => exact o.simpleAddPartitionedLink (hm q rfl) hrN
    · refine .bind (tamed_instantiate hy _) fun _ _ => ?_
      refine .bind (tamed_setReplicaId hy hrN) fun _ _ => ?_
      exact .bind (.onlyIf fun _ => tamed_setMetaId hy hm) fun _ _ => trivial
  split
  · next hb => exact (hlink none nofun).pre fun _ _ hs => hs.turns hb
  · next hb =>
    refine (o.selectNormalDirRr (lasting_turns b)).bind fun m => ?_
    cases m with
    | none =>
      -- there are as many normal partitions as the threshold allows
      refine (hlink none nofun).pre ?_
      rintro s - ⟨-, e, -, hturn, h0⟩
      refine absurd (hturn.mpr (.inr ?_)) hb
      rw [h0]
      exact spanThreshold_pos hN
    | some q =>
      refine .given fun hq => (hlink (some q) ?_).pre fun _ _ hs => hs.imp .inl
      rintro _ ⟨⟩
      exact hq

/-! ## `rename.c` -/

theorem Own.rename2non (o : Own U A I y.tail) (hx : A x) (hy : A y) (hφ : Lasting φ) :
    Places N h U (At I y.tail φ) (rename2non N x y) (fun _ => Here I y.tail) := by
  refine o.dataId hφ fun d r hd hr => ?_
  have hrN := hd.replicaId r hr
  refine (o.tamed hφ tamed_findReplicaDentry).bind fun op => .given fun _ => ?_
  refine (o.canTurn2normal hφ).bind fun b => ?_
  refine (o.createReplicaDir hrN (fun _ hs => hs.here) fun hb _ hs =>
    hs.turns hb).bind fun e => ?_
  split
  · exact o.ret
  · refine (o.rest (tamed_getReplicaDentry fun _ => hrN)).bind fun _ => ?_
    split
    · exact o.rest (tamed_rename2nonTurn hx hy r d.metaId)
    · refine (o.selectNormalDirRr lasting_true).bind fun m => ?_
      cases m with
      | none =>
        refine Contract.Triple.pre (P := Here I y.tail) ?_ fun _ _ hs => At.here hs
        exact (o.tamed lasting_true tamed_deref).bind fun _ =>
          .given fun hno => absurd hno nofun
      | some m =>
        refine .given fun hm => ?_
        exact (o.rest (tamed_rename2nonMeta_rest hx hy r d.metaId hm)).pre fun _ _ hs => hs.here

theorem Own.rename2exist (o : Own U A I y.tail) (hx : A x) (hy : A y) (hφ : Lasting φ) :
    Places N h U (At I y.tail φ) (rename2exist N x y) (fun _ => Here I y.tail) := by
  refine o.dataId hφ fun d r hd hr => ?_
  have hrN := hd.replicaId r hr
  refine (o.tamed hφ (tamed_findMetaParent _)).bind fun omp => .given fun _ => ?_
  refine (o.tamed hφ tamed_findReplicaDentry).bind fun op => .given fun _ => ?_
  refine o.dataId hφ fun g e hg he => ?_
  have hem : g.metaId.getD e < N := by
    cases hm : g.metaId with
    | none => exact hg.replicaId e he
    | some m => exact hg.metaId m hm
  refine (o.tamed hφ tamed_findReplicaDentry).bind fun ep => .given fun _ => ?_
  refine (o.tamed hφ (tamed_findMetaParent _)).bind fun emp => .given fun _ => ?_
  refine (o.canTurn2normal hφ).bind fun b => ?_
  refine (o.createReplicaDir hrN (fun _ hs => hs.here) fun hb _ hs =>
    hs.turns hb).bind fun np => ?_
  split
  · exact o.ret
  · refine (o.rest (tamed_getReplicaDentry fun _ => hrN)).bind fun _ => ?_
    have hout : Tamed N A any (finish2exist N x y r d.metaId omp) :=
      tamed_finish2exist hx hy r d.metaId
    split
    · split
      · exact o.rest (tamed_overwriteExist hx hout)
      · exact o.rest (tamed_hideExist hx hout)
    · exact o.rest (tamed_reuseExist hx hout hem)

theorem Own.sfsRenameOther (o : Own U A I y.tail) (hx : A x) (hy : A y) :
    Places N h U (Here I y.tail) (sfsRenameOther N x y) (fun _ => Here I y.tail) := by
  have hread : Tamed N A (Honest N) (Sfs.sfsD y) := ⟨trivial, fun _ hd => hd⟩
  refine .checked o.stable (o.rest (tamed_validateFile hx)) ?_ fun _ hs => hs
  refine (o.rest hread).bind fun d => .checked o.stable (o.rest (R := any) ?_) ?_ fun _ hs => hs
  · show Tamed N A any (if d.positive = true then validateFile y else pure 0)
    split
    · exact tamed_validateFile hy
    · trivial
  · refine (o.rest hread).bind fun d => ?_
    split
    · exact o.rename2exist hx hy lasting_true
    · exact o.rename2non hx hy lasting_true

/-! ## Lookups -/

theorem frail_isNormal {b : Bool} (hE : frail (.isNormal w p) s b t) :
    t = s ∧ (b = true → s.disk.marked w p = true) := by
  rcases hE with hE | ⟨hf, rfl⟩
  · cases hE
    exact ⟨rfl, fun hb => hb⟩
  · exact ⟨rfl, fun hb => nomatch hb.symm.trans hf⟩

theorem lasting_slot : Lasting (fun d => d.replicas p ≠ none) :=
  fun _ _ hf hd => hf.slots p hd

theorem Lasting.and {ψ : SfsDentry → Prop} (hφ : Lasting φ) (hψ : Lasting ψ) :
    Lasting (fun d => φ d ∧ ψ d) :=
  fun _ _ hf hd => ⟨hφ _ _ hf hd.1, hψ _ _ hf hd.2⟩

theorem Lasting.given {c : Prop} (hφ : Lasting φ) :
    Lasting (fun d => c → φ d) := fun _ _ hf hd hc => hφ _ _ hf (hd hc)

/-- A mark that is read is counted; the bit was not set before. -/
theorem Own.checkNormalDir (o : Own U A I w) (hp : p < N) {ψ : SfsDentry → Prop} (hφ : Lasting φ)
    (hψ : Lasting ψ) (hoff : ∀ {d}, φ d → d.normalDirMap p = false)
    (hset : ∀ {d}, φ d → ψ { d.addNormal p with firstNormalDirId := some p })
    (hkeep : ∀ {d}, φ d → ψ d) :
    Places N h U (At I w φ) (checkNormalDir w p) (fun _ => At I w ψ) := by
  have hstable : (placeContract N h).Stable U (At I w φ) :=
    (o.robust_at hφ).stable
  refine Contract.Triple.perform place_lawful hstable (fun _ _ _ => trivial)
    (T := fun b s => At I w φ s ∧ (b = true → h → s.disk.marked w p = true))
    ?_ fun b => ?_
  · rintro s b t - hs ⟨hE, -⟩
    obtain ⟨rfl, hmark⟩ := frail_isNormal hE
    exact ⟨hs, fun hb _ => hmark hb⟩
  · have hread : (placeContract N h).Stable U (fun s => At I w φ s
        ∧ (b = true → h → s.disk.marked w p = true)) :=
      fun hr hs => ⟨hstable hr hs.1, fun hb => stable_marked hr (hs.2 hb)⟩
    refine Places.bind (R := fun _ => At I w ψ) ?_ fun _ => o.leave hψ id
    by_cases hb : b = true
    · rw [onlyIf_pos hb]
      refine places_modD o.dir hread (o.robust_at hψ).stable ?_ ?_
      · rintro s e hi ⟨⟨-, e', he', hφe⟩, hmark⟩ he
        cases he.symm.trans he'
        exact ⟨(hi.counted he).addNormal hp (hoff hφe) ⟨p, rfl, .inl rfl⟩,
          fun hh => (hi.truthful hh he).addNormal (hmark hb hh)⟩
      · rintro s e - ⟨⟨hidle, e', he', hφe⟩, -⟩ he
        cases he.symm.trans he'
        exact ⟨hidle.setD o.dir_not_idle, _, one_mem, hset hφe⟩
    · rw [onlyIf_neg hb]
      exact .ret hread fun _ _ hs => hs.1.imp hkeep

theorem Own.findReplicaDentry (o : Own U A I w) (hφ : Lasting φ) :
    Places N h U (At I w φ) (findReplicaDentry w p)
      (fun r => At I w (fun d => φ d ∧ (r ≠ none → d.replicas p ≠ none))) := by
  refine (o.sfsD hφ).bind fun d => .given fun ⟨_, hd⟩ => ?_
  exact o.leave (R := fun r d => φ d ∧ (r ≠ none → d.replicas p ≠ none)) (lasting_filled d)
    fun hf => ⟨hφ _ _ hf hd, hf.slots p⟩

theorem Own.storeReplica (o : Own U A I w) (hp : p < N) (hφ : Lasting φ) (r : Replica) :
    Places N h U (At I w φ) (storeReplica w p (some r))
      (fun _ => At I w (fun d => φ d ∧ d.replicas p ≠ none)) := by
  refine places_modD o.dir (o.robust_at hφ).stable (o.robust_at (hφ.and lasting_slot)).stable ?_ ?_
  · intro s e hi _ he
    have hf := filled_setReplica e p r
    exact ⟨(hi.counted he).same ((hi.counted he).honest.setReplica hp _) hf.map,
      fun hh => (hi.truthful hh he).filled hf⟩
  · rintro s e - ⟨hidle, e', he', hφe⟩ he
    cases he.symm.trans he'
    refine ⟨hidle.setD o.dir_not_idle, _, one_mem, hφ _ _ (filled_setReplica e p r) hφe, ?_⟩
    show update e.replicas p (some r) p ≠ none
    rw [update_self]
    exact nofun

theorem Own.dAddReplica (o : Own U A I w) (hp : p < N) (hφ : Lasting φ) (r : Replica) :
    Places N h U (At I w φ) (dAddReplica w p r)
      (fun _ => At I w (fun d => φ d ∧ d.replicas p ≠ none)) := by
  refine (o.findReplicaDentry hφ).bind fun old => ?_
  cases old with
  | none => exact (o.storeReplica hp hφ r).pre fun _ _ hs => hs.imp And.left
  | some old => exact o.leave (hφ.and lasting_slot.given) (And.imp_right fun hslot => hslot nofun)

/-- Where a bit is set, the slot is. -/
def Slotted (d : SfsDentry) : Prop :=
  ∀ q, d.normalDirMap q = true → d.replicas q ≠ none

theorem lasting_slotted : Lasting Slotted := by
  intro d d' hf hd q hq
  rw [hf.map.1] at hq
  exact hf.slots q (hd q hq)

/-- What is found in a partition was not known before. -/
def Probed (p : Nat) (i : Option Inode) (d : SfsDentry) : Prop :=
  Slotted d ∧ (i ≠ none → d.normalDirMap p = false ∧ d.replicas p ≠ none)

theorem lasting_probed {i : Option Inode} : Lasting (Probed p i) :=
  lasting_slotted.and ((lasting_map fun m _ => m p = false).and lasting_slot).given

theorem Own.probe (o : Own U A I w) (full : Bool) (hp : p < N) :
    Places N h U (At I w Slotted) (probe w full p) (fun i => At I w (Probed p i)) := by
  have hread : Tamed N A any (Sfs.sfsD w.tail) := ⟨trivial, fun _ _ => trivial⟩
  have hlook : Tamed N A any (lookup w p) := ⟨trivial, fun _ _ => trivial⟩
  -- nothing is found
  have hnone : ∀ {φ : SfsDentry → Prop}, Lasting φ → (∀ {d}, φ d → Slotted d) →
      Places N h U (At I w φ) (pure none) (fun i => At I w (Probed p i)) := by
    intro φ hφ hφS
    exact o.leave (R := Probed p) hφ fun hS => ⟨hφS hS, fun hno => absurd rfl hno⟩
  refine (o.tamed lasting_slotted hread).bind fun parent => .given fun _ => ?_
  split
  · exact hnone lasting_slotted fun hS => hS
  · split
    · exact hnone lasting_slotted fun hS => hS
    · refine (o.sfsD lasting_slotted).bind fun d => .given fun ⟨_, hS⟩ => ?_
      have hlast := fun {e} (hf : Filled d e) => lasting_slotted _ _ hf hS
      split
      · exact hnone (lasting_filled d) hlast
      · next hslot =>
        have hoff : d.normalDirMap p = false := by
          by_contra hbit
          exact hS p (by simpa using hbit) (by simpa using hslot)
        refine (o.tamed (lasting_filled d) hlook).bind fun i =>
          .given fun _ => ?_
        split
        · exact hnone (lasting_filled d) hlast
        · refine (o.dAddReplica hp (lasting_filled d) _).bind fun _ => ?_
          exact o.leave (R := Probed p) ((lasting_filled d).and lasting_slot) fun ⟨hf, hp'⟩ =>
            ⟨hlast hf, fun _ => ⟨hf.map.1 ▸ hoff, hp'⟩⟩

/-- A directory that is found is checked. -/
theorem Own.checkFound (o : Own U A I w) (hp : p < N) {i : Inode} :
    Places N h U (At I w (Probed p (some i))) (Sfs.checkNormalDir w p)
      (fun _ => At I w Slotted) := by
  refine o.checkNormalDir hp lasting_probed lasting_slotted
    (fun hd => (hd.2 nofun).1) (fun {d} hd q hq => ?_) fun hd => hd.1
  by_cases hqp : q = p
  · rw [hqp]
    exact (hd.2 nofun).2
  · refine hd.1 q (Eq.trans ?_ hq)
    exact (update_of_ne hqp ..).symm

/-- A file ends the scan. -/
theorem Own.foundFile (o : Own U A I w) :
    Places N h U (At I w φ) (foundFile w p) (fun _ _ => True) := by
  have htame : Tamed N (· = w) any (Sfs.foundFile w p) := tamed_foundFile rfl
  refine Contract.Triple.pre (P := fun _ => True) ?_ fun _ _ _ => trivial
  exact (htame.places (fun z hz => hz ▸ o.dir) robust_true).post fun _ _ _ _ => trivial

theorem Own.fullScan (o : Own U A I w) {ps : List Nat} (hps : ∀ p ∈ ps, p < N) :
    Places N h U (At I w Slotted) (fullScan w ps) (fun _ _ => True) := by
  induction ps with
  | nil => exact .ret (o.robust_at lasting_slotted).stable fun _ _ _ => trivial
  | cons p ps ih =>
    have hp := hps p (.head _)
    have hrest := ih fun q hq => hps q (.tail _ hq)
    refine (o.probe true hp).bind fun i => ?_
    split
    · exact hrest.pre fun _ _ hs => hs.imp And.left
    · exact o.foundFile
    · exact (o.checkFound hp).bind fun _ => hrest

theorem Own.normalScan (o : Own U A I w) {ps : List Nat} (hps : ∀ p ∈ ps, p < N) :
    Places N h U (At I w Slotted) (normalScan N w ps) (fun _ _ => True) := by
  induction ps with
  | nil => exact .ret (o.robust_at lasting_slotted).stable fun _ _ _ => trivial
  | cons p ps ih =>
    have hp := hps p (.head _)
    refine (o.probe false hp).bind fun i => ?_
    split
    · exact (ih fun q hq => hps q (.tail _ hq)).pre fun _ _ hs => hs.imp And.left
    · exact o.foundFile
    · exact (o.checkFound hp).bind fun _ => o.fullScan forall_mem_range

/-- A dentry that is put into the cache. -/
theorem Own.setD (o : Own U A I w) {P : Sys → Prop} {d : SfsDentry}
    (hP : (placeContract N h).Stable U P) (hd : Counted N d) (hbits : ∀ q, d.normalDirMap q = false)
    (hI : ∀ s, P s → Idles I s) (hφ : Lasting φ) (hφd : φ d) :
    Places N h U P (Sfs.setD w d) (fun _ => At I w φ) := by
  refine Contract.Triple.perform (f := .ret) place_lawful hP
    (T := fun _ => At I w φ) (fun _ _ _ => ⟨hd, fun _ _ q hq => ?_, o.dir⟩) ?_
    fun _ => o.leave hφ id
  · cases (hbits q).symm.trans hq
  · rintro s x t - hs ⟨hE, -⟩
    rcases hE with hE | ⟨hf, -⟩
    · cases hE
      exact ⟨(hI s hs).setD o.dir_not_idle, d, one_mem, hφd⟩
    · exact hf.elim

end Own

end Sfs
