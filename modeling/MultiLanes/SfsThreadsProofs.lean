import MultiLanes.InterleaveProofs
import MultiLanes.SfsFirstProofs
import MultiLanes.SfsDispatchProofs

/-! # SFS — calls that run at the same time

The VFS holds the `i_mutex` of the directories that a call works in, so that calls on
one directory come one after the other and all others interleave, request by request.
`placement` is the machine of the calls that place files and directories: mount, lookup,
create, mkdir, link and rename of a file, with failures of every operation, dentries
that are taken from the cache, and a restart at any moment.

`PlaceContract` says what is kept: `normal_dir_count` counts the bits of
`normal_dir_map`.  When the runs are heedful, so that a directory is only marked by who
knows of its other marks, there are also never more marks than the threshold. -/

namespace Sfs

open InteractProg Function List

/-! ## The machine -/

/-- What runs: a mount, or a call. -/
inductive Task
  | mount
  | call (o : Op)

def Task.code (N : Nat) : Task → DirCode Int
  | .mount => lift (mountRoot N)
  | .call o => o.code N

/-- The dentries that a call has for itself: the directories whose `i_mutex` is held for it,
    and the names in them that it is about.  A name is not a directory that another call
    works in at the time: it is not cached, negative or a file. -/
def Op.Holds : Op → Path → Prop
  | .link _ y, w => w = y.tail ∨ w = y
  | .rename x y, w | .renameDir x y, w =>
    (w = x.tail ∨ w = x) ∨ (w = y.tail ∨ w = y)
  | .lookup z, w | .create z, w | .mkdir z, w | .unlink z, w | .rmdir z, w =>
    w = z.tail ∨ w = z

def Task.Holds : Task → Path → Prop
  | .mount, w => w = []
  | .call o, w => o.Holds w

/-- The calls that place files and directories. -/
def Op.Places : Op → Prop
  | .lookup _ | .create _ | .mkdir _ | .link _ _ | .rename _ _ => True
  | .unlink _ | .rmdir _ | .renameDir _ _ => False

def Task.Ready (s : Sys) : Task → Prop
  | .mount => ∀ x, s.mem x = none
  | .call o => o.Places ∧ o.Ready s

/-- The replica in partition `p` is marked normal. -/
def Disk.marked (d : Disk) (x : Path) (p : Nat) : Bool :=
  decide (d.node x p = some (.dir true))

/-- A mark is set where all other marks are known, and what is renamed is not a directory. -/
def Heed (N : Nat) : SfsReq → Sys → Prop
  | .setNormal x _, s => s.Has x (fun d =>
    ∀ q < N, s.disk.marked x q = true → d.normalDirMap q = true)
  | .rename x _ p, s => ∀ b, s.disk.node x p ≠ some (.dir b)
  | _, _ => True

/-- Every operation may fail; `h` when the runs are heedful. -/
def placeEnv (N : Nat) (h : Prop) : Env SfsSig Sys := fun q s a t =>
  frail q s a t ∧ (h → Heed N q s)

def placeDirEnv (N : Nat) (h : Prop) : Env DirSig Sys
  | .sfs q, s, a, t => placeEnv N h q s a t
  | q, s, a, t => dirEnv q s a t

/-- A dentry is taken from the cache when no call has it for itself.  After a
    restart the disks and the counter are what they were. -/
def placement (N : Nat) (h : Prop) : Machine DirSig Sys (Path → Prop) Int where
  env := placeDirEnv N h
  starts w s := ∃ k : Task, k.Ready s ∧ w = ⟨k.Holds, k.code N⟩
  apart U V := ∀ x, U x → ¬ V x
  drifts O s t := ∃ x, (∀ U, O U → ¬ U x) ∧ t = s.forget x
  boots s t := t = { s with mem := fun _ => none }

/-- The partitions are not marked, and nothing is mounted. -/
def Unmarked (s : Sys) : Prop :=
  (∀ x, s.mem x = none) ∧ (∀ x p, s.disk.marked x p = false) ∧ s.lastDispatch = 0

/-! ## The contract -/

/-- The count is that of the bits. -/
structure Counted (N : Nat) (d : SfsDentry) : Prop where
  honest : Honest N d
  count : d.normalDirCount = (range N).countP d.normalDirMap

/-- The bits of a directory are its marks. -/
def Truthful (D : Disk) (x : Path) (d : SfsDentry) : Prop :=
  d.replicaId = none → ∀ p, d.normalDirMap p = true → D.marked x p = true

/-- The bits say nothing: it is a file, or there are none. -/
def Idle (d : SfsDentry) : Prop :=
  d.replicaId ≠ none ∨ ∀ p, d.normalDirMap p = false

structure PlaceInv (N : Nat) (h : Prop) (s : Sys) : Prop where
  counted : ∀ {x d}, s.mem x = some d → Counted N d
  truthful : h → ∀ {x d}, s.mem x = some d → Truthful s.disk x d
  few : h → ∀ x, (range N).countP (s.disk.marked x) ≤ spanThreshold N

/-- What may be asked by who has `U` for itself: elsewhere slots are filled, and no more. -/
def PlaceMay (N : Nat) (h : Prop) (U : Path → Prop) : SfsReq → Sys → Prop
  | .modD z f, s => ∀ d, s.mem z = some d →
      Counted N (f d) ∧ (h → Truthful s.disk z (f d)) ∧ (U z ∨ Filled d (f d))
  | .setD z d, s => Counted N d ∧ (h → Truthful s.disk z d) ∧ U z
  | .moveD x y, s => U x ∧ U y ∧ ∀ d, s.mem x = some d → Idle d
  | .setNormal x p, s => s.Has x (fun d =>
    d.normalDirMap p = false ∧ d.normalDirCount < spanThreshold N)
  | .rmdir _ _, _ => False
  | _, _ => True

/-- Nothing, or slots are filled. -/
def Left (s t : Sys) (w : Path) : Prop :=
  (s.mem w = none ∧ t.mem w = none)
    ∨ ∃ d d', s.mem w = some d ∧ t.mem w = some d' ∧ Filled d d'

structure PlaceRely (h : Prop) (U : Path → Prop) (s t : Sys) : Prop where
  left : ∀ w, U w → Left s t w
  marks : h → ∀ x p, s.disk.marked x p = true → t.disk.marked x p = true

def placeContract (N : Nat) (h : Prop) : Contract SfsSig Sys (Path → Prop) :=
  ⟨PlaceInv N h, PlaceMay N h, PlaceRely h⟩

/-- See `PlaceMay`. -/
def PlaceDirMay (N : Nat) (h : Prop) (U : Path → Prop) : DirReq → Sys → Prop
  | .sfs q, s => PlaceMay N h U q s
  | .firstNormal _, _ => True
  | .shrink _, _ => False
  | .moveTree _ _, _ => False

def placeDirContract (N : Nat) (h : Prop) : Contract DirSig Sys (Path → Prop) :=
  ⟨PlaceInv N h, PlaceDirMay N h, PlaceRely h⟩

/-! ## Stores -/

section Stores

variable {N : Nat} {D : Disk} {s t u : Sys} {x w : Path} {d d' d'' : SfsDentry} {p : Nat}

theorem Filled.refl (d : SfsDentry) : Filled d d :=
  ⟨⟨rfl, rfl, rfl⟩, rfl, rfl, rfl, fun _ h => h⟩

theorem Filled.trans (h : Filled d d') (h' : Filled d' d'') : Filled d d'' where
  map := ⟨h'.map.1.trans h.map.1, h'.map.2.1.trans h.map.2.1, h'.map.2.2.trans h.map.2.2⟩
  positive := h'.positive.trans h.positive
  replicaId := h'.replicaId.trans h.replicaId
  counter := h'.counter.trans h.counter
  slots p hp := h'.slots p (h.slots p hp)

theorem Left.refl (s : Sys) (w : Path) : Left s s w := by
  cases hd : s.mem w with
  | none => exact .inl ⟨hd, hd⟩
  | some d => exact .inr ⟨d, d, hd, hd, .refl d⟩

theorem Left.same (h : t.mem w = s.mem w) : Left s t w := by
  rcases Left.refl s w with ⟨h₁, -⟩ | ⟨d, -, hd, -, hf⟩
  · exact .inl ⟨h₁, h.trans h₁⟩
  · exact .inr ⟨d, d, hd, h.trans hd, .refl d⟩

theorem Left.trans (h : Left s t w) (h' : Left t u w) : Left s u w := by
  rcases h with ⟨hs, ht⟩ | ⟨d, d', hs, ht, hf⟩
  · rcases h' with ⟨-, hu⟩ | ⟨e, -, he, -, -⟩
    · exact .inl ⟨hs, hu⟩
    · cases ht.symm.trans he
  · rcases h' with ⟨ht', -⟩ | ⟨e, e', he, hu, hf'⟩
    · cases ht.symm.trans ht'
    · cases ht.symm.trans he
      exact .inr ⟨d, e', hs, hu, hf.trans hf'⟩

/-- What is known of a dentry in which slots are filled. -/
theorem Left.has {φ : SfsDentry → Prop} (h : Left s t w) (hs : s.Has w φ)
    (hφ : ∀ {d d'}, Filled d d' → φ d → φ d') : t.Has w φ := by
  obtain ⟨e, he, hφe⟩ := hs
  rcases h with ⟨hn, -⟩ | ⟨d, d', hd, hd', hf⟩
  · cases hn.symm.trans he
  · cases hd.symm.trans he
    exact ⟨d', hd', hφ hf hφe⟩

/-- The bits stay. -/
theorem Counted.same (h : Counted N d) (hd : Honest N d') (hs : SameMap d d') : Counted N d' :=
  ⟨hd, by rw [hs.2.1, hs.1]; exact h.count⟩

theorem Counted.empty (hd : Honest N d) (h0 : d.normalDirCount = 0)
    (hmap : ∀ p, d.normalDirMap p = false) : Counted N d := by
  refine ⟨hd, ?_⟩
  rw [h0, show d.normalDirMap = fun _ => false from funext hmap, countP_false]
  rfl

theorem counted_fresh (hN : 0 < N) : Counted N SfsDentry.fresh :=
  .empty (honest_fresh hN) rfl fun _ => rfl

theorem Counted.retained (h : Counted N d) (hd : Honest N d')
    (hr : Retained d d') : Counted N d' := by
  rcases hr with ⟨hs, -⟩ | ⟨h0, hmap⟩
  · exact h.same hd hs
  · exact .empty hd h0 hmap

/-- A bit is set, and counted. -/
theorem Counted.addNormal (h : Counted N d) (hp : p < N) (hoff : d.normalDirMap p = false)
    {f : Option Nat} (hf : ∃ q, f = some q ∧ (q = p ∨ d.normalDirMap q = true)) :
    Counted N { d.addNormal p with firstNormalDirId := f } := by
  refine ⟨h.honest.addNormal hp hf, ?_⟩
  show d.normalDirCount + 1 = (range N).countP (update d.normalDirMap p true)
  rw [countP_update nodup_range (mem_range.mpr hp) hoff, h.count]

theorem Counted.turnNormal (h : Counted N d) (hp : p < N)
    (hoff : d.normalDirMap p = false) : Counted N (d.turnNormal p) :=
  h.addNormal hp hoff (h.honest.first_turned p)

theorem Truthful.filled (h : Truthful D x d) (hf : Filled d d') : Truthful D x d' := by
  intro hn p hp
  rw [hf.map.1] at hp
  exact h (hf.replicaId.symm.trans hn) p hp

theorem Truthful.retained (h : Truthful D x d) (hr : Retained d d') : Truthful D x d' := by
  intro hn p hp
  rcases hr with ⟨hs, hid⟩ | ⟨-, hmap⟩
  · rw [hs.1] at hp
    exact h (hid hn) p hp
  · cases (hmap p).symm.trans hp

theorem Truthful.addNormal (h : Truthful D x d) (hm : D.marked x p = true) {f : Option Nat} :
    Truthful D x { d.addNormal p with firstNormalDirId := f } := by
  intro hn q hq
  by_cases hqp : q = p
  · rw [hqp]
    exact hm
  · refine h hn q (Eq.trans ?_ hq)
    exact (update_of_ne hqp ..).symm

theorem Idle.truthful (h : Idle d) : Truthful D x d := by
  intro hn p hp
  rcases h with h | h
  · exact absurd hn h
  · cases (h p).symm.trans hp

theorem Idle.filled (hf : Filled d d') (h : Idle d) : Idle d' := by
  refine h.imp (fun h => ?_) (fun h p => ?_)
  · rw [hf.replicaId]
    exact h
  · rw [hf.map.1]
    exact h p

theorem Idle.retained (hr : Retained d d') (h : Idle d) : Idle d' := by
  rcases hr with ⟨hs, hid⟩ | ⟨-, hmap⟩
  · refine h.imp (fun h hn => h (hid hn)) (fun h p => ?_)
    rw [hs.1]
    exact h p
  · exact .inr hmap

end Stores

/-! ## Marks -/

section Marks

variable {N : Nat} {h : Prop} {d : Disk} {s t : Sys} {x y z : Path} {p q : Nat}

theorem marked_iff : d.marked x p = true ↔ d.node x p = some (.dir true) :=
  decide_eq_true_iff

/-- Storing what is no mark, where there is none, changes no mark. -/
theorem marked_setNode {o : Option Obj} (hold : d.node x p ≠ some (.dir true))
    (ho : o ≠ some (.dir true)) :
    (d.setNode x p o).marked = d.marked := by
  funext y q
  unfold Disk.marked Disk.setNode
  by_cases h : y = x ∧ q = p
  · obtain ⟨rfl, rfl⟩ := h
    simp [hold, ho]
  · simp [h]

theorem marked_setNormal :
    (d.setNode x p (some (.dir true))).marked x = update (d.marked x) p true := by
  funext q
  unfold Disk.marked Disk.setNode
  by_cases h : q = p
  · simp [h]
  · simp [h]

/-- What changes a disk changes marks in two cases only, and when a directory is renamed. -/
theorem marked_step {q : SfsReq} {a : q.Ans} {d' : Disk} (hs : d.step q = some (a, d'))
    (hset : ∀ x p, q ≠ .setNormal x p) (hrm : ∀ x p, q ≠ .rmdir x p)
    (hren : ∀ x y p, q = .rename x y p → ∀ b, d.node x p ≠ some (.dir b)) :
    d'.marked = d.marked := by
  cases q with
  | mkdir x p =>
    simp only [Disk.step] at hs
    split at hs
    · next hn =>
      cases hs
      exact marked_setNode (by simp [hn]) (by simp)
    · cases hs
      rfl
  | create x p =>
    simp only [Disk.step] at hs
    split at hs
    · next hn =>
      cases hs
      exact marked_setNode (by simp [hn]) (by simp)
    · cases hs
      rfl
  | link x y p =>
    simp only [Disk.step] at hs
    split at hs
    · next hx hy =>
      cases hs
      exact marked_setNode (by simp [hy]) (by simp [hx])
    all_goals
      cases hs
      rfl
  | setxattr p i b =>
    cases hs
    rfl
  | rename x y p =>
    have hno := hren x y p rfl
    simp only [Disk.step] at hs
    split at hs
    · cases hs
      rfl
    · cases hs
      rfl
    · next i hx hy =>
      cases hs
      have hclear : (d.setNode x p none).marked = d.marked :=
        marked_setNode (hno true) (by simp)
      refine Eq.trans (marked_setNode ?_ (hno true)) hclear
      intro hm
      have hm' : d.marked y p = true := by
        rw [← hclear]
        exact marked_iff.mpr hm
      exact hy true (marked_iff.mp hm')
    all_goals exact absurd ‹d.node x p = _› (hno _)
  | unlink x p =>
    simp only [Disk.step] at hs
    split at hs
    · cases hs
      rfl
    · cases hs
      rfl
    · next hn =>
      cases hs
      exact marked_setNode (by simp [hn]) (by simp)
  | setNormal x p => exact absurd rfl (hset x p)
  | rmdir x p => exact absurd rfl (hrm x p)
  | _ => cases hs

theorem marked_setNormal_of_ne (hy : y ≠ x) :
    (d.setNode x p (some (.dir true))).marked y = d.marked y := by
  funext q
  unfold Disk.marked Disk.setNode
  simp [hy]

theorem countP_update_le {f : Nat → Bool} :
    (range N).countP (update f p true) ≤ (range N).countP f + 1 := by
  by_cases hp : p ∈ range N
  · cases hf : f p with
    | false => exact Nat.le_of_eq (countP_update nodup_range hp hf)
    | true =>
      rw [← hf, update_eq_self]
      exact Nat.le_succ _
  · have hsame : (range N).countP (update f p true) = (range N).countP f := by
      refine countP_congr fun q hq => ?_
      have hqp : q ≠ p := fun h => hp (h ▸ hq)
      rw [update_of_ne hqp]
    rw [hsame]
    exact Nat.le_succ _

/-- Who knows all marks and is under the threshold may set one more. -/
theorem few_setNormal {e e' : SfsDentry} (he : s.mem x = some e) (hc : Counted N e)
    (hlt : e.normalDirCount < spanThreshold N) (he' : s.mem x = some e')
    (hknown : ∀ q < N, s.disk.marked x q = true → e'.normalDirMap q = true) :
    (range N).countP (update (s.disk.marked x) p true) ≤ spanThreshold N := by
  cases he.symm.trans he'
  calc (range N).countP (update (s.disk.marked x) p true)
      ≤ (range N).countP (s.disk.marked x) + 1 := countP_update_le
    _ ≤ (range N).countP e.normalDirMap + 1 :=
        Nat.succ_le_succ (countP_mono_left fun q hq =>
          hknown q (mem_range.mp hq))
    _ = e.normalDirCount + 1 := by rw [hc.count]
    _ ≤ spanThreshold N := hlt

theorem frail_disk {q : SfsReq} {a : q.Ans} (hE : frail q s a t) :
    t.disk = s.disk ∨ s.disk.step q = some (a, t.disk) := by
  rcases hE with hE | ⟨-, rfl⟩
  · exact disk_or_step hE
  · exact .inl rfl

/-- In heedful runs marks stay, and are never too many. -/
theorem marks_after {q : SfsReq} {a : q.Ans} {U : Path → Prop} (hh : h)
    (hi : PlaceInv N h s) (hm : PlaceMay N h U q s) (hE : placeEnv N h q s a t) :
    (∀ x p, s.disk.marked x p = true → t.disk.marked x p = true)
      ∧ ∀ x, (range N).countP (t.disk.marked x) ≤ spanThreshold N := by
  have hsame : t.disk.marked = s.disk.marked →
      (∀ x p, s.disk.marked x p = true → t.disk.marked x p = true)
        ∧ ∀ x, (range N).countP (t.disk.marked x) ≤ spanThreshold N := by
    intro heq
    rw [heq]
    exact ⟨fun _ _ h => h, hi.few hh⟩
  rcases frail_disk hE.1 with hd | hstep
  · exact hsame (by rw [hd])
  · by_cases hq : ∃ x p, q = .setNormal x p
    · obtain ⟨x, p, rfl⟩ := hq
      simp only [Disk.step] at hstep
      split at hstep
      · exact hsame (by rw [(answer_inj hstep).2])
      · exact hsame (by rw [(answer_inj hstep).2])
      · rw [← (answer_inj hstep).2]
        obtain ⟨e, he, -, hlt⟩ := hm
        obtain ⟨e', he', hknown⟩ := hE.2 hh
        refine ⟨fun y q hy => ?_, fun y => ?_⟩
        · by_cases hyx : y = x
          · subst hyx
            rw [marked_setNormal, update_apply]
            split
            · rfl
            · exact hy
          · rw [marked_setNormal_of_ne hyx]
            exact hy
        · by_cases hyx : y = x
          · subst hyx
            rw [marked_setNormal]
            exact few_setNormal he (hi.counted he) hlt he' hknown
          · rw [marked_setNormal_of_ne hyx]
            exact hi.few hh y
    · refine hsame (marked_step hstep (fun x p hxp => hq ⟨x, p, hxp⟩) ?_ ?_)
      · rintro x p rfl
        exact hm
      · rintro x y p rfl
        exact hE.2 hh

end Marks

/-! ## The laws -/

section Laws

variable {N : Nat} {h : Prop} {U V : Path → Prop} {s t : Sys} {q : SfsReq}
  {a : q.Ans} {w : Path}

/-- What is not its own an owner only fills. -/
theorem left_of_may (hm : PlaceMay N h U q s) (hE : frail q s a t) (hw : ¬ U w) : Left s t w := by
  rcases frail_mem hE with hmem | ⟨x, d, rfl, rfl⟩
      | ⟨x, f, d, rfl, hd, rfl⟩ | ⟨x, y, rfl, rfl⟩
  · exact .same (by rw [hmem])
  · have hne : w ≠ x := by
      rintro rfl
      exact hw hm.2.2
    exact .same (one_mem_of_ne hne)
  · by_cases hwx : w = x
    · subst hwx
      have hf := (hm d hd).2.2.resolve_left hw
      exact .inr ⟨d, f d, hd, one_mem, hf⟩
    · exact .same (one_mem_of_ne hwx)
  · have hx : w ≠ x := by
      rintro rfl
      exact hw hm.1
    have hy : w ≠ y := by
      rintro rfl
      exact hw hm.2.1
    exact .same (moveD_mem_of_ne hx hy)

/-- A dentry is stored. -/
theorem PlaceInv.setD {x : Path} {d : SfsDentry} (hi : PlaceInv N h s)
    (hc : Counted N d) (ht : h → Truthful s.disk x d) :
    PlaceInv N h (s.setD x d) where
  counted {z e} he := by
    rcases one_some he with ⟨-, rfl⟩ | ⟨-, he⟩
    · exact hc
    · exact hi.counted he
  truthful hh {z e} he := by
    rcases one_some he with ⟨rfl, rfl⟩ | ⟨-, he⟩
    · exact ht hh
    · exact hi.truthful hh he
  few := hi.few

theorem PlaceInv.keep (hi : PlaceInv N h s) (hm : PlaceMay N h U q s)
    (hE : placeEnv N h q s a t) : PlaceInv N h t := by
  have hsame : t.mem = s.mem → PlaceInv N h t := by
    intro hmem
    refine ⟨fun he => hi.counted (hmem ▸ he), fun hh {x d} he hn p hp => ?_,
      fun hh => (marks_after hh hi hm hE).2⟩
    rw [hmem] at he
    exact (marks_after hh hi hm hE).1 x p (hi.truthful hh he hn p hp)
  rcases frail_mem hE.1 with hmem | ⟨x, d, rfl, rfl⟩
      | ⟨x, f, d, rfl, hd, rfl⟩ | ⟨x, y, rfl, rfl⟩
  · exact hsame hmem
  · exact hi.setD hm.1 hm.2.1
  · obtain ⟨hc, ht, -⟩ := hm d hd
    exact hi.setD hc ht
  · obtain ⟨-, -, hidle⟩ := hm
    refine ⟨fun he => ?_, fun hh {z d} he => ?_, hi.few⟩
    · rcases moveD_mem he with ⟨-, he⟩ | he
      · exact hi.counted he
      · exact hi.counted he
    · rcases moveD_mem he with ⟨-, hx⟩ | hz
      · exact (hidle d hx).truthful
      · exact hi.truthful hh hz

theorem PlaceRely.refl (s : Sys) : PlaceRely h U s s :=
  ⟨fun w _ => .refl s w, fun _ _ _ hm => hm⟩

theorem place_lawful : (placeContract N h).Lawful (placeEnv N h) (fun U V => ∀ x, U x → ¬ V x) where
  refl _ s := PlaceRely.refl s
  trans h₁ h₂ := ⟨fun w hw => (h₁.left w hw).trans (h₂.left w hw),
    fun hh x p hm => h₂.marks hh x p (h₁.marks hh x p hm)⟩
  keep hi hm hE := PlaceInv.keep hi hm hE
  bear hap hi hm hE := ⟨fun w hw => left_of_may hm hE.1 fun hU => hap w hU hw,
    fun hh => (marks_after hh hi hm hE).1⟩

theorem placeDir_lawful : (placeDirContract N h).Lawful (placeDirEnv N h)
    (fun U V => ∀ x, U x → ¬ V x) where
  refl := place_lawful (N := N).refl
  trans := place_lawful (N := N).trans
  keep {k q s x t} hi hm hE := by
    cases q with
    | sfs q => exact place_lawful.keep hi hm hE
    | firstNormal z =>
      obtain ⟨-, rfl⟩ := hE
      exact hi
    | shrink z => exact hm.elim
    | moveTree z y => exact hm.elim
  bear {k l q s x t} hap hi hm hE := by
    cases q with
    | sfs q => exact place_lawful.bear hap hi hm hE
    | firstNormal z =>
      obtain ⟨-, rfl⟩ := hE
      exact PlaceRely.refl _
    | shrink z => exact hm.elim
    | moveTree z y => exact hm.elim

end Laws

end Sfs
