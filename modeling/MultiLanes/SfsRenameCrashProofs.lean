import MultiLanes.SfsCachedProofs

/-! # SFS — a rename that crashes or fails

After a crash in the middle of a rename, or after a rename that returned an error, the
two names are looked up from a fresh mount.  For each branch of `rename2non` and
`rename2exist` the columns on its course are given to `Finds`.  They recover EXACTLY
when the links that the branch writes lead to what they are meant to lead to
(`Recoverable`); in every other configuration there is a moment at which they do not. -/

namespace Sfs

open InteractProg Function List

/-- The source's directory becomes normal where the data file is, and a lookup
    then meets the data file before the meta file. -/
def Exposed (x y : Path) (f : File) : Prop :=
  x.tail = y.tail ∧ ∃ m ∈ f.parted, f.data < m.1

/-- A link from the source to partition `q` does no harm: a lookup comes by the
    meta file, or the source's directory is there. -/
def Linkable (d : Disk) (x : Path) (f : File) (q : Nat) : Prop :=
  f.parted ≠ none ∨ d.Holds x.tail q

/-- What a rename over the file `g` depends on. -/
def RecoverableOver (N : Nat) (d : Disk) (x y : Path) (f g : File) : Prop :=
  match d.canTurn N y.tail f.data, g.parted with
  | true, none => (g.data = f.data ∨ Linkable d x f g.data) ∧ ¬ Exposed x y f
  | true, some m =>
    ((g.data = f.data ∧ m.1 ≤ f.data) ∨ m.1 = f.data) ∧ ¬ Exposed x y f
  | false, none => Linkable d x f g.data
  | false, some m => g.data = f.data ∧ Linkable d x f m.1

/-- The renames that a lookup can finish or undo. -/
def Recoverable (N : Nat) (d : Disk) (x y : Path) (f : File) : Option File → Prop
  | none => d.canTurn N y.tail f.data = true ∧ ¬ Exposed x y f
  | some g => RecoverableOver N d x y f g

/-- The names are as before, or the old one is absent and the new one is the source. -/
def Atomic (N : Nat) (x y : Path) (d₀ d : Disk) : Prop :=
  (seenAt N d x = seenAt N d₀ x ∧ seenAt N d y = seenAt N d₀ y)
    ∨ (seenAt N d x = some none ∧ seenAt N d y = seenAt N d₀ x)

/-- The names are as before. -/
def Unchanged (N : Nat) (x y : Path) (d₀ d : Disk) : Prop :=
  seenAt N d x = seenAt N d₀ x ∧ seenAt N d y = seenAt N d₀ y

/-! ## What is seen on the way -/

/-- A rename, and the state in which its two names are worked on. -/
structure Stand (N : Nat) (D P : Path → Prop) (x y : Path) (f : File)
    (G : Option File) (s t : Sys) : Prop where
  scene : Scene N D P s x y f G
  entry : Entry N D P x y f G s t

/-- The links of a plain source that do no harm to it. -/
def Harmless (d : Disk) (Z : Path) (o : Nat) (a : Option Ptrs) : Prop :=
  NoLinks a ∨ a = some (renameTo o) ∨ ∃ q, q ≠ o ∧ d.Holds Z q
      ∧ (a = some (staleAt q) ∨ a = some (renameTo q))

section Sights

variable {N : Nat} {D P : Path → Prop} {s t : Sys} {x y : Path} {f g : File}
  {G : Option File} {cx cy : Column} {d : Disk} {a b : Option Ptrs}
  {p q i j : Nat} {r : Option (Nat × Nat)}

theorem Stand.seen_old (h : Stand N D P x y f G s t) : seenAt N s.disk x = some (some f.at) :=
  h.scene.old.named.finds.sees h.scene.world h.scene.pos h.scene.old.dir h.scene.old.file

theorem Stand.seen_new (h : Stand N D P x y f G s t) : seenAt N s.disk y = some (G.map File.at) :=
  h.scene.new.named.finds.sees h.scene.world h.scene.pos h.scene.new.dir h.scene.new.file

theorem Stand.sees_old (h : Stand N D P x y f G s t)
    (hv : View N D P t.disk x y cx cy d) (hf : Finds d x r) :
    seenAt N d x = some r :=
  hf.sees hv.world h.scene.pos h.scene.old.dir h.scene.old.file

theorem Stand.sees_new (h : Stand N D P x y f G s t)
    (hv : View N D P t.disk x y cx cy d) (hf : Finds d y r) :
    seenAt N d y = some r :=
  hf.sees hv.world h.scene.pos h.scene.new.dir h.scene.new.file

section

variable (hS : Stand N D P x y f G s t) (hv : View N D P t.disk x y cx cy d)
include hS hv

theorem View.normal_old :
    d.node x.tail p = some (.dir true) ↔ s.disk.node x.tail p = some (.dir true)
        ∨ (s.disk.canTurn N y.tail f.data = true ∧ x.tail = y.tail ∧ p = f.data) := by
  rw [hv.dirs hS.scene.old.dir]
  exact hS.entry.grown.normal_iff

theorem View.normal_new :
    d.node y.tail p = some (.dir true) ↔ s.disk.node y.tail p = some (.dir true)
        ∨ (s.disk.canTurn N y.tail f.data = true ∧ p = f.data) := by
  rw [hv.dirs hS.scene.new.dir, hS.entry.grown.normal_iff]
  simp

/-- The target directory has a replica where the source is. -/
theorem View.holds_new : d.Holds y.tail f.data :=
  (hv.holds hS.scene.new.dir).mpr hS.entry.grown.there

theorem View.holds_of {Z : Path} (hZ : D Z) (h : s.disk.Holds Z p) : d.Holds Z p :=
  (hv.holds hZ).mpr (hS.entry.grown.holds h)

end

theorem World.holds_or (w : World N D d) {Z : Path} (hZ : D Z) :
    d.Holds Z p ∨ d.node Z p = none := by
  cases hn : d.node Z p with
  | none => exact .inr rfl
  | some o =>
    obtain ⟨b, rfl⟩ := w.dir_of hZ hn
    exact .inl ⟨b, hn⟩

section

variable (h : Stand N D P x y f G s t)
include h

/-- The source while it is not moved. -/
theorem Stand.source (hv : View N D P t.disk x y (f.colWith a) cy d)
    (hexp : s.disk.canTurn N y.tail f.data = true → ¬ Exposed x y f)
    (ha : f.parted = none → Harmless d x.tail f.data a) :
    seenAt N d x = some (some f.at) := by
  refine h.sees_old hv ?_
  have hfit := h.scene.old.named.fits f rfl
  cases hm : f.parted with
  | none =>
    have hcol := hv.left
    rw [File.colWith_plain hm] at hcol
    have hfirst := First.of_only hcol ((hv.normal_old h).mpr (.inl (hfit.plain hm).1))
    have hnone : ∀ {q}, q ≠ f.data → d.col x q = none := by
      intro q hq
      rw [hcol]
      exact only_of_ne hq
    rcases ha hm with ha | rfl | ⟨q, hq, hh, rfl | rfl⟩
    · exact .plain hfirst ha
    · exact .self hfirst
    · exact .staleGone hfirst hq hh (hnone hq)
    · exact .unrenamed hfirst hq hh (hnone hq)
  | some m =>
    obtain ⟨hmn, hon, -⟩ := hfit.split hm
    refine finds_parted hm (hfit.meta_ne hm) hv.left
      ((hv.normal_old h).mpr (.inl hmn)) (fun hn => ?_)
    rcases (hv.normal_old h).mp hn with hn | ⟨hturn, htail, -⟩
    · exact absurd hn hon
    · exact not_lt.mp (fun hlt => hexp hturn ⟨htail, m, hm, hlt⟩)

/-- The old name after the source was moved. -/
theorem Stand.left_over (hv : View N D P t.disk x y f.rest cy d) : seenAt N d x = some none := by
  have hfit := h.scene.old.named.fits f rfl
  have hh := h.scene.world.parent h.scene.old.file h.scene.old.named.data_node
  refine h.sees_old hv (finds_rest hv.left (hv.holds_of h h.scene.old.dir hh)
    (fun m hm => ⟨hfit.meta_ne hm, (hv.normal_old h).mpr (.inl ?_)⟩))
  exact (hfit.split hm).1

theorem Stand.absent_old (hv : View N D P t.disk x y noFile cy d) : seenAt N d x = some none :=
  h.sees_old hv (finds_noFile hv.left)

/-- The source is met at its data file, whose pointer leads to the meta file. -/
theorem Stand.exposed (hturn : s.disk.canTurn N y.tail f.data = true)
    (hexp : Exposed x y f) (hv : View N D P t.disk x y f.col cy d) :
    ∃ m ∈ f.parted, m.1 ≠ f.data ∧ seenAt N d x = some (some m) := by
  obtain ⟨htail, m, hm, hlt⟩ := hexp
  have hfit := h.scene.old.named.fits f rfl
  have hne := hfit.meta_ne hm
  have hcol := hv.left
  rw [File.col, File.colWith_parted hm, (hfit.split hm).2.2, both_comm hne] at hcol
  have hmeta : d.col x m.1 = some (m.2, some (pointerTo f.data)) := by
    rw [hcol]
    exact both_right hne
  have hfirst := First.of_both hcol ((hv.normal_old h).mpr (.inr ⟨hturn, htail, rfl⟩))
    (fun _ => le_of_lt hlt)
  exact ⟨m, hm, hne, h.sees_old hv (.pointed hfirst hne hmeta)⟩

/-- A plain source with a link to a partition where its directory is not. -/
theorem Stand.stumbles (hp : f.parted = none) (hq : q ≠ f.data)
    (hno : ¬ s.disk.Holds x.tail q) (ha : a = some (staleAt q) ∨ a = some (renameTo q))
    (hv : View N D P t.disk x y (f.colWith a) cy d) : seenAt N d x = none := by
  have hfit := h.scene.old.named.fits f rfl
  have hcol := hv.left
  rw [File.colWith_plain hp] at hcol
  have hfirst := First.of_only hcol ((hv.normal_old h).mpr (.inl (hfit.plain hp).1))
  have hnone : d.node x.tail q = none := by
    rw [hv.dirs h.scene.old.dir, h.entry.grown.other hq]
    exact (h.scene.world.holds_or h.scene.old.dir).resolve_left hno
  refine Stumbles.sees hv.world h.scene.pos h.scene.old.dir h.scene.old.file
    ⟨f.data, f.ino, q, hq, hnone, ?_⟩
  rcases ha with rfl | rfl
  · exact .inl hfirst
  · exact .inr (.inl hfirst)

/-- The new name, met in one partition only. -/
theorem Stand.target_only (hv : View N D P t.disk x y cx (only p (i, a)) d)
    (hp : d.node y.tail p = some (.dir true)) (ha : NoLinks a ∨ a = some (renameTo p)) :
    seenAt N d y = some (some (p, i)) := by
  have hfirst := First.of_only hv.right hp
  rcases ha with ha | rfl
  · exact h.sees_new hv (.plain hfirst ha)
  · exact h.sees_new hv (.self hfirst)

/-- The new name as it was, in a directory that may have become normal where the source is. -/
theorem Stand.target_same (hv : View N D P t.disk x y cx (column G) d)
    (hle : ∀ g ∈ G, ∀ m ∈ g.parted, s.disk.canTurn N y.tail f.data = true →
      g.data = f.data → m.1 ≤ f.data) :
    seenAt N d y = some (G.map File.at) := by
  refine h.sees_new hv ?_
  cases G with
  | none => exact finds_noFile hv.right
  | some g =>
    have hfit := h.scene.new.named.fits g rfl
    have hcol : d.col y = g.colWith g.attr := hv.right
    cases hm : g.parted with
    | none =>
      obtain ⟨hn, ha⟩ := hfit.plain hm
      rw [File.colWith_plain hm] at hcol
      exact .plain (First.of_only hcol ((hv.normal_new h).mpr (.inl hn))) ha
    | some m =>
      obtain ⟨hmn, hgn, -⟩ := hfit.split hm
      refine finds_parted hm (hfit.meta_ne hm) hcol
        ((hv.normal_new h).mpr (.inl hmn)) (fun hn => ?_)
      rcases (hv.normal_new h).mp hn with hn | ⟨hturn, hgo⟩
      · exact absurd hn hgn
      · rw [hgo]
        exact hle g rfl m hm hturn hgo

theorem Stand.before (hx : seenAt N d x = some (some f.at))
    (hy : seenAt N d y = some (G.map File.at)) : Unchanged N x y s.disk d :=
  ⟨hx.trans h.seen_old.symm, hy.trans h.seen_new.symm⟩

theorem Stand.after (hx : seenAt N d x = some none)
    (hy : seenAt N d y = some (some f.at)) : Atomic N x y s.disk d :=
  .inr ⟨hx, hy.trans h.seen_old.symm⟩

end

theorem Unchanged.atomic (h : Unchanged N x y s.disk d) : Atomic N x y s.disk d := .inl h

/-- The old name is neither the source nor absent. -/
theorem Stand.not_atomic_old (h : Stand N D P x y f G s t) {v : Option (Option (Nat × Nat))}
    (hx : seenAt N d x = v) (h₁ : v ≠ some (some f.at)) (h₂ : v ≠ some none) :
    ¬ Atomic N x y s.disk d := by
  rintro (⟨hx', -⟩ | ⟨hx', -⟩)
  · exact h₁ (hx.symm.trans (hx'.trans h.seen_old))
  · exact h₂ (hx.symm.trans hx')

/-- The new name is neither what it was nor the source. -/
theorem Stand.not_atomic_new (h : Stand N D P x y f G s t) {v : Option (Option (Nat × Nat))}
    (hy : seenAt N d y = v) (h₁ : v ≠ some (G.map File.at)) (h₂ : v ≠ some (some f.at)) :
    ¬ Atomic N x y s.disk d := by
  rintro (⟨-, hy'⟩ | ⟨-, hy'⟩)
  · exact h₁ (hy.symm.trans (hy'.trans h.seen_new))
  · exact h₂ (hy.symm.trans (hy'.trans h.seen_old))

theorem Stand.same (h : Stand N D P x y f G s t)
    (hv : View N D P t.disk x y (f.colWith a) (column G) d)
    (hexp : s.disk.canTurn N y.tail f.data = true → ¬ Exposed x y f)
    (ha : f.parted = none → Harmless d x.tail f.data a)
    (hle : ∀ g ∈ G, ∀ m ∈ g.parted, s.disk.canTurn N y.tail f.data = true →
      g.data = f.data → m.1 ≤ f.data) : Unchanged N x y s.disk d :=
  h.before (h.source hv hexp ha) (h.target_same hv hle)

/-- The links that the source had are harmless. -/
theorem Stand.harmless (h : Stand N D P x y f G s t) (hp : f.parted = none) :
    Harmless d x.tail f.data f.attr :=
  .inl ((h.scene.old.named.fits f rfl).plain hp).2

end Sights

/-! ## Verdicts -/

/-- The disks with these columns are all as `R` says. -/
def AllAt (N : Nat) (D P : Path → Prop) (x y : Path) (d₀ : Disk)
    (R : Disk → Prop) (c : Column × Column) : Prop :=
  ∀ {d}, View N D P d₀ x y c.1 c.2 d → R d

/-- The columns on the way, those left by an error and the last ones are good
    exactly when the rename is recoverable. -/
structure Verdict (N : Nat) (D P : Path → Prop) (x y : Path) (f : File)
    (G : Option File) (s t : Sys) (cs fs : List (Column × Column))
    (last : Column × Column) : Prop where
  atomic : Recoverable N s.disk x y f G →
    ∀ c ∈ cs, AllAt N D P x y t.disk (Atomic N x y s.disk) c
  ends : Recoverable N s.disk x y f G → AllAt N D P x y t.disk (Atomic N x y s.disk) last
  same : Recoverable N s.disk x y f G →
    ∀ c ∈ fs, AllAt N D P x y t.disk (Unchanged N x y s.disk) c
  torn : ¬ Recoverable N s.disk x y f G →
    ∃ c ∈ cs, AllAt N D P x y t.disk (fun d => ¬ Atomic N x y s.disk d) c
  broken : ¬ Recoverable N s.disk x y f G →
    ∃ c ∈ fs, AllAt N D P x y t.disk (fun d => ¬ Atomic N x y s.disk d) c

section Verdicts

variable {N : Nat} {D P : Path → Prop} {s t : Sys} {x y : Path} {f g : File}
  {G : Option File} {cy : Column} {p n : Nat} {m : Nat × Nat}
  {cs fs : List (Column × Column)} {last : Column × Column}

/-- The disks with these columns. -/
abbrev Stand.At (_ : Stand N D P x y f G s t) (cx cy : Column) (d : Disk) :
    Prop := View N D P t.disk x y cx cy d

/-- At these columns the names are as before. -/
abbrev Stand.Same (_ : Stand N D P x y f G s t) (c : Column × Column) : Prop :=
  AllAt N D P x y t.disk (Unchanged N x y s.disk) c

/-- At these columns they are as before or as after. -/
abbrev Stand.Good (_ : Stand N D P x y f G s t) (c : Column × Column) : Prop :=
  AllAt N D P x y t.disk (Atomic N x y s.disk) c

/-- At these columns they are neither. -/
abbrev Stand.Torn (_ : Stand N D P x y f G s t) (c : Column × Column) : Prop :=
  AllAt N D P x y t.disk (fun d => ¬ Atomic N x y s.disk d) c

section

variable (h : Stand N D P x y f G s t)
include h

theorem Stand.good {c : Column × Column} (hc : h.Same c) : h.Good c :=
  fun hv => (hc hv).atomic

/-- A branch is recoverable under the condition `C`; without it, some columns
    that are on the way and left by an error are torn. -/
theorem Stand.verdict {C : Prop} (hiff : Recoverable N s.disk x y f G ↔ C)
    (hcs : C → ∀ c ∈ cs, h.Good c) (hlast : C → h.Good last) (hfs : C → ∀ c ∈ fs, h.Same c)
    (hbad : ¬ C → ∃ c, c ∈ cs ∧ c ∈ fs ∧ h.Torn c) :
    Verdict N D P x y f G s t cs fs last where
  atomic hr := hcs (hiff.mp hr)
  ends hr := hlast (hiff.mp hr)
  same hr := hfs (hiff.mp hr)
  torn hno := by
    obtain ⟨c, hc, -, htorn⟩ := hbad (mt hiff.mpr hno)
    exact ⟨c, hc, htorn⟩
  broken hno := by
    obtain ⟨c, -, hc, htorn⟩ := hbad (mt hiff.mpr hno)
    exact ⟨c, hc, htorn⟩

/-- A branch that is never recoverable. -/
theorem Stand.hopeless {c c' : Column × Column} (hno : ¬ Recoverable N s.disk x y f G) (hc : c ∈ cs)
    (htorn : h.Torn c) (hc' : c' ∈ fs) (htorn' : h.Torn c') :
    Verdict N D P x y f G s t cs fs last :=
  ⟨fun hr => absurd hr hno, fun hr => absurd hr hno, fun hr => absurd hr hno,
    fun _ => ⟨c, hc, htorn⟩, fun _ => ⟨c', hc', htorn'⟩⟩

/-- After the move the old name is absent, with or without its meta file. -/
theorem Stand.settled (cy : Column)
    (hy : ∀ {cx d}, h.At cx cy d → seenAt N d y = some (some f.at)) :
    h.Good (f.rest, cy) ∧ (∀ c ∈ f.drop cy, h.Good c) ∧ h.Good (noFile, cy) := by
  have hrest : h.Good (f.rest, cy) :=
    fun hv => h.after (h.left_over hv) (hy hv)
  refine ⟨hrest, fun c hc => ?_, fun hv => h.after (h.absent_old hv) (hy hv)⟩
  unfold File.drop at hc
  split at hc
  · cases hc
  · rw [mem_singleton.mp hc]
    exact hrest

/-- The columns before the move, when the new name is as it was. -/
theorem Stand.unmoved {a : Option Ptrs}
    (hexp : s.disk.canTurn N y.tail f.data = true → ¬ Exposed x y f)
    (hle : ∀ g ∈ G, ∀ m ∈ g.parted, s.disk.canTurn N y.tail f.data = true →
      g.data = f.data → m.1 ≤ f.data)
    (ha : ∀ {d}, f.parted = none → Harmless d x.tail f.data a) :
    h.Same (f.colWith a, column G) :=
  fun hv => h.same hv hexp ha hle

/-- An exposed source is not found at the first moment. -/
theorem Stand.exposed_torn (hturn : s.disk.canTurn N y.tail f.data = true) (hexp : Exposed x y f) :
    h.Torn (f.col, cy) := by
  intro d hv
  obtain ⟨m, -, hne, hx⟩ := h.exposed hturn hexp hv
  refine h.not_atomic_old hx (fun h' => hne ?_) nofun
  exact congrArg Prod.fst (Option.some.inj (Option.some.inj h'))

/-- A plain source whose directory is not where its link leads to. -/
theorem Stand.unlinkable_torn {q : Nat} {a : Option Ptrs} (hno : ¬ Linkable s.disk x f q)
    (hq : q ≠ f.data) (ha : a = some (staleAt q) ∨ a = some (renameTo q)) :
    h.Torn (f.colWith a, cy) := by
  obtain ⟨hp, hh⟩ := not_or.mp hno
  exact fun hv => h.not_atomic_old (h.stumbles (not_not.mp hp) hq hh ha hv) nofun nofun

/-- The target directory is normal where the source comes to be. -/
theorem Stand.normal_there (hturn : s.disk.canTurn N y.tail f.data = true) {cx cy : Column}
    {d : Disk} (hv : h.At cx cy d) : d.node y.tail f.data = some (.dir true) :=
  (hv.normal_new h).mpr (.inr ⟨hturn, rfl⟩)

/-- The source alone, without a link or with one to itself. -/
theorem Stand.arrived {a : Option Ptrs}
    (hturn : s.disk.canTurn N y.tail f.data = true) (ha : NoLinks a ∨ a = some (renameTo f.data)) :
    h.Good (f.rest, only f.data (f.ino, a)) ∧ (∀ c ∈ f.drop (only f.data (f.ino, a)), h.Good c)
      ∧ h.Good (noFile, only f.data (f.ino, a)) :=
  h.settled _ (fun hv => h.target_only hv (h.normal_there hturn hv) ha)

end

theorem verdict_turn_plain (h : Stand N D P x y f none s t)
    (hturn : s.disk.canTurn N y.tail f.data = true) (hp : f.parted = none) :
    Verdict N D P x y f none s t ((turnPlain f).steps f) (turnPlain f).faults
      (noFile, (turnPlain f).last) := by
  have hexp : ¬ Exposed x y f := by
    rintro ⟨-, m, hm, -⟩
    cases hp.symm.trans hm
  have hsame : h.Same (f.col, noFile) :=
    h.unmoved (fun _ => hexp) nofun h.harmless
  have hset := h.arrived hturn (.inl ((h.scene.old.named.fits f rfl).plain hp).2)
  refine h.verdict (iff_true_intro ⟨hturn, hexp⟩) (fun _ => ?_)
    (fun _ => hset.2.2) (fun _ => ?_) (absurd trivial)
  · simp only [turnPlain, Way.steps, cons_append, nil_append, forall_mem_cons]
    exact ⟨h.good hsame, hset.2.1⟩
  · exact forall_mem_singleton.mpr hsame

theorem verdict_turn_parted (h : Stand N D P x y f none s t)
    (hturn : s.disk.canTurn N y.tail f.data = true) (hp : f.parted = some m) :
    Verdict N D P x y f none s t ((turnParted f).steps f) (turnParted f).faults
      (noFile, (turnParted f).last) := by
  have hsame : ¬ Exposed x y f → ∀ {a}, h.Same (f.colWith a, noFile) :=
    fun hexp _ => h.unmoved (fun _ => hexp) nofun (fun h' => nomatch hp.symm.trans h')
  have hreset := h.arrived hturn (.inl (.inr rfl))
  refine h.verdict (and_iff_right hturn) (fun hexp => ?_) (fun _ => hreset.2.2)
    (fun hexp => ?_) (fun hbad => ⟨_, .head _, .head _, h.exposed_torn hturn (not_not.mp hbad)⟩)
  · simp only [turnParted, Way.steps, cons_append, nil_append, forall_mem_cons]
    exact ⟨h.good (hsame hexp), h.good (hsame hexp), (h.arrived hturn (.inr rfl)).1, hreset.2.1⟩
  · simp only [turnParted, forall_mem_cons]
    exact ⟨hsame hexp, hsame hexp, nofun⟩

/-- The new meta file is found before it has its pointer. -/
theorem verdict_meta (h : Stand N D P x y f none s t)
    (hturn : s.disk.canTurn N y.tail f.data = false) (hpo : p ≠ f.data)
    (hpn : s.disk.node y.tail p = some (.dir true)) (hcs : (f.col, only p (n, none)) ∈ cs)
    (hfs : (f.col, only p (n, none)) ∈ fs) :
    Verdict N D P x y f none s t cs fs last := by
  have htorn : h.Torn (f.col, only p (n, none)) := by
    intro d hv
    refine h.not_atomic_new (h.target_only hv
      ((hv.normal_new h).mpr (.inl hpn)) (.inl (.inl rfl))) nofun ?_
    exact fun h' =>
      hpo (congrArg Prod.fst (Option.some.inj (Option.some.inj h')))
  exact h.hopeless (fun hr => nomatch hturn.symm.trans hr.1) hcs htorn hfs htorn

/-! ### Over an existing file -/

section Over

variable {a : Option Ptrs} {d : Disk} {cx : Column}

theorem not_fst {q i : Nat} {g : Nat × Nat} (h : q ≠ g.1) :
    (some (some (q, i)) : Option (Option (Nat × Nat))) ≠ some (some g) :=
  fun h' => h (congrArg Prod.fst (Option.some.inj (Option.some.inj h')))

section

variable (h : Stand N D P x y f (some g) s t)
include h

section

variable (hturn : s.disk.canTurn N y.tail f.data = true)
include hturn

/-- What the new name is when the source has replaced the data file. -/
theorem Stand.over_data (hgo : g.data = f.data)
    (hle : ∀ m ∈ g.parted, m.1 ≤ f.data) (ha : NoLinks a ∨ a = some (renameTo f.data))
    (hv : h.At cx (update g.col f.data (some (f.ino, a))) d) :
    seenAt N d y = some (some f.at) := by
  have hfit := h.scene.new.named.fits g rfl
  cases hm : g.parted with
  | none =>
    rw [File.col, File.colWith_plain hm, hgo, only_set] at hv
    exact h.target_only hv (h.normal_there hturn hv) ha
  | some m =>
    have hne : f.data ≠ m.1 := hgo ▸ (hfit.meta_ne hm).symm
    rw [File.col, File.colWith_parted hm, hgo, both_set_right hne] at hv
    have hdata : d.col y f.data = some (f.ino, a) := by
      rw [hv.right]
      exact both_right hne
    refine h.sees_new hv (.pointed (First.of_both hv.right ?_ ?_) hne hdata)
    · exact (hv.normal_new h).mpr (.inl (hfit.split hm).1)
    · exact fun _ => hle m hm

/-- The destination is met at its data file, whose pointer leads to its meta file. -/
theorem Stand.over_exposed (hgo : g.data = f.data)
    (hm : g.parted = some m) (hlt : f.data < m.1) (hv : h.At cx g.col d) :
    ¬ Atomic N x y s.disk d := by
  have hfit := h.scene.new.named.fits g rfl
  have hne : m.1 ≠ f.data := hgo ▸ hfit.meta_ne hm
  have hcol := hv.right
  rw [File.col, File.colWith_parted hm, (hfit.split hm).2.2, hgo, both_comm hne] at hcol
  have hmeta : d.col y m.1 = some (m.2, some (pointerTo f.data)) := by
    rw [hcol]
    exact both_right hne
  have hy := h.sees_new hv (.pointed (First.of_both hcol
    (h.normal_there hturn hv) (fun _ => le_of_lt hlt)) hne hmeta)
  refine h.not_atomic_new hy (not_fst (g := g.at) ?_) (not_fst (g := f.at) hne)
  exact hfit.meta_ne hm

theorem verdict_overwrite_data (hgo : g.data = f.data) :
    Verdict N D P x y f (some g) s t ((overwriteData f g.col).steps f)
      (overwriteData f g.col).faults (noFile, (overwriteData f g.col).last) := by
  have hfit := h.scene.new.named.fits g rfl
  have hiff : Recoverable N s.disk x y f (some g) ↔
      (∀ m ∈ g.parted, m.1 ≤ f.data) ∧ ¬ Exposed x y f := by
    show RecoverableOver N s.disk x y f g ↔ _
    unfold RecoverableOver
    rw [hturn]
    cases hm : g.parted with
    | none => simp [hgo]
    | some m =>
      have hne : m.1 ≠ f.data := hgo ▸ hfit.meta_ne hm
      simp [hgo, hne]
  have hsame : (∀ m ∈ g.parted, m.1 ≤ f.data) ∧ ¬ Exposed x y f → ∀ {a},
      (∀ {d}, f.parted = none → Harmless d x.tail f.data a) →
      h.Same (f.colWith a, g.col) := by
    intro hc a ha
    refine h.unmoved (fun _ => hc.2) ?_ ha
    rintro _ ⟨⟩ m hm - -
    exact hc.1 m hm
  have hover := fun {a} hc ha => h.settled _ (fun hv =>
    h.over_data (a := a) hturn hgo hc ha hv)
  refine h.verdict hiff (fun hc => ?_) (fun hc => (hover hc.1 (.inl (.inr rfl))).2.2) (fun hc => ?_)
    (fun hbad => ⟨(f.col, g.col), .head _, .head _, fun {d} hv => ?_⟩)
  · simp only [overwriteData, overwriteWay, Way.steps, cons_append, nil_append, forall_mem_cons]
    exact ⟨h.good (hsame hc h.harmless), h.good (hsame hc (fun _ => .inr (.inl rfl))),
      (hover hc.1 (.inr rfl)).1, (hover hc.1 (.inl (.inr rfl))).2.1⟩
  · simp only [overwriteData, overwriteWay, forall_mem_cons]
    exact ⟨hsame hc h.harmless, hsame hc (fun _ => .inl (.inr rfl)), nofun⟩
  · by_cases hexp : Exposed x y f
    · exact h.exposed_torn hturn hexp hv
    · obtain ⟨m, hm⟩ := not_forall.mp (fun h' => hbad ⟨h', hexp⟩)
      obtain ⟨hm, hlt⟩ := Classical.not_imp.mp hm
      exact h.over_exposed hturn hgo hm (not_le.mp hlt) hv

/-- What the new name is when the source has replaced the meta file. -/
theorem Stand.over_meta (hm : g.parted = some m)
    (hmo : m.1 = f.data) (ha : NoLinks a ∨ a = some (renameTo f.data))
    (hv : h.At cx (update g.col f.data (some (f.ino, a))) d) :
    seenAt N d y = some (some f.at) := by
  have hfit := h.scene.new.named.fits g rfl
  have hne : g.data ≠ f.data := hmo ▸ (hfit.meta_ne hm).symm
  have hcol := hv.right
  rw [File.col, File.colWith_parted hm, hmo, both_set] at hcol
  have hfirst := First.of_both hcol (h.normal_there hturn hv) (fun hn => by
    rcases (hv.normal_new h).mp hn with hn | hn
    · exact absurd hn (hfit.split hm).2.1
    · exact absurd hn.2 hne)
  rcases ha with ha | rfl
  · exact h.sees_new hv (.plain hfirst ha)
  · exact h.sees_new hv (.self hfirst)

theorem verdict_overwrite_meta (hm : g.parted = some m) (hmo : m.1 = f.data) :
    let w := overwriteMeta f g.col g.data
    Verdict N D P x y f (some g) s t (w.steps f) w.faults (noFile, w.last) := by
  have hfit := h.scene.new.named.fits g rfl
  have hne : g.data ≠ f.data := hmo ▸ (hfit.meta_ne hm).symm
  have hiff : Recoverable N s.disk x y f (some g) ↔ ¬ Exposed x y f := by
    show RecoverableOver N s.disk x y f g ↔ _
    unfold RecoverableOver
    rw [hturn, hm]
    simp [hmo]
  -- the meta file is overwritten and the data file deleted: one file is left
  have hone : ∀ {v}, f.into (update g.col g.data none) v = only f.data (f.ino, some v) := by
    intro v
    rw [File.into, File.col, File.colWith_parted hm, hmo, both_clear_right hne, only_set]
  have hsame : ¬ Exposed x y f → ∀ {a}, (∀ {d}, f.parted = none → Harmless d x.tail f.data a) →
      h.Same (f.colWith a, g.col) := by
    intro hexp a ha
    refine h.unmoved (fun _ => hexp) ?_ ha
    rintro _ ⟨⟩ m - - hgo
    exact absurd hgo hne
  have hover := h.settled (f.into g.col (renameTo f.data))
    (fun hv => h.over_meta hturn hm hmo (.inr rfl) hv)
  have hreset := h.arrived hturn (.inl (.inr rfl))
  intro w
  simp only [w, overwriteMeta, overwriteWay, Way.steps, hone]
  refine h.verdict hiff (fun hc => ?_) (fun hc => hreset.2.2) (fun hc => ?_)
    (fun hbad => ⟨_, .head _, .head _, h.exposed_torn hturn (not_not.mp hbad)⟩)
  · simp only [cons_append, nil_append, forall_mem_cons]
    exact ⟨h.good (hsame hc h.harmless), h.good (hsame hc (fun _ => .inr (.inl rfl))), hover.1,
      (h.arrived hturn (.inr rfl)).1, hreset.2.1⟩
  · simp only [forall_mem_cons]
    exact ⟨hsame hc h.harmless, hsame hc (fun _ => .inl (.inr rfl)), forall_mem_nil _⟩

end

/-- While the destination is hidden, the source and it lead to the source. -/
theorem Stand.hidden_moved {e k : Nat} (heo : e ≠ f.data)
    (hturn : s.disk.canTurn N y.tail f.data = true) (hen : s.disk.node y.tail e = some (.dir true))
    (hv : h.At cx (both f.data (f.ino, some (staleAt e)) e (k, some (hiddenBy f.data))) d) :
    seenAt N d y = some (some f.at) := by
  have hdata : d.col y f.data = some (f.ino, some (staleAt e)) := by
    rw [hv.right]
    exact both_left
  have hother : d.col y e = some (k, some (hiddenBy f.data)) := by
    rw [hv.right]
    exact both_right heo
  rcases Nat.lt_or_gt_of_ne heo with hlt | hlt
  · have hcol := hv.right
    rw [both_comm heo.symm] at hcol
    exact h.sees_new hv (.hidden (First.of_both hcol
      ((hv.normal_new h).mpr (.inl hen)) (fun _ => le_of_lt hlt))
      heo.symm hdata)
  · exact h.sees_new hv (.stale (First.of_both hv.right
      (h.normal_there hturn hv) (fun _ => le_of_lt hlt)) heo hother rfl)

theorem verdict_hide_plain
    (hturn : s.disk.canTurn N y.tail f.data = true) (hp : g.parted = none) (heo : g.data ≠ f.data) :
    let w := hidePlain f g.col g.data g.ino
    Verdict N D P x y f (some g) s t (w.steps f) w.faults (noFile, w.last) := by
  have hfit := h.scene.new.named.fits g rfl
  obtain ⟨hen, hattr⟩ := hfit.plain hp
  have hiff : Recoverable N s.disk x y f (some g) ↔
      Linkable s.disk x f g.data ∧ ¬ Exposed x y f := by
    show RecoverableOver N s.disk x y f g ↔ _
    unfold RecoverableOver
    rw [hturn, hp]
    simp [heo]
  have hcol : g.col = only g.data (g.ino, g.attr) := File.colWith_plain hp
  have hnew : ∀ {a : Option Ptrs} {cx d}, NoLinks a → h.At cx (only g.data (g.ino, a)) d →
      seenAt N d y = some ((some g).map File.at) := fun ha hv =>
    h.target_only hv ((hv.normal_new h).mpr (Or.inl hen)) (Or.inl ha)
  have hhid : ∀ {cx d}, h.At cx (only g.data (g.ino, some (hiddenBy f.data))) d →
      seenAt N d y = some ((some g).map File.at) := by
    intro cx d hv
    refine h.sees_new hv (.unhidden (First.of_only hv.right
      ((hv.normal_new h).mpr (Or.inl hen))) heo.symm (hv.holds_new h) ?_)
    rw [hv.right]
    exact only_of_ne heo.symm
  have hsrc : Linkable s.disk x f g.data ∧ ¬ Exposed x y f → ∀ {a cy d},
      (f.parted = none → NoLinks a ∨ a = some (staleAt g.data)) →
      h.At (f.colWith a) cy d → seenAt N d x = some (some f.at) := by
    intro hc a cy d ha hv
    refine h.source hv (fun _ => hc.2) (fun hn => ?_)
    rcases ha hn with ha | ha
    · exact Or.inl ha
    · exact Or.inr (Or.inr ⟨g.data, heo,
        hv.holds_of h h.scene.old.dir (hc.1.resolve_left (· hn)), Or.inl ha⟩)
  have hgone := h.settled (only f.data (f.ino, some (staleAt g.data))) (fun {cx d} hv => by
      have hh := h.scene.world.parent h.scene.new.file h.scene.new.named.data_node
      refine h.sees_new hv (.staleGone (First.of_only hv.right
        (h.normal_there hturn hv)) heo (hv.holds_of h h.scene.new.dir hh) ?_)
      rw [hv.right]
      exact only_of_ne heo)
  have hdone := h.arrived hturn (Or.inl (Or.inr rfl))
  have hplain := fun hn =>
    Or.inl (b := f.attr = some (staleAt g.data)) ((h.scene.old.named.fits f rfl).plain hn).2
  intro w
  simp only [w, hidePlain, hideWay, Way.steps, File.into, hcol, only_set,
    only_clear, only_add, noFile_add]
  refine h.verdict hiff (fun hc => ?_) (fun hc => hdone.2.2) (fun hc => ?_) (fun hno => ?_)
  · simp only [cons_append, nil_append, forall_mem_cons]
    exact ⟨fun hv => (h.before (hsrc hc hplain hv) (hnew hattr hv)).atomic,
      fun hv => (h.before (hsrc hc (fun _ => Or.inr rfl) hv) (hnew hattr hv)).atomic,
      fun hv => (h.before (hsrc hc (fun _ => Or.inr rfl) hv) (hhid hv)).atomic,
      (h.settled _ (fun hv => h.hidden_moved heo hturn hen hv)).1,
      hgone.1, hdone.2.1⟩
  · simp only [forall_mem_cons]
    exact ⟨fun hv => h.before (hsrc hc hplain hv) (hnew hattr hv),
      fun hv => h.before (hsrc hc (fun _ => Or.inr rfl) hv) (hnew hattr hv),
      fun hv => h.before (hsrc hc (fun _ => Or.inl (Or.inr rfl)) hv) (hnew (Or.inr rfl) hv), nofun⟩
  · by_cases hexp : Exposed x y f
    · exact ⟨_, .head _, .head _, h.exposed_torn hturn hexp⟩
    · exact ⟨_, .tail _ (.head _), .tail _ (.head _), h.unlinkable_torn
        (fun hl => hno ⟨hl, hexp⟩) heo (Or.inl rfl)⟩

/-- The meta file of the destination is met first while its data file is where
    the directory is not normal. -/
theorem Stand.meets_meta (hm : g.parted = some m)
    (heo : g.data ≠ f.data) (hv : h.At cx (update g.col m.1 (some (m.2, a))) d) :
    First d y m.1 m.2 a := by
  obtain ⟨hmn, hgn, -⟩ := (h.scene.new.named.fits g rfl).split hm
  have hcol := hv.right
  rw [File.col, File.colWith_parted hm, both_set] at hcol
  refine First.of_both hcol ((hv.normal_new h).mpr (.inl hmn)) (fun hn => ?_)
  rcases (hv.normal_new h).mp hn with hn | hn
  · exact absurd hn hgn
  · exact absurd hn.2 heo

/-- A meta file that is taken for the destination. -/
theorem Stand.not_atomic_meta (hm : g.parted = some m)
    (hmo : m.1 ≠ f.data) (hy : seenAt N d y = some (some m)) : ¬ Atomic N x y s.disk d :=
  h.not_atomic_new hy (not_fst (g := g.at) ((h.scene.new.named.fits g rfl).meta_ne hm))
    (not_fst (g := f.at) hmo)

/-- There is nothing where the link of the meta file leads to. -/
theorem Stand.none_there (hm : g.parted = some m) (hmo : m.1 ≠ f.data) (heo : g.data ≠ f.data)
    (hv : h.At cx (update g.col m.1 (some (m.2, a))) d) :
    d.col y f.data = none := by
  rw [hv.right, File.col, File.colWith_parted hm, both_set]
  exact both_of_ne hmo.symm heo.symm

/-- A partitioned destination is found at its meta file while it is hidden, and
    after the links are taken back. -/
theorem verdict_hide_parted (hturn : s.disk.canTurn N y.tail f.data = true) (hm : g.parted = some m)
    (hmo : m.1 ≠ f.data) (heo : g.data ≠ f.data) {cx cx' : Column}
    (hcs : (cx, update g.col m.1 (some (m.2, some (hiddenBy f.data)))) ∈ cs)
    (hfs : (cx', update g.col m.1 (some (m.2, some Ptrs.unset))) ∈ fs) :
    Verdict N D P x y f (some g) s t cs fs last := by
  have hno : ¬ Recoverable N s.disk x y f (some g) := by
    show ¬ RecoverableOver N s.disk x y f g
    unfold RecoverableOver
    rw [hturn, hm]
    simp [hmo, heo]
  refine h.hopeless hno hcs (fun {d} hv => h.not_atomic_meta hm hmo ?_) hfs
    (fun {d} hv => h.not_atomic_meta hm hmo ?_)
  · exact h.sees_new hv (.unhidden (h.meets_meta hm heo hv) hmo.symm
      (hv.holds_new h) (h.none_there hm hmo heo hv))
  · exact h.sees_new hv (.plain (h.meets_meta hm heo hv) (.inr rfl))

section

variable (hturn : s.disk.canTurn N y.tail f.data = false)
include hturn

/-- The source is met at the destination's meta file. -/
theorem Stand.reused {q l : Nat} {b : Option Ptrs} (hqo : q ≠ f.data)
    (hqn : s.disk.node y.tail q = some (.dir true))
    (hb : b = some (renameTo f.data) ∨ b = some (pointerTo f.data)) {i : Nat}
    (hv : h.At cx (both q (l, b) f.data (i, a)) d) :
    seenAt N d y = some (some (f.data, i)) := by
  have hdata : d.col y f.data = some (i, a) := by
    rw [hv.right]
    exact both_right hqo.symm
  have hfirst := First.of_both hv.right ((hv.normal_new h).mpr (.inl hqn)) (fun hn => by
      rcases (hv.normal_new h).mp hn with hn | hn
      · refine absurd hturn ?_
        rw [Disk.canTurn, hn]
        simp
      · cases hturn.symm.trans hn.1)
  rcases hb with rfl | rfl
  · exact h.sees_new hv (.renamed hfirst hqo.symm hdata)
  · exact h.sees_new hv (.pointed hfirst hqo.symm hdata)

/-- The part of `reuseExist` up to the move, when `q` is the partition of the
    file that becomes the meta file and the new name is still the destination. -/
theorem Stand.reusing {q : Nat} (hqo : q ≠ f.data) (hl : Linkable s.disk x f q)
    (hy : ∀ {cx d}, h.At cx cy d → seenAt N d y = some (some g.at)) :
    h.Same (f.col, cy) ∧ h.Same (f.colWith (some (renameTo q)), cy) := by
  have hexp : s.disk.canTurn N y.tail f.data = true → ¬ Exposed x y f :=
    fun ht => nomatch hturn.symm.trans ht
  refine ⟨fun hv => h.before (h.source hv hexp h.harmless) (hy hv),
    fun hv => h.before (h.source hv hexp (fun hp => ?_)) (hy hv)⟩
  exact .inr (.inr ⟨q, hqo, hv.holds_of h h.scene.old.dir (hl.resolve_left (· hp)), .inr rfl⟩)

/-- The file in partition `q` becomes the meta file, and no other file of the
    destination is left.  With its rename link it is still the destination. -/
theorem verdict_reuse {q l : Nat}
    (hqn : s.disk.node y.tail q = some (.dir true))
    (hiff : Recoverable N s.disk x y f (some g) ↔ Linkable s.disk x f q)
    (hcol : ∀ {a b}, update (update g.col q (some (l, a))) f.data (some (f.ino, b))
      = both q (l, a) f.data (f.ino, b))
    (hren : ∀ {cx d}, h.At cx (update g.col q (some (l, some (renameTo f.data)))) d →
      seenAt N d y = some (some g.at)) :
    let w := reuseData f g.col q l
    Verdict N D P x y f (some g) s t (w.steps f) w.faults (noFile, w.last) := by
  have hqo := shadow_ne hturn hqn
  have hold : ∀ {cx d}, h.At cx g.col d → seenAt N d y = some (some g.at) :=
    fun hv => h.target_same hv (fun _ _ _ _ ht => nomatch hturn.symm.trans ht)
  have hmoved := fun {a b} hb => h.settled (both q (l, b) f.data (f.ino, a))
    (fun hv => h.reused hturn hqo hqn hb hv)
  intro w
  simp only [w, reuseData, reuseWay, Way.steps, File.into, hcol]
  refine h.verdict hiff (fun hl => ?_) (fun hl => (hmoved (.inr rfl)).2.2)
    (fun hl => ?_) (fun hno => ⟨_, .tail _ (.tail _ (.head _)),
      .tail _ (.tail _ (.head _)), h.unlinkable_torn hno hqo (.inr rfl)⟩)
  · have hbefore := h.reusing hturn hqo hl hold
    have hlinked := h.reusing hturn hqo hl hren
    simp only [cons_append, nil_append, forall_mem_cons]
    exact ⟨h.good hbefore.1, h.good hlinked.1, h.good hlinked.2,
      (hmoved (.inl rfl)).1, (hmoved (.inl rfl)).1,
      (hmoved (.inr rfl)).2.1⟩
  · have hlinked := h.reusing hturn hqo hl hren
    simp only [forall_mem_cons]
    exact ⟨(h.reusing hturn hqo hl hold).1, hlinked.1, hlinked.2, nofun⟩

/-- A plain destination becomes the meta file. -/
theorem verdict_reuse_plain (hp : g.parted = none) :
    let w := reuseData f g.col g.data g.ino
    Verdict N D P x y f (some g) s t (w.steps f) w.faults (noFile, w.last) := by
  have hen := ((h.scene.new.named.fits g rfl).plain hp).1
  have heo := shadow_ne hturn hen
  have hcol : g.col = only g.data (g.ino, g.attr) := File.colWith_plain hp
  refine verdict_reuse h hturn hen ?_ (fun {a b} => ?_) (fun {cx d} hv => ?_)
  · show RecoverableOver N s.disk x y f g ↔ _
    unfold RecoverableOver
    rw [hturn, hp]
  · rw [hcol, only_set, only_add, both_comm heo.symm]
  · rw [hcol, only_set] at hv
    refine h.sees_new hv (.unrenamed (First.of_only hv.right
      ((hv.normal_new h).mpr (.inl hen))) heo.symm (hv.holds_new h) ?_)
    rw [hv.right]
    exact only_of_ne heo.symm

/-- The meta file of the destination is kept, and its data file overwritten. -/
theorem verdict_reuse_parted (hm : g.parted = some m) (hgo : g.data = f.data) :
    let w := reuseData f g.col m.1 m.2
    Verdict N D P x y f (some g) s t (w.steps f) w.faults (noFile, w.last) := by
  have hmn := ((h.scene.new.named.fits g rfl).split hm).1
  have hmo := shadow_ne hturn hmn
  have hcol : g.col = both m.1 (m.2, some (pointerTo f.data)) f.data
      (g.ino, g.attr) := by rw [File.col, File.colWith_parted hm, hgo]
  refine verdict_reuse h hturn hmn ?_ (fun {a b} => ?_) (fun {cx d} hv => ?_)
  · show RecoverableOver N s.disk x y f g ↔ _
    unfold RecoverableOver
    rw [hturn, hm]
    simp [hgo]
  · rw [hcol, both_set, both_set_right hmo.symm]
  · rw [hcol, both_set] at hv
    rw [File.at, hgo]
    exact h.reused hturn hmo hmn (.inl rfl) hv

/-- The rename link of the destination's meta file leads nowhere, and the meta
    file is taken for the destination. -/
theorem verdict_reuse_meta (hm : g.parted = some m) (heo : g.data ≠ f.data)
    (hcs : (f.col, update g.col m.1 (some (m.2, some (renameTo f.data)))) ∈ cs)
    (hfs : (f.col, update g.col m.1 (some (m.2, some (renameTo f.data)))) ∈ fs) :
    Verdict N D P x y f (some g) s t cs fs last := by
  have hmo := shadow_ne hturn ((h.scene.new.named.fits g rfl).split hm).1
  have hno : ¬ Recoverable N s.disk x y f (some g) := by
    show ¬ RecoverableOver N s.disk x y f g
    unfold RecoverableOver
    rw [hturn, hm]
    simp [heo]
  have htorn : h.Torn (f.col, update g.col m.1 (some (m.2, some (renameTo f.data)))) := fun hv =>
    h.not_atomic_meta hm hmo (h.sees_new hv (.unrenamed
      (h.meets_meta hm heo hv) hmo.symm (hv.holds_new h)
      (h.none_there hm hmo heo hv)))
  exact h.hopeless hno hcs htorn hfs htorn

end

end

end Over

/-! ## The whole rename -/

theorem Named.clones {d d' : Disk} {z : Path} {F : Option File} {o : Nat}
    (h : Named d z F) (hz : ¬ D z) (hc : Clones D o d d') : Named d' z F where
  col := (funext fun p => col_congr (hc.file hz) (fun i _ => by
    rw [hc.attr])).trans h.col
  fits f hf := (h.fits f hf).congr (fun _ => hc.normal_iff)

/-- Replicas without a mark do not show. -/
theorem Stand.cloned (h : Stand N D P x y f G s t) {d : Disk}
    (w : World N D d) (hc : Clones D f.data s.disk d) :
    Unchanged N x y s.disk d :=
  h.before ((h.scene.old.named.clones h.scene.old.file hc).finds.sees w h.scene.pos
      h.scene.old.dir h.scene.old.file)
    ((h.scene.new.named.clones h.scene.new.file hc).finds.sees w h.scene.pos
      h.scene.new.dir h.scene.new.file)

theorem forall_of_forall₂ {R : Column × Column → Disk → Prop}
    {P : Disk → Prop} {cs : List (Column × Column)} {ds : List Disk}
    (h : List.Forall₂ R cs ds) (hP : ∀ c ∈ cs, ∀ {d}, R c d → P d) :
    ∀ d ∈ ds, P d := by
  induction h with
  | nil => exact nofun
  | cons hr _ ih =>
    rw [forall_mem_cons]
    exact ⟨hP _ (.head _) hr, ih (fun c hc => hP c (.tail _ hc))⟩

theorem exists_of_forall₂ {R : Column × Column → Disk → Prop}
    {cs : List (Column × Column)} {ds : List Disk} {c : Column × Column}
    (h : List.Forall₂ R cs ds) (hc : c ∈ cs) : ∃ d ∈ ds, R c d := by
  induction h with
  | nil => cases hc
  | cons hr _ ih =>
    rcases mem_cons.mp hc with rfl | hc'
    · exact ⟨_, .head _, hr⟩
    · obtain ⟨d, hd, hR⟩ := ih hc'
      exact ⟨d, .tail _ hd, hR⟩

section Renames

variable {cs fs : List (Column × Column)} {om : Option Nat} {e : Int}
  {I : Disk → Prop} {c : Column × Column}

section

variable (hR : Renames N D P x y f G s t cs fs cy om)
include hR

/-- What holds while the branch of the new directory is made, at the columns on
    the way and at the last ones, holds at every moment. -/
theorem Renames.passes (hes : ∀ {d}, World N D d → Clones D f.data s.disk d → I d)
    (hcs : ∀ c ∈ cs, AllAt N D P x y t.disk I c) (hend : AllAt N D P x y t.disk I (noFile, cy)) :
    ∀ u, Passes sysHandler (sfsRenameOther N x y) s u → I u.disk := by
  obtain ⟨u, es, ds, gs, htr, hes', hds, -, hdone⟩ := hR.run
  rw [htr.passes, forall_mem_append]
  refine ⟨⟨fun d hd => hes (hes' d hd).1 (hes' d hd).2, ?_⟩, hend hdone.view⟩
  exact forall_of_forall₂ hds (fun c hc _ => hcs c hc)

/-- What holds at the columns of the errors holds after every error. -/
theorem Renames.faults (he : e ≠ 0) (hfs : ∀ c ∈ fs, AllAt N D P x y t.disk I c) :
    ∀ n b u, runFault sysHandler (failing e) n (sfsRenameOther N x y) s
      = some (b, u) → b ≠ 0 → I u.disk := by
  obtain ⟨u, es, ds, gs, htr, -, -, hgs, -⟩ := hR.run
  rw [htr.faults he]
  exact forall_of_forall₂ hgs (fun c hc _ => hfs c hc)

/-- A crash finds the rename at each of its columns. -/
theorem Renames.crash (hc : c ∈ cs) : ∃ u, Passes sysHandler (sfsRenameOther N x y) s u
      ∧ View N D P t.disk x y c.1 c.2 u.disk := by
  obtain ⟨u, es, ds, gs, htr, -, hds, -, -⟩ := hR.run
  obtain ⟨d, hd, hview⟩ := exists_of_forall₂ hds hc
  by_contra hno
  have hall := (htr.passes (I := fun d' => ¬ View N D P t.disk x y c.1 c.2 d')).mp
      (fun v hv hvd => hno ⟨v, hv, hvd⟩)
  exact hall.1 d (mem_append_right _ hd) hview

/-- An error leaves the rename at each of the columns of the errors. -/
theorem Renames.failure (he : e ≠ 0) (hc : c ∈ fs) :
    ∃ n b u, runFault sysHandler (failing e) n (sfsRenameOther N x y) s
        = some (b, u) ∧ b ≠ 0 ∧ View N D P t.disk x y c.1 c.2 u.disk := by
  obtain ⟨u, es, ds, gs, htr, -, -, hgs, -⟩ := hR.run
  obtain ⟨d, hd, hview⟩ := exists_of_forall₂ hgs hc
  by_contra hno
  have hall := (htr.faults he (P := fun d' => ¬ View N D P t.disk x y c.1 c.2 d')).mp
      (fun n b v hv hb hvd => hno ⟨n, b, v, hv, hb, hvd⟩)
  exact hall d hd hview

end

end Renames

/-- What is said of a rename: of its crashes and of its failures. -/
def Judged (N : Nat) (x y : Path) (s : Sys) (C : Prop) : Prop :=
  ((∀ u, Passes sysHandler (sfsRenameOther N x y) s u → Atomic N x y s.disk u.disk) ↔ C)
    ∧ ∀ {e}, e ≠ 0 → ((∀ n b u, runFault sysHandler (failing e) n
        (sfsRenameOther N x y) s = some (b, u) → b ≠ 0 →
      Unchanged N x y s.disk u.disk) ↔ C)

/-- From a branch and its verdict to the whole rename. -/
theorem Verdict.judged {cs fs : List (Column × Column)} {om : Option Nat}
    (hV : Verdict N D P x y f G s t cs fs (noFile, cy)) (h : Scene N D P s x y f G)
    (hR : Renames N D P x y f G s t cs fs cy om) :
    Judged N x y s (Recoverable N s.disk x y f G) := by
  refine ⟨⟨fun hall => ?_, fun hr => ?_⟩, fun {e} he =>
    ⟨fun hall => ?_, fun hr => ?_⟩⟩
  · by_contra hno
    obtain ⟨c, hc, hbad⟩ := hV.torn hno
    obtain ⟨u, hu, hview⟩ := hR.crash hc
    exact hbad hview (hall u hu)
  · have hst : Stand N D P x y f G s t := ⟨h, hR.entry⟩
    exact hR.passes (fun w hc => (hst.cloned w hc).atomic) (hV.atomic hr) (hV.ends hr)
  · by_contra hno
    obtain ⟨c, hc, hbad⟩ := hV.broken hno
    obtain ⟨n, b, u, hu, hb, hview⟩ := hR.failure he hc
    exact hbad hview (hall n b u hu hb).atomic
  · exact hR.faults he (hV.same hr)

theorem Scene.judged_non (h : Scene N D P s x y f none) :
    Judged N x y s (Recoverable N s.disk x y f none) := by
  cases hturn : s.disk.canTurn N y.tail f.data with
  | true =>
    cases hp : f.parted with
    | none =>
      obtain ⟨t, hR⟩ := h.turn_plain hturn hp
      exact (verdict_turn_plain ⟨h, hR.entry⟩ hturn hp).judged h hR
    | some m =>
      obtain ⟨t, hR⟩ := h.turn_parted hturn hp
      exact (verdict_turn_parted ⟨h, hR.entry⟩ hturn hp).judged h hR
  | false =>
    obtain ⟨t, p, -, hpn, hpo, hR⟩ := h.meta_made hturn
    exact (verdict_meta ⟨h, hR.entry⟩ hturn hpo hpn (.tail _ (.head _))
      (.tail _ (.head _))).judged h hR

theorem Scene.judged_exist (h : Scene N D P s x y f (some g)) :
    Judged N x y s (Recoverable N s.disk x y f (some g)) := by
  cases hturn : s.disk.canTurn N y.tail f.data with
  | true =>
    by_cases hgo : g.data = f.data
    · obtain ⟨t, hR⟩ := h.overwrite_data hturn hgo
      exact (verdict_overwrite_data ⟨h, hR.entry⟩ hturn hgo).judged h hR
    · cases hm : g.parted with
      | none =>
        obtain ⟨t, hR⟩ := h.hide_plain hturn hm hgo
        exact (verdict_hide_plain ⟨h, hR.entry⟩ hturn hm hgo).judged h hR
      | some m =>
        by_cases hmo : m.1 = f.data
        · obtain ⟨t, hR⟩ := h.overwrite_meta hturn hm hmo
          exact (verdict_overwrite_meta ⟨h, hR.entry⟩ hturn hm hmo).judged h hR
        · obtain ⟨t, hR⟩ := h.hide_parted hturn hm hmo hgo
          exact (verdict_hide_parted ⟨h, hR.entry⟩ hturn hm hmo hgo (.tail _ (.tail _ (.head _)))
            (.tail _ (.tail _ (.head _)))).judged h hR
  | false =>
    have hfit := h.new.named.fits g rfl
    cases hm : g.parted with
    | none =>
      have hmeta : g.metaId = none := by rw [File.metaId, hm]; rfl
      obtain ⟨t, hR⟩ := h.reuse_data (q := g.data) hturn (by rw [hmeta]; rfl) (by rw [hmeta]; simp)
        (shadow_ne hturn (hfit.plain hm).1) h.exist_data
      exact (verdict_reuse_plain ⟨h, hR.entry⟩ hturn hm).judged h hR
    | some m =>
      have hmeta : g.metaId = some m.1 := by rw [File.metaId, hm]; rfl
      have hmo := shadow_ne hturn (hfit.split hm).1
      by_cases hgo : g.data = f.data
      · obtain ⟨t, hR⟩ := h.reuse_data (q := m.1) hturn
          (by rw [hmeta]; rfl) (by simp [hgo]) hmo (h.exist_meta hm).2
        exact (verdict_reuse_parted ⟨h, hR.entry⟩ hturn hm hgo).judged h hR
      · obtain ⟨t, hR⟩ := h.reuse_meta hturn hm hmo hgo
        exact (verdict_reuse_meta ⟨h, hR.entry⟩ hturn hm hgo
          (.tail _ (.head _)) (.tail _ (.head _))).judged h hR

/-- Crashes and failures of a rename are covered under the same condition. -/
theorem Scene.judged (h : Scene N D P s x y f G) :
    Judged N x y s (Recoverable N s.disk x y f G) := by
  cases G with
  | none => exact h.judged_non
  | some g => exact h.judged_exist

end Verdicts

/-! ## Two partitions

The root is normal in both partitions, and has a file in partition 1.  The directory
`[0]` is in partition 0 alone, with one file. -/

def duoDirs : List Path := [[], [0]]

def duoEntries : List (Path × Nat × Obj) :=
  [([], 0, .dir true), ([], 1, .dir true), ([0], 0, .dir true),
    ([0, 0], 0, .file 0), ([1], 1, .file 1)]

def duo : Disk := .ofList duoEntries [] 2 2

def duoFiles (z : Path) : Option File :=
  if z = [0, 0] then some ⟨0, 0, none, none⟩
  else if z = [1] then some ⟨1, 1, none, none⟩
  else none

def duoSys : Sys := cachedSys duo 2 duoDirs duoFiles

theorem duo_world : World 2 (· ∈ duoDirs) duo := world_ofList (by decide)

theorem duo_old : Ready 2 (· ∈ duoDirs) duoSys [0, 0] (some ⟨0, 0, none, none⟩) :=
  cachedSys_ready duo_world (by decide) (by decide) (by decide)
    (named_plain duo_world (by decide) (by decide) (by decide) (by decide) (.inl rfl))

/-- The file in `[0]` is renamed over the file of the root. -/
theorem duo_over : Scene 2 (· ∈ duoDirs) (fun _ => True) duoSys [0, 0] [1]
    ⟨0, 0, none, none⟩ (some ⟨1, 1, none, none⟩) where
  pos := by decide
  world := duo_world
  priv := private_ofList (by decide)
  mine := ⟨trivial, trivial⟩
  ne := by decide
  old := duo_old
  new := cachedSys_ready duo_world (by decide) (by decide) (by decide)
    (named_plain duo_world (by decide) (by decide) (by decide) (by decide) (.inl rfl))

/-- The file in `[0]` is renamed to a new name of the root. -/
theorem duo_away : Scene 2 (· ∈ duoDirs) (fun _ => True) duoSys [0, 0] [2]
    ⟨0, 0, none, none⟩ none where
  pos := by decide
  world := duo_world
  priv := private_ofList (by decide)
  mine := ⟨trivial, trivial⟩
  ne := by decide
  old := duo_old
  new := cachedSys_ready duo_world (by decide) (by decide) (by decide)
    (named_absent duo_world (by decide) (by decide))

/-- The directory of the source is not where the stale file is. -/
theorem duo_over_not_recoverable : ¬ Recoverable 2 duoSys.disk [0, 0] [1]
    ⟨0, 0, none, none⟩ (some ⟨1, 1, none, none⟩) := by
  rintro ⟨h | h | ⟨b, hb⟩, -⟩
  · cases h
  · exact h rfl
  · cases hb

theorem duo_away_recoverable : Recoverable 2 duoSys.disk [0, 0] [2] ⟨0, 0, none, none⟩ none := by
  refine ⟨rfl, ?_⟩
  rintro ⟨h, -⟩
  cases h

/-! ## Crashes and failures -/

/-- A crash at any moment of a rename leaves the names as they were or as they
    are to be, EXACTLY when the rename is recoverable. -/
theorem rename_crash_atomic_iff {N : Nat} {D P : Path → Prop} {s : Sys}
    {x y : Path} {f : File} {G : Option File} (h : Scene N D P s x y f G) :
    (∀ u, Passes sysHandler (sfsRenameOther N x y) s u →
      Atomic N x y s.disk u.disk) ↔ Recoverable N s.disk x y f G :=
  h.judged.1

theorem duo_away_crash_atomic : Recoverable 2 duoSys.disk [0, 0] [2] ⟨0, 0, none, none⟩ none
      ∧ ∀ u, Passes sysHandler (sfsRenameOther 2 [0, 0] [2]) duoSys u →
        Atomic 2 [0, 0] [2] duoSys.disk u.disk :=
  ⟨duo_away_recoverable, (rename_crash_atomic_iff duo_away).mpr duo_away_recoverable⟩

/-- A crash of the rename over the other file, after which one of the names is
    neither as before nor as it is to be. -/
theorem duo_over_torn : ∃ u, Passes sysHandler (sfsRenameOther 2 [0, 0] [1]) duoSys u
      ∧ ¬ Atomic 2 [0, 0] [1] duoSys.disk u.disk := by
  by_contra hno
  refine duo_over_not_recoverable (duo_over.judged.1.mp (fun u hu => ?_))
  by_contra hat
  exact hno ⟨u, hu, hat⟩

/-- A rename in which one operation fails and that returns an error leaves the
    names as they were, EXACTLY when the rename is recoverable. -/
theorem failed_rename_unchanged_iff {N : Nat} {D P : Path → Prop} {s : Sys} {x y : Path} {f : File}
    {G : Option File} {e : Int} (h : Scene N D P s x y f G) (he : e ≠ 0) :
    (∀ n b u, runFault sysHandler (failing e) n (sfsRenameOther N x y) s
        = some (b, u) → b ≠ 0 → Unchanged N x y s.disk u.disk) ↔
      Recoverable N s.disk x y f G :=
  h.judged.2 he

theorem duo_away_failed_unchanged : Recoverable 2 duoSys.disk [0, 0] [2] ⟨0, 0, none, none⟩ none
      ∧ ∀ n b u, runFault sysHandler (failing eio) n
          (sfsRenameOther 2 [0, 0] [2]) duoSys = some (b, u) → b ≠ 0 →
        Unchanged 2 [0, 0] [2] duoSys.disk u.disk :=
  ⟨duo_away_recoverable, (failed_rename_unchanged_iff duo_away
    (by decide)).mpr duo_away_recoverable⟩

/-- A failure of the rename over the other file, after which one of the names
    is not as before. -/
theorem duo_over_broken : ∃ n b u, runFault sysHandler (failing eio) n
        (sfsRenameOther 2 [0, 0] [1]) duoSys = some (b, u) ∧ b ≠ 0
      ∧ ¬ Unchanged 2 [0, 0] [1] duoSys.disk u.disk := by
  by_contra hno
  refine duo_over_not_recoverable
    ((duo_over.judged.2 (e := eio) (by decide)).mp (fun n b u hr hb => ?_))
  by_contra hun
  exact hno ⟨n, b, u, hr, hb, hun⟩

end Sfs
