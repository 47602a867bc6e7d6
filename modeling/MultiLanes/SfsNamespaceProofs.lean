import MultiLanes.SfsTidyProofs
import MultiLanes.SfsRenameCrashProofs

/-! # SFS — the name space without failures

A session is a sequence of `sfs_create`, `sfs_unlink` and `sfs_rename` as the VFS calls
them: the names are looked up where they are not cached, a call on a name that has no
file, or has one already, is answered at once, and after the call `d_delete` or `d_move`
is done.  `Follows` says what the session does to a plain map from names to files, and
`session_refines` that SFS does just that: through the cached dentries and through fresh
lookups. -/

namespace Sfs

open InteractProg Function Option List

/-! ## Calls -/

/-- A call on files. -/
inductive Call
  | create (z : Path)
  | unlink (z : Path)
  | rename (x y : Path)
deriving DecidableEq, Repr

/-- `z` is a name in a directory, and no directory. -/
def FileName (D : Path → Prop) (z : Path) : Prop := ¬ D z ∧ D z.tail

/-- The call is on files of the directories `D`. -/
def Call.Within (D : Path → Prop) : Call → Prop
  | .create z => FileName D z
  | .unlink z => FileName D z
  | .rename x y => FileName D x ∧ FileName D y

/-- The dentry of a name, from the cache or by a lookup. -/
def lookupD (N : Nat) (z : Path) : Code Int := do
  if ← cached z then return 0
  sfsLookup N z

/-- A call as the VFS does it. -/
def Call.code (N : Nat) : Call → Code Int
  | .create z => checked (lookupD N z) do
      if (← sfsD z).positive then return eexist
      sfsCreate N z
  | .unlink z => checked (lookupD N z) do
      if !(← sfsD z).positive then return enoent
      checked (sfsUnlink z) do
        dDelete z
        return 0
  | .rename x y => checked (lookupD N x) do
      if !(← sfsD x).positive then return enoent
      checked (lookupD N y) do
        if x = y then return 0
        checked (sfsRenameOther N x y) do
          moveD x y
          return 0

/-- The calls in turn, and what they return. -/
def session (N : Nat) : List Call → Code (List Int)
  | [] => return []
  | c :: calls => do
    let err ← c.code N
    let errs ← session N calls
    return err :: errs

/-! ## The plain map -/

/-- The file of each name; a file is given by its data file. -/
abbrev Namespace : Type := Path → Option (Nat × Nat)

/-- Create adds, unlink removes, rename moves and replaces; `new` is the file
    that a create makes. -/
def Namespace.after (M : Namespace) (new : Nat × Nat) : Call → Int × Namespace
  | .create z =>
    match M z with
    | none => (0, update M z (some new))
    | some _ => (eexist, M)
  | .unlink z =>
    match M z with
    | none => (enoent, M)
    | some _ => (0, update M z none)
  | .rename x y =>
    match M x with
    | none => (enoent, M)
    | some f =>
      if x = y then (0, M)
      else (0, update (update M x none) y (some f))

/-- The map through a session.  A new file is one that no name has. -/
inductive Follows : List Call → Namespace → List Int → Namespace → Prop
  | nil {M} : Follows [] M [] M
  | cons {c calls M errs M'} {new : Nat × Nat} (hnew : ∀ z, M z ≠ some new)
      (h : Follows calls (M.after new c).2 errs M') :
      Follows (c :: calls) M ((M.after new c).1 :: errs) M'

/-- `M` has the data files of `F`, and of no other names. -/
structure MapOf (D : Path → Prop) (F : Path → Option File) (M : Namespace) :
    Prop where
  names : ∀ {z}, M z ≠ none → FileName D z
  files : ∀ {z}, FileName D z → M z = (F z).map File.at

/-- The mount is consistent, and has the files of `M`. -/
def Implements (N : Nat) (D : Path → Prop) (M : Namespace) (s : Sys) : Prop :=
  ∃ F, Tidy N D F s ∧ MapOf D F M

section Refinement

variable {N : Nat} {D : Path → Prop} {F : Path → Option File} {M : Namespace}
  {s : Sys} {x y z : Path} {dz : SfsDentry}

theorem Shows.reached (h : Shows N s.disk z (F z) dz)
    (hn : Named s.disk z (F z)) : dz.reached = (F z).map File.at := by
  cases hF : F z with
  | none =>
    rw [hF] at h
    rw [SfsDentry.reached, h.positive]
    rfl
  | some f =>
    rw [hF] at h hn
    have hslot := (h.slots f.data).slot (i := f.ino) (a := f.attr) (by
      rw [hn.col]
      exact (hn.fits f rfl).apart.colWith_data)
    rw [SfsDentry.reached, h.positive, h.replicaId]
    simp [hslot, File.at]

/-- Both ways to a file lead to that of the map. -/
theorem Implements.sees (h : Implements N D M s) (hN : 0 < N)
    (hz : FileName D z) : seenAt N s.disk z = some (M z)
      ∧ ∀ dz, s.mem z = some dz → dz.reached = M z := by
  obtain ⟨F, ht, hM⟩ := h
  have hn := ht.named hz.1 hz.2
  rw [hM.files hz]
  refine ⟨?_, fun dz hdz => (ht.cached hz.1 hz.2 hdz).reached hn⟩
  cases z with
  | nil => exact absurd ht.world.root hz.1
  | cons c Z => exact hn.finds.seenAt ht.world hN hz.2 hz.1

/-- A name is in the cache after its lookup, and the others stay there. -/
theorem Tidy.lookupD (h : Tidy N D F s) (hz : FileName D z) :
    ∃ t dz, run sysHandler (lookupD N z) s = some (0, t) ∧ Tidy N D F t
      ∧ t.disk = s.disk ∧ t.mem z = some dz ∧ Shows N t.disk z (F z) dz
      ∧ ∀ w, (s.mem w).isSome → (t.mem w).isSome := by
  cases hmem : s.mem z with
  | some dz =>
    refine ⟨s, dz, ?_, h, rfl, hmem, h.cached hz.1 hz.2 hmem, fun _ hw => hw⟩
    refine Runs.run ?_
    simp [Runs, Sfs.lookupD, hmem]
  | none =>
    obtain ⟨dz, hS, ht, hcalm⟩ := h.lookup hz.1 hz.2
    refine ⟨_, dz, ?_, ht, rfl, update_self .., hS, fun w hw => ?_⟩
    · refine Runs.run ?_
      simp only [Runs, Sfs.lookupD, does_cached, hmem, isSome_none, Bool.false_eq_true, if_false]
      exact hcalm.runs ⟨rfl, rfl⟩
    · by_cases hwz : w = z
      · simp [Sys.setD, hwz]
      · simpa [Sys.setD, hwz] using hw

/-! ## One call -/

/-- What a call does to the mount it does to the map. -/
def Refined (N : Nat) (D : Path → Prop) (M : Namespace) (s : Sys) (c : Call) : Prop :=
  ∃ new t, (∀ z, M z ≠ some new) ∧ run sysHandler (c.code N) s = some ((M.after new c).1, t)
    ∧ Implements N D (M.after new c).2 t

theorem run_checked {c k : Code Int} {t : Sys} (h : run sysHandler c s = some (0, t)) :
    run sysHandler (checked c k) s = run sysHandler k t := by
  rw [checked, run_bind_some h]
  rfl

theorem run_sfsD {k : SfsDentry → Code Int} (h : s.mem z = some dz) :
    run sysHandler (sfsD z >>= k) s = run sysHandler (k dz) s := by
  have hd : run sysHandler (sfsD z) s = some (dz, s) :=
    run_ask_some (show (s.mem z).map _ = _ by rw [h]; rfl)
  exact run_bind_some hd

/-- One name is given another file, or none. -/
theorem MapOf.update (h : MapOf D F M) (hz : FileName D z) (G : Option File) :
    MapOf D (update F z G) (update M z (G.map File.at)) where
  names {w} hw := by
    by_cases hwz : w = z
    · rw [hwz]
      exact hz
    · rw [update_of_ne hwz] at hw
      exact h.names hw
  files {w} hw := by
    by_cases hwz : w = z
    · rw [hwz, update_self, update_self]
    · rw [update_of_ne hwz, update_of_ne hwz]
      exact h.files hw

section

variable (h : Tidy N D F s) (hM : MapOf D F M)
include h hM

/-- The next inode number is that of no file. -/
theorem Tidy.next_unused (r : Nat) :
    M z ≠ some (r, s.disk.next) := by
  intro hz
  have hname := hM.names (by rw [hz]; exact nofun)
  obtain ⟨f, hf, hat⟩ :=
    map_eq_some_iff.mp ((hM.files hname).symm.trans hz)
  have hn := h.named hname.1 hname.2
  rw [hf] at hn
  exact absurd (congrArg Prod.snd hat) (ne_of_lt (h.priv.fresh trivial hn.data_node))

theorem refined_create (hN : 0 < N)
    (hN' : N ≤ 1025) (hz : FileName D z) : Refined N D M s (.create z) := by
  obtain ⟨t, dz, hrun, ht, hd, hmem, hS, -⟩ := h.lookupD hz
  have hMz := hM.files hz
  cases hf : F z with
  | some f =>
    rw [hf] at hS hMz
    refine ⟨(0, s.disk.next), t, fun _ => h.next_unused hM 0, ?_, F, ht, ?_⟩
    · rw [Call.code, run_checked hrun, run_sfsD hmem, hS.positive, Namespace.after, hMz]
      rfl
    · rw [Namespace.after, hMz]
      exact hM
  | none =>
    rw [hf] at hS hMz
    obtain ⟨u, r, hrun', hu⟩ := ht.create hN hN' hz.1 hz.2 hf hmem
    refine ⟨(r, s.disk.next), u, fun _ => h.next_unused hM r, ?_, _, hu, ?_⟩
    · rw [Call.code, run_checked hrun, run_sfsD hmem, hS.positive, Namespace.after, hMz]
      exact hrun'
    · rw [Namespace.after, hMz, hd]
      exact hM.update hz (some ⟨r, s.disk.next, none, none⟩)

theorem refined_unlink (hz : FileName D z) : Refined N D M s (.unlink z) := by
  obtain ⟨t, dz, hrun, ht, hd, hmem, hS, -⟩ := h.lookupD hz
  have hMz := hM.files hz
  cases hf : F z with
  | none =>
    rw [hf] at hS hMz
    refine ⟨(0, s.disk.next), t, fun _ => h.next_unused hM 0, ?_, F, ht, ?_⟩
    · rw [Call.code, run_checked hrun, run_sfsD hmem, hS.positive, Namespace.after, hMz]
      rfl
    · rw [Namespace.after, hMz]
      exact hM
  | some f =>
    rw [hf] at hS hMz
    obtain ⟨u, hrun', hu⟩ := ht.unlink hz.1 hz.2 hf hmem
    refine ⟨(0, s.disk.next), u, fun _ => h.next_unused hM 0, ?_, _, hu, ?_⟩
    · rw [Call.code, run_checked hrun, run_sfsD hmem, hS.positive, Namespace.after, hMz]
      exact hrun'
    · rw [Namespace.after, hMz]
      exact hM.update hz none

theorem refined_rename (hN : 0 < N) (hx : FileName D x) (hy : FileName D y) :
    Refined N D M s (.rename x y) := by
  obtain ⟨t, dx, hrun, ht, hd, hmem, hS, -⟩ := h.lookupD hx
  have hMx := hM.files hx
  cases hf : F x with
  | none =>
    rw [hf] at hS hMx
    refine ⟨(0, s.disk.next), t, fun _ => h.next_unused hM 0, ?_, F, ht, ?_⟩
    · rw [Call.code, run_checked hrun, run_sfsD hmem, hS.positive, Namespace.after, hMx]
      rfl
    · rw [Namespace.after, hMx]
      exact hM
  | some f =>
    rw [hf] at hS hMx
    obtain ⟨u, dy, hrunY, hu, -, hmemY, -, hkept⟩ := ht.lookupD hy
    obtain ⟨dx', hmemX⟩ := isSome_iff_exists.mp (hkept x (by rw [hmem]; rfl))
    by_cases hxy : x = y
    · refine ⟨(0, s.disk.next), u, fun _ => h.next_unused hM 0, ?_, F, hu,
        ?_⟩
      · rw [Call.code, run_checked hrun, run_sfsD hmem, hS.positive, Namespace.after, hMx]
        simp only [isSome_some, Bool.not_true, Bool.false_eq_true,
          if_false, hxy, if_true, map_some, run_checked hrunY]
        rfl
      · rw [Namespace.after, hMx]
        simp only [map_some, if_pos hxy]
        exact hM
    · obtain ⟨v, f', hrun', hat, hv⟩ := hu.rename hN hx.1 hx.2 hy.1 hy.2 hxy hf hmemX hmemY
      refine ⟨(0, s.disk.next), v, fun _ => h.next_unused hM 0, ?_, _, hv,
        ?_⟩
      · rw [Call.code, run_checked hrun, run_sfsD hmem, hS.positive, Namespace.after, hMx]
        simp only [isSome_some, Bool.not_true, Bool.false_eq_true,
          if_false, hxy, map_some, run_checked hrunY]
        exact hrun'
      · rw [Namespace.after, hMx]
        simp only [map_some, if_neg hxy]
        rw [← hat]
        exact (hM.update hx none).update hy (some f')

end

theorem Implements.call (h : Implements N D M s) (hN : 0 < N) (hN' : N ≤ 1025)
    {c : Call} (hc : c.Within D) : Refined N D M s c := by
  obtain ⟨F, ht, hM⟩ := h
  cases c with
  | create z => exact refined_create ht hM hN hN' hc
  | unlink z => exact refined_unlink ht hM hc
  | rename x y => exact refined_rename ht hM hN hc.1 hc.2

/-! ## A session -/

/-- By induction on the calls. -/
theorem Implements.session (hN : 0 < N) (hN' : N ≤ 1025) {calls : List Call}
    (hc : ∀ c ∈ calls, c.Within D) (h : Implements N D M s) :
    ∃ errs t M', run sysHandler (session N calls) s = some (errs, t)
      ∧ Follows calls M errs M' ∧ Implements N D M' t := by
  induction calls generalizing M s with
  | nil => exact ⟨[], s, M, rfl, .nil, h⟩
  | cons c calls ih =>
    rw [forall_mem_cons] at hc
    obtain ⟨new, t, hnew, hrun, ht⟩ := h.call hN hN' hc.1
    obtain ⟨errs, u, M', hrun', hfollows, hu⟩ := ih hc.2 ht
    refine ⟨_, u, M', ?_, .cons hnew hfollows, hu⟩
    rw [Sfs.session, run_bind_some hrun, run_bind_some hrun']
    rfl

/-- **NAME SPACE REFINEMENT**: every session runs to its end, answers and acts
    as the plain map does, and leaves a consistent mount, in which the dentries
    and fresh lookups lead to the files of the map. -/
theorem session_refines (hN : 1 ≤ N) (hN' : N ≤ 64) (h : Implements N D M s) {calls : List Call}
    (hc : ∀ c ∈ calls, c.Within D) :
    ∃ errs t M', run sysHandler (Sfs.session N calls) s = some (errs, t)
      ∧ Follows calls M errs M' ∧ Implements N D M' t
      ∧ ∀ z, FileName D z → seenAt N t.disk z = some (M' z)
        ∧ ∀ dz, t.mem z = some dz → dz.reached = M' z := by
  obtain ⟨errs, t, M', hrun, hfollows, ht⟩ :=
    h.session hN (by omega) hc
  exact ⟨errs, t, M', hrun, hfollows, ht, fun z hz => ht.sees hN hz⟩

end Refinement

/-! ## A mount with two files -/

/-- A mount in which every name has been looked up. -/
theorem tidy_cachedSys {N : Nat} {d : Disk} {ds : List Path} {F : Path → Option File}
    (w : World N (· ∈ ds) d) (hN : 0 < N) (hpriv : Private (fun _ => True) d)
    (hnamed : ∀ {z}, z ∉ ds → z.tail ∈ ds → Named d z (F z))
    (hplain : ∀ {z f}, F z = some f → f.parted = none) :
    Tidy N (· ∈ ds) F (cachedSys d N ds F) where
  world := w
  priv := hpriv
  seen hZ := cachedSys_seen w hN hZ
  named := hnamed
  spanned _ _ hf hp := absurd (hplain hf) hp
  cached {z dz} hz hZ hdz := by
    obtain ⟨dz', hdz', hS⟩ := (cachedSys_ready w hN hz hZ (hnamed hz hZ)).shows
    cases hdz'.symm.trans hdz
    exact hS
  counter := Nat.zero_le _

theorem duo_absent {z : Path} (h₀ : z ≠ [0, 0]) (h₁ : z ≠ [1])
    (hz : z ∉ duoDirs) (p : Nat) : duo.node z p = none := by
  by_contra hne
  obtain ⟨o, ho⟩ := ne_none_iff_exists'.mp hne
  have hm := mem_of_node ho
  simp only [duoEntries, mem_cons, Prod.mk.injEq, not_mem_nil, or_false] at hm
  simp only [duoDirs, mem_cons, not_mem_nil, or_false, not_or] at hz
  rcases hm with h | h | h | h | h
  · exact hz.1 h.1
  · exact hz.1 h.1
  · exact hz.2 h.1
  · exact h₀ h.1
  · exact h₁ h.1

theorem duo_tidy : Tidy 2 (· ∈ duoDirs) duoFiles duoSys := by
  refine tidy_cachedSys duo_world (by decide) (private_ofList (by decide))
    (fun {z} hz hZ => ?_) (fun {z f} hf => ?_)
  · by_cases h₀ : z = [0, 0]
    · subst h₀
      exact duo_old.named
    · by_cases h₁ : z = [1]
      · subst h₁
        exact duo_over.new.named
      · have hF : duoFiles z = none := by
          rw [duoFiles, if_neg h₀, if_neg h₁]
        rw [hF]
        exact named_absent duo_world hz (fun q _ =>
          (duo_world.col_none_iff hz).mpr (duo_absent h₀ h₁ hz q))
  · unfold duoFiles at hf
    split at hf
    · rw [← Option.some.inj hf]
    · split at hf
      · rw [← Option.some.inj hf]
      · cases hf

theorem duo_implements : Implements 2 (· ∈ duoDirs) (fun z => (duoFiles z).map File.at) duoSys := by
  refine ⟨duoFiles, duo_tidy, fun {z} hz => ?_, fun _ => rfl⟩
  unfold duoFiles at hz
  split at hz
  · next h =>
    rw [h]
    exact ⟨by decide, by decide⟩
  · split at hz
    · next h =>
      rw [h]
      exact ⟨by decide, by decide⟩
    · exact absurd rfl hz

/-- The file in `[0]` is renamed over the other one, and its name is created anew. -/
theorem duo_session_refines : ∃ errs t M', run sysHandler
        (session 2 [.rename [0, 0] [1], .create [0, 0], .unlink [1]]) duoSys = some (errs, t)
      ∧ Follows [.rename [0, 0] [1], .create [0, 0], .unlink [1]]
        (fun z => (duoFiles z).map File.at) errs M'
      ∧ Implements 2 (· ∈ duoDirs) M' t
      ∧ ∀ z, FileName (· ∈ duoDirs) z → seenAt 2 t.disk z = some (M' z)
        ∧ ∀ dz, t.mem z = some dz → dz.reached = M' z := by
  refine session_refines (by decide) (by decide) duo_implements ?_
  simp [Call.Within, FileName, duoDirs]

end Sfs
