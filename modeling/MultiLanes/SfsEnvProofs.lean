import MultiLanes.ChoiceProofs
import MultiLanes.SfsStateProofs

/-! # SFS — surroundings that may refuse

The operations of the partitions' file systems can fail: `Surroundings` are the
environments of SFS in which what reads or changes the dentries is answered as it is by
`sysHandler`, and what changes a disk is either done or refused, with an error and no
change.  `harsh` may refuse everything.

Code that only reads and changes dentries runs in all of them alike (`Still`); its rules
are the same as those of `Does`. -/

namespace Sfs

open InteractProg Option

/-- The requests that change a disk. -/
def SfsReq.durable : SfsReq → Bool
  | .mkdir _ _ | .setNormal _ _ | .create _ _ | .link _ _ _ | .setxattr _ _ _
  | .rename _ _ _ | .unlink _ _ | .rmdir _ _ => true
  | _ => false

/-- The answer is an error. -/
def SfsReq.Refused : (q : SfsReq) → q.Ans → Prop
  | .mkdir _ _, err => err ≠ (0 : Int)
  | .setNormal _ _, err => err ≠ (0 : Int)
  | .create _ _, r => ∃ err : Int, err ≠ 0 ∧ r = .error err
  | .link _ _ _, err => err ≠ (0 : Int)
  | .setxattr _ _ _, err => err ≠ (0 : Int)
  | .rename _ _ _, err => err ≠ (0 : Int)
  | .unlink _ _, err => err ≠ (0 : Int)
  | .rmdir _ _, err => err ≠ (0 : Int)
  | _, _ => False

/-- An environment of SFS, for a caller who may use the attributes `trusted.*`: reads do not
    fail.  Where they may, and for other callers, there is `frail`. -/
structure Surroundings where
  env : Env SfsSig Sys
  quiet : ∀ {q s x t}, q.durable = false → (env q s x t ↔ sysHandler q s = some (x, t))
  durable : ∀ {q s x t}, q.durable = true → env q s x t →
    sysHandler q s = some (x, t) ∨ q.Refused x ∧ t = s
  answers : ∀ {q : SfsReq} (s : Sys), q.durable = true → ∃ x t, env q s x t

/-- A request is done whenever it is legal. -/
def Surroundings.Obeys (E : Surroundings) (q : SfsReq) : Prop :=
  ∀ {s x t}, E.env q s x t → sysHandler q s = some (x, t)

theorem step_durable {q : SfsReq} (d : Disk) (hq : q.durable = true) :
    (d.step q).isSome = true := by
  cases q <;> first | (simp only [Disk.step]; grind) | cases hq

/-- A durable request is one to the disks. -/
theorem sysHandler_eq_step {q : SfsReq} (s : Sys) (hq : q.durable = true) :
    sysHandler q s = (s.disk.step q).map (fun r => (r.1, s.onDisk r.2)) := by
  cases q <;> first | rfl | exact nomatch hq

/-- A durable request is always answered. -/
theorem sysHandler_durable {q : SfsReq} (s : Sys) (hq : q.durable = true) :
    ∃ x t, sysHandler q s = some (x, t) := by
  obtain ⟨r, hr⟩ := isSome_iff_exists.mp (step_durable s.disk hq)
  rw [sysHandler_eq_step s hq, hr]
  exact ⟨_, _, rfl⟩

/-- The surroundings in which every operation that is legal succeeds. -/
def mild : Surroundings where
  env := Handler.env sysHandler
  quiet _ := Iff.rfl
  durable _ h := Or.inl h
  answers s hq := sysHandler_durable s hq

/-- The surroundings that may refuse every operation. -/
def harsh : Surroundings where
  env q s x t := sysHandler q s = some (x, t) ∨ q.Refused x ∧ t = s
  quiet {q s x t} hq := by
    refine or_iff_left ?_
    rintro ⟨hr, -⟩
    cases q <;> first | exact hr | exact nomatch hq
  durable _ h := h
  answers s hq := by
    obtain ⟨x, t, h⟩ := sysHandler_durable s hq
    exact ⟨x, t, Or.inl h⟩

/-! ## Code that changes no disk -/

/-- `sysHandler` for the requests that change no disk. -/
def quietHandler : Handler SfsSig Sys := fun q s =>
  if q.durable then none else sysHandler q s

/-- The code runs from `s` to `t` and returns `a`, and asks for no change of the disks. -/
def Still {α : Type} (c : Code α) (s : Sys) (a : α) (t : Sys) : Prop :=
  run quietHandler c s = some (a, t)

section Quiet

variable {α β : Type} {E : Surroundings} {s t u : Sys} {x y : Path} {p i : Nat}
  {d : SfsDentry} {a : α} {b : β}

variable {q : SfsReq} {r : q.Ans} {c : Code α}

theorem quietHandler_eq_some (h : quietHandler q s = some (r, t)) :
    q.durable = false ∧ sysHandler q s = some (r, t) := by
  unfold quietHandler at h
  split at h
  · cases h
  · next hq => exact ⟨by simpa using hq, h⟩

theorem quiet_disk (hq : q.durable = false)
    (h : sysHandler q s = some (r, t)) : t.disk = s.disk := by
  cases q with
  | cached x =>
    cases h
    rfl
  | sfsD x =>
    obtain ⟨d, -, hd⟩ := map_eq_some_iff.mp h
    rw [← (Prod.mk.inj hd).2]
  | modD x f =>
    obtain ⟨d, -, hd⟩ := map_eq_some_iff.mp h
    rw [← (Prod.mk.inj hd).2]
    rfl
  | setD x d =>
    cases h
    rfl
  | moveD x y =>
    cases h
    rfl
  | addDispatch =>
    cases h
    rfl
  | clearDispatch =>
    cases h
    rfl
  | lookup x p =>
    cases h
    rfl
  | isNormal x p =>
    cases h
    rfl
  | getxattr p i =>
    cases h
    rfl
  | oops => exact r.elim
  | spin => exact r.elim
  | _ => cases hq

/-- What a request does to the disks: nothing, or the step that it stands for. -/
theorem disk_or_step (h : sysHandler q s = some (r, t)) :
    t.disk = s.disk ∨ s.disk.step q = some (r, t.disk) := by
  cases hq : q.durable with
  | false => exact .inl (quiet_disk hq h)
  | true =>
    rw [sysHandler_eq_step s hq] at h
    obtain ⟨⟨b, d⟩, hr, heq⟩ := map_eq_some_iff.mp h
    cases heq
    exact .inr hr

theorem Surroundings.disk (h : E.env q s r t) :
    t.disk = s.disk ∨ s.disk.step q = some (r, t.disk) := by
  cases hq : q.durable with
  | false => exact disk_or_step ((E.quiet hq).mp h)
  | true =>
    rcases E.durable hq h with hs | ⟨-, rfl⟩
    · exact disk_or_step hs
    · exact .inl rfl

theorem failing_quiet (hq : q.durable = false) (e : Int) : failing e q = none := by
  cases q <;> first | rfl | exact nomatch hq

theorem Still.bind {f : α → Code β} (h : Still c s a t)
    (hf : Still (f a) t b u) : Still (c >>= f) s b u :=
  (run_bind_some h).trans hf

theorem Still.ret : Still (pure a) s a s := rfl

/-- The rule of `Does` for it. -/
theorem Still.calm (h : Still c s a t) : Calm c s a t := by
  induction c generalizing s with
  | ret b =>
    cases h
    exact Calm.ret
  | ask q k ih =>
    obtain ⟨⟨r, v⟩, hq, hk⟩ :=
      bind_eq_some_iff.mp ((run_ask ..).symm.trans h)
    obtain ⟨hd, hs⟩ := quietHandler_eq_some hq
    exact (Calm.perform hs (failing_quiet hd) (quiet_disk hd hs)).bind (ih r hk)

theorem still_run (h : Still c s a t) : run sysHandler c s = some (a, t) := by
  induction c generalizing s with
  | ret b => exact h
  | ask q k ih =>
    obtain ⟨⟨r, v⟩, hq, hk⟩ :=
      bind_eq_some_iff.mp ((run_ask ..).symm.trans h)
    rw [run_ask_some (quietHandler_eq_some hq).2]
    exact ih r hk

/-- The surroundings do not matter to it. -/
theorem must_still {Q : α → Sys → Prop} (h : Still c s a t) : Must E.env c s Q ↔ Q a t := by
  refine must_of_run (h := quietHandler) (fun {q s x t} hq y u => ?_) h
  obtain ⟨hd, hs⟩ := quietHandler_eq_some hq
  rw [E.quiet hd, hs, Option.some.injEq, eq_comm]

/-- A part that runs in all surroundings alike. -/
theorem must_still_bind {f : α → Code β} {Q : β → Sys → Prop}
    (h : Still c s a t) : Must E.env (c >>= f) s Q ↔ Must E.env (f a) t Q := by
  rw [must_bind, must_still h]

theorem Still.perform (hd : q.durable = false) (hq : sysHandler q s = some (r, t)) :
    Still (InteractProg.perform (S := SfsSig) q) s r t := by
  have hq' : quietHandler q s = some (r, t) := by
    rw [quietHandler, hd]
    exact hq
  exact run_ask_some hq'

theorem still_read (h : s.mem x = some d) : Still (sfsD x) s d s :=
  .perform rfl (congrArg (Option.map (fun d => (d, s))) h)

/-! ### The rules for `Still` -/

theorem still_quiet {f : q.Ans → Code β}
    (hd : q.durable = false) (hq : sysHandler q s = some (r, t)) :
    Still (InteractProg.perform (S := SfsSig) q >>= f) s b u ↔ Still (f r) t b u := by
  rw [Still, run_bind_some (Still.perform hd hq), Still]

theorem not_still_of_none {f : q.Ans → Code β} (hq : sysHandler q s = none) :
    ¬ Still (InteractProg.perform (S := SfsSig) q >>= f) s b u := by
  have hn : quietHandler q s = none := by
    rw [quietHandler, hq, ite_self]
  intro h
  cases (run_ask_none hn).symm.trans h

@[simp] theorem still_ret {a' : α} : Still (.ret a) s a' t ↔ a = a' ∧ s = t := by
  rw [Still, run_ret, Option.some.injEq, Prod.mk.injEq]

/-- A request for a dentry, which has to be there. -/
theorem still_dentry {g : SfsDentry → q.Ans × Sys} {f : q.Ans → Code β}
    (hq : q.durable = false) (hs : sysHandler q s = (s.mem x).map g) :
    Still (InteractProg.perform (S := SfsSig) q >>= f) s b u
      ↔ ∃ d, s.mem x = some d ∧ Still (f (g d).1) (g d).2 b u := by
  cases hx : s.mem x with
  | none =>
    rw [hx] at hs
    simp only [reduceCtorEq, false_and, exists_false, iff_false]
    exact not_still_of_none hs
  | some d =>
    rw [hx] at hs
    simp only [Option.some.injEq, exists_eq_left']
    exact still_quiet hq hs

@[simp] theorem still_sfsD {f : SfsDentry → Code β} :
    Still (sfsD x >>= f) s b u ↔ ∃ d, s.mem x = some d ∧ Still (f d) s b u :=
  still_dentry (q := .sfsD x) rfl rfl

@[simp] theorem still_setD {f : Unit → Code β} :
    Still (setD x d >>= f) s b u ↔ Still (f ()) (s.setD x d) b u :=
  still_quiet (q := .setD x d) rfl rfl

@[simp] theorem still_modD {g : SfsDentry → SfsDentry} {f : Unit → Code β} :
    Still (modD x g >>= f) s b u ↔ ∃ d, s.mem x = some d ∧ Still (f ()) (s.setD x (g d)) b u :=
  still_dentry (q := .modD x g) rfl rfl

@[simp] theorem still_modD_last {g : SfsDentry → SfsDentry} :
    Still (modD x g) s () u ↔ ∃ d, s.mem x = some d ∧ s.setD x (g d) = u := by
  have h := still_modD (x := x) (g := g) (f := .ret) (s := s) (b := ()) (u := u)
  simp only [still_ret, true_and] at h
  exact h

@[simp] theorem still_lookup {f : Option Inode → Code β} :
    Still (lookup x p >>= f) s b u ↔ Still (f ((s.disk.node x p).map Obj.inode)) s b u :=
  still_quiet (q := .lookup x p) rfl rfl

@[simp] theorem still_isNormal {f : Bool → Code β} : Still (isNormal x p >>= f) s b u ↔
      Still (f (decide (s.disk.node x p = some (.dir true)))) s b u :=
  still_quiet (q := .isNormal x p) rfl rfl

end Quiet

end Sfs
