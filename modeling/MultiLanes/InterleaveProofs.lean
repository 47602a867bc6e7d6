import MultiLanes.ChoiceProofs
import Mathlib.Logic.Function.Basic

/-! # Interleaving — threads that share a state

A `Machine` runs any number of threads over one state.  A thread is a program with what
it OWNS; threads whose owners are not apart never run together. Between two requests of
a thread any other thread may move, the surroundings may change the state under the
threads that run (`drifts`), and all of it may be started again (`boots`).

A `Contract` splits what is to be kept among the owners: the invariant, the requests
that an owner may make in a state (`may`), and what the others leave it (`rely`).  A
thread is `Guarded` when it keeps to what it may do as long as the others do.  When the
contract fits the machine, the invariant holds in every configuration of every run
(`Fits.inv`). -/

namespace InteractProg

open Function

variable {S : Sig} {σ κ α β : Type}

/-! ## Machines -/

/-- A program, with what it owns. -/
structure Thread (S : Sig) (κ α : Type) where
  own : κ
  rest : Prog S α

structure Machine (S : Sig) (σ κ α : Type) where
  env : Env S σ
  /-- a thread that may be started -/
  starts : Thread S κ α → σ → Prop
  apart : κ → κ → Prop
  /-- a change while the threads of these owners run -/
  drifts : (κ → Prop) → σ → σ → Prop
  boots : σ → σ → Prop

/-- The state and the threads that run. -/
structure Config (S : Sig) (σ κ α : Type) where
  state : σ
  pool : Nat → Option (Thread S κ α)

/-- The owners of the threads that run. -/
def Config.Owns (c : Config S σ κ α) (k : κ) : Prop :=
  ∃ i p, c.pool i = some ⟨k, p⟩

/-- The state is `t`, and `o` is in the place `i` of the pool. -/
def Config.put (c : Config S σ κ α) (t : σ) (i : Nat)
    (o : Option (Thread S κ α)) : Config S σ κ α :=
  ⟨t, update c.pool i o⟩

variable {c : Config S σ κ α} {t : σ} {i : Nat} {o : Option (Thread S κ α)}

@[simp] theorem Config.put_pool : (c.put t i o).pool i = o :=
  update_self ..

theorem Config.put_pool_of_ne {j : Nat} (h : j ≠ i) :
    (c.put t i o).pool j = c.pool j := update_of_ne h ..

@[simp] theorem Config.put_put {u : σ}
    {v : Option (Thread S κ α)} : (c.put t i o).put u i v = c.put u i v := by
  rw [put, put, put, update_idem]

theorem Config.Owns.of_put {k l : κ} {p : Prog S α} (h : (c.put t i (some ⟨k, p⟩)).Owns l) :
    l = k ∨ c.Owns l := by
  obtain ⟨j, p', hj⟩ := h
  by_cases hji : j = i
  · rw [hji, put_pool] at hj
    cases hj
    exact .inl rfl
  · rw [put_pool_of_ne hji] at hj
    exact .inr ⟨j, p', hj⟩

/-- Nothing runs. -/
def Config.idle (s : σ) : Config S σ κ α := ⟨s, fun _ => none⟩

theorem Config.not_owns_idle {s : σ} {k : κ} :
    ¬ (Config.idle s : Config S σ κ α).Owns k := fun ⟨_, _, h⟩ => nomatch h

namespace Machine

variable (M : Machine S σ κ α)

inductive Step : Config S σ κ α → Config S σ κ α → Prop
  | start {c : Config S σ κ α} {i : Nat} {w : Thread S κ α} :
      c.pool i = none → (∀ k, c.Owns k → M.apart w.own k) →
      M.starts w c.state →
      Step c (c.put c.state i (some w))
  | ask {c : Config S σ κ α} {i : Nat} {k : κ} {q : S.Req}
      {f : S.Ans q → Prog S α} {x : S.Ans q} {t : σ} :
      c.pool i = some ⟨k, .ask q f⟩ → M.env q c.state x t →
      Step c (c.put t i (some ⟨k, f x⟩))
  | leave {c : Config S σ κ α} {i : Nat} {k : κ} {a : α} :
      c.pool i = some ⟨k, .ret a⟩ →
      Step c (c.put c.state i none)
  | drift {c : Config S σ κ α} {t : σ} :
      M.drifts c.Owns c.state t → Step c ⟨t, c.pool⟩
  | boot {c : Config S σ κ α} {t : σ} : M.boots c.state t → Step c (.idle t)

/-- The configurations that are reached from the states of `init`. -/
inductive Runs (init : σ → Prop) : Config S σ κ α → Prop
  | init {s : σ} : init s → Runs init (.idle s)
  | step {c c' : Config S σ κ α} : Runs init c → M.Step c c' → Runs init c'

variable {M} {init : σ → Prop}

/-- A thread that runs alone, to its end. -/
theorem Runs.alone {s t : σ} {w : Thread S κ α} {a : α} (h : M.Runs init (.idle s))
    (hw : M.starts w s) (hout : Outcome M.env w.rest s a t) : M.Runs init (.idle t) := by
  obtain ⟨k, p⟩ := w
  have hstart : M.Runs init ((Config.idle s).put s 0 (some ⟨k, p⟩)) :=
    h.step (.start rfl (fun _ hno => (Config.not_owns_idle hno).elim) hw)
  clear h hw
  -- the pool holds what is left of this thread, and no other
  generalize hc : Config.idle s = c at hstart
  have hpool : c.pool = fun _ => none := by rw [← hc]; rfl
  clear hc
  induction p generalizing s with
  | ret b =>
    obtain ⟨-, rfl⟩ := hout
    have hend := hstart.step (.leave (i := 0) Config.put_pool)
    rw [Config.put_put, Config.put, hpool, update_eq_self] at hend
    exact hend
  | ask q f ih =>
    obtain ⟨x, u, hq, hrest⟩ := hout
    have hnext := hstart.step (.ask (i := 0) Config.put_pool hq)
    rw [Config.put_put] at hnext
    exact ih x hrest hnext

/-- What is left of a program after its first `n` requests, and the state then. -/
def goOn (h : Handler S σ) : Nat → Prog S α → σ → Option (Prog S α × σ)
  | 0, p, s => some (p, s)
  | _ + 1, .ret _, _ => none
  | n + 1, .ask q f, s => (h q s).bind fun r => goOn h n (f r.1) r.2

/-- A thread goes on for some requests, while the others wait. -/
theorem Runs.goOn {h : Handler S σ} {n : Nat} {c : Config S σ κ α} {i : Nat} {k : κ}
    {p p' : Prog S α} {t : σ} (hc : M.Runs init c) (hE : ∀ {q s x t}, h.env q s x t → M.env q s x t)
    (hi : c.pool i = some ⟨k, p⟩) (hgo : Machine.goOn h n p c.state = some (p', t)) :
    M.Runs init (c.put t i (some ⟨k, p'⟩)) := by
  induction n generalizing c p with
  | zero =>
    obtain ⟨rfl, rfl⟩ := answer_inj hgo
    have hsame : c.put c.state i (some ⟨k, p⟩) = c := by
      rw [Config.put, ← hi, update_eq_self]
    rw [hsame]
    exact hc
  | succ n ih =>
    cases p with
    | ret a => cases hgo
    | ask q f =>
      obtain ⟨⟨x, u⟩, hq, hrest⟩ := Option.bind_eq_some_iff.mp hgo
      have hnext := ih (hc.step (.ask hi (hE hq))) Config.put_pool hrest
      rwa [Config.put_put] at hnext

end Machine

/-! ## Contracts -/

structure Contract (S : Sig) (σ κ : Type) where
  inv : σ → Prop
  may : κ → S.Req → σ → Prop
  rely : κ → σ → σ → Prop

namespace Contract

variable (C : Contract S σ κ) (E : Env S σ)

/-- What the others leave is reflexive and transitive, what an owner may do keeps
    the invariant, and owners that are apart leave each other alone. -/
structure Lawful (apart : κ → κ → Prop) : Prop where
  refl : ∀ k s, C.rely k s s
  trans : ∀ {k s t u}, C.rely k s t → C.rely k t u → C.rely k s u
  keep : ∀ {k q s x t}, C.inv s → C.may k q s → E q s x t → C.inv t
  bear : ∀ {k l q s x t}, apart k l → C.inv s → C.may k q s → E q s x t → C.rely l s t

/-- See the header; the program returns in `Q`. -/
def Guarded (k : κ) (Q : α → σ → Prop) : Prog S α → σ → Prop
  | .ret a, s => ∀ t, C.rely k s t → C.inv t → Q a t
  | .ask q f, s => ∀ t, C.rely k s t → C.inv t →
      C.may k q t ∧ ∀ x u, E q t x u → Guarded k Q (f x) u

/-- From `P` on the program is guarded, and returns in `Q`. -/
def Triple (k : κ) (P : σ → Prop) (p : Prog S α) (Q : α → σ → Prop) : Prop :=
  ∀ s, C.inv s → P s → C.Guarded E k Q p s

/-- The others keep it. -/
def Stable (k : κ) (P : σ → Prop) : Prop :=
  ∀ {s t}, C.rely k s t → P s → P t

section Rules

variable {C E} {apart : κ → κ → Prop} (L : C.Lawful E apart) {k : κ}
  {P P' : σ → Prop} {Q : α → σ → Prop} {R : β → σ → Prop}

include L

variable {p : Prog S α} {s : σ}

theorem Guarded.others {t : σ} (h : C.Guarded E k Q p s)
    (hr : C.rely k s t) : C.Guarded E k Q p t := by
  cases p with
  | ret a => exact fun u hu hi => h u (L.trans hr hu) hi
  | ask q f => exact fun u hu hi => h u (L.trans hr hu) hi

/-- It is enough to look at the states that keep the invariant. -/
theorem Guarded.of_later (h : ∀ t, C.rely k s t → C.inv t → C.Guarded E k Q p t) :
    C.Guarded E k Q p s := by
  cases p with
  | ret a => exact fun t ht hi => h t ht hi t (L.refl k t) hi
  | ask q f => exact fun t ht hi => h t ht hi t (L.refl k t) hi

theorem Guarded.bind {f : α → Prog S β}
    (h : C.Guarded E k Q p s) (hf : ∀ a, C.Triple E k (Q a) (f a) R) :
    C.Guarded E k R (p >>= f) s := by
  induction p generalizing s with
  | ret a => exact .of_later L fun t ht hi => hf a t hi (h t ht hi)
  | ask q g ih =>
    intro t ht hi
    obtain ⟨hm, hg⟩ := h t ht hi
    exact ⟨hm, fun x u hu => ih x (hg x u hu)⟩

theorem Triple.bind {f : α → Prog S β} (hp : C.Triple E k P p Q)
    (hf : ∀ a, C.Triple E k (Q a) (f a) R) : C.Triple E k P (p >>= f) R :=
  fun s hi hs => (hp s hi hs).bind L hf

/-- One request, and the rest. -/
theorem Triple.perform {q : S.Req} {f : S.Ans q → Prog S α} {T : S.Ans q → σ → Prop}
    (hP : C.Stable k P) (hm : ∀ s, C.inv s → P s → C.may k q s)
    (hs : ∀ s x t, C.inv s → P s → E q s x t → T x t) (hf : ∀ x, C.Triple E k (T x) (f x) Q) :
    C.Triple E k P (InteractProg.perform q >>= f) Q := by
  intro s _ hPs t ht hi
  have hPt := hP ht hPs
  have hmt := hm t hi hPt
  exact ⟨hmt, fun x u hu =>
    hf x u (L.keep hi hmt hu) (hs t x u hi hPt hu)⟩

omit L

theorem Triple.ret {a : α} (hP : C.Stable k P)
    (hQ : ∀ s, C.inv s → P s → Q a s) : C.Triple E k P (.ret a) Q :=
  fun _ _ hPs t ht hi => hQ t hi (hP ht hPs)

theorem Triple.pre (h : C.Triple E k P p Q)
    (hP : ∀ s, C.inv s → P' s → P s) : C.Triple E k P' p Q :=
  fun s hi hs => h s hi (hP s hi hs)

theorem Guarded.post {Q' : α → σ → Prop}
    (h : C.Guarded E k Q p s) (hQ : ∀ a s, C.inv s → Q a s → Q' a s) :
    C.Guarded E k Q' p s := by
  induction p generalizing s with
  | ret a => exact fun t ht hi => hQ a t hi (h t ht hi)
  | ask q f ih =>
    intro t ht hi
    obtain ⟨hm, hf⟩ := h t ht hi
    exact ⟨hm, fun x u hu => ih x (hf x u hu)⟩

theorem Triple.post {Q' : α → σ → Prop}
    (h : C.Triple E k P p Q) (hQ : ∀ a s, C.inv s → Q a s → Q' a s) :
    C.Triple E k P p Q' := fun s hi hs => (h s hi hs).post hQ

/-- A precondition about the program's own data. -/
theorem Triple.given {φ : Prop} (h : φ → C.Triple E k P p Q) :
    C.Triple E k (fun s => φ ∧ P s) p Q := fun s hi hs => h hs.1 s hi hs.2

/-- Code of one kind keeps what its requests keep. -/
theorem Triple.of_asks {G : S.Req → Prop} {A : (q : S.Req) → S.Ans q → Prop} {T : α → Prop}
    (hp : Asks G A T p) (hP : C.Stable k P) (hm : ∀ q s, G q → C.inv s → P s → C.may k q s)
    (hs : ∀ {q s x t}, G q → C.inv s → P s → E q s x t → A q x ∧ P t) :
    C.Triple E k P p (fun a s => T a ∧ P s) := by
  intro s hi hPs
  clear hi
  induction p generalizing s with
  | ret a => exact fun t ht _ => ⟨hp, hP ht hPs⟩
  | ask q f ih =>
    intro t ht hi
    have hPt := hP ht hPs
    refine ⟨hm q t hp.1 hi hPt, fun x u hu => ?_⟩
    obtain ⟨hx, hPu⟩ := hs hp.1 hi hPt hu
    exact ih x (hp.2 x hx) u hPu

end Rules

/-! ## The invariant of a machine -/

variable {E}

/-- The contract holds for all that a machine does. -/
structure Fits (M : Machine S σ κ α) (init : σ → Prop) : Prop where
  lawful : C.Lawful M.env M.apart
  symm : ∀ {k l}, M.apart k l → M.apart l k
  init : ∀ {s}, init s → C.inv s
  starts : ∀ {w s}, C.inv s → M.starts w s → C.Guarded M.env w.own (fun _ _ => True) w.rest s
  drifts : ∀ {O s t}, C.inv s → M.drifts O s t → C.inv t ∧ ∀ k, O k → C.rely k s t
  boots : ∀ {s t}, C.inv s → M.boots s t → C.inv t

/-- What holds of a configuration: the invariant, all threads are guarded, and they are apart. -/
structure Sound (M : Machine S σ κ α) (c : Config S σ κ α) : Prop where
  inv : C.inv c.state
  guarded : ∀ {i w}, c.pool i = some w →
    C.Guarded M.env w.own (fun _ _ => True) w.rest c.state
  apart : ∀ {i j v w}, c.pool i = some v → c.pool j = some w → i ≠ j → M.apart v.own w.own

section Soundness

variable {C} {M : Machine S σ κ α} {init : σ → Prop} {c c' : Config S σ κ α}

theorem sound_idle {s : σ} (h : C.inv s) : C.Sound M (.idle s) :=
  ⟨h, nofun, nofun⟩

/-- The state changes under threads that rely on no more. -/
theorem Sound.under {t : σ} (h : C.Sound M c) (F : C.Fits M init) (hi : C.inv t)
    (hr : ∀ {i w}, c.pool i = some w → C.rely w.own c.state t) :
    C.Sound M ⟨t, c.pool⟩ :=
  ⟨hi, fun hw => (h.guarded hw).others F.lawful (hr hw), h.apart⟩

/-- A place in the pool changes, and the state under the other threads. -/
theorem Sound.replace {t : σ} {i : Nat} {o : Option (Thread S κ α)}
    (h : C.Sound M c) (F : C.Fits M init) (hi : C.inv t)
    (hr : ∀ {j w}, c.pool j = some w → j ≠ i → C.rely w.own c.state t)
    (ho : ∀ w, o = some w → C.Guarded M.env w.own (fun _ _ => True) w.rest t
        ∧ ∀ {j v}, c.pool j = some v → j ≠ i → M.apart w.own v.own) :
    C.Sound M (c.put t i o) := by
  refine ⟨hi, fun {j w} hw => ?_, fun {j l v w} hv hw hne => ?_⟩
  · by_cases hj : j = i
    · subst hj
      rw [Config.put_pool] at hw
      exact (ho w hw).1
    · rw [Config.put_pool_of_ne hj] at hw
      exact (h.guarded hw).others F.lawful (hr hw hj)
  · by_cases hj : j = i
    · subst hj
      rw [Config.put_pool] at hv
      rw [Config.put_pool_of_ne hne.symm] at hw
      exact (ho v hv).2 hw hne.symm
    · rw [Config.put_pool_of_ne hj] at hv
      by_cases hl : l = i
      · subst hl
        rw [Config.put_pool] at hw
        exact F.symm ((ho w hw).2 hv hj)
      · rw [Config.put_pool_of_ne hl] at hw
        exact h.apart hv hw hne

theorem Sound.step (h : C.Sound M c) (F : C.Fits M init) (hs : M.Step c c') : C.Sound M c' := by
  cases hs with
  | @start i w hfree hapart hw =>
    refine h.replace F h.inv (fun _ _ => F.lawful.refl _ _) ?_
    rintro _ ⟨⟩
    exact ⟨F.starts h.inv hw, fun hv _ => hapart _ ⟨_, _, hv⟩⟩
  | @ask i k q f x t hi hq =>
    obtain ⟨hm, hrest⟩ := h.guarded hi c.state (F.lawful.refl _ _) h.inv
    have happ : ∀ {j w}, c.pool j = some w → j ≠ i → M.apart k w.own :=
      fun hw hne => h.apart hi hw hne.symm
    refine h.replace F (F.lawful.keep h.inv hm hq) ?_ ?_
    · intro j w hw hne
      exact F.lawful.bear (happ hw hne) h.inv hm hq
    · rintro _ ⟨⟩
      exact ⟨hrest x t hq, happ⟩
  | leave hi => exact h.replace F h.inv (fun _ _ => F.lawful.refl _ _) nofun
  | drift hd =>
    obtain ⟨hi, hr⟩ := F.drifts h.inv hd
    exact h.under F hi fun hw => hr _ ⟨_, _, hw⟩
  | boot hb => exact sound_idle (F.boots h.inv hb)

/-- In every configuration of every run. -/
theorem Fits.sound (F : C.Fits M init) (hc : M.Runs init c) : C.Sound M c := by
  induction hc with
  | init hs => exact sound_idle (F.init hs)
  | step _ hs ih => exact ih.step F hs

theorem Fits.inv (F : C.Fits M init) (hc : M.Runs init c) : C.inv c.state :=
  (F.sound hc).inv

end Soundness

end Contract

end InteractProg
