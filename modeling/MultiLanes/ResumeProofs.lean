import MultiLanes.ProgProofs
import Mathlib.Logic.Function.Iterate

/-! # Resumptions — a program that is run in pieces

A thread that is scheduled now and then is a program together with its state: `stepOnce`
lets it make one request, `runUntil` runs it up to and including the first request of a
kind, and what is left is again a program. Cutting a run into pieces does not change
where it ends (`run_stepMany`).

`Ends` is total correctness with an invariant for the moments between two requests,
which is what a concurrent reader relies on. -/

namespace InteractProg

variable {S : Sig} {α β σ : Type}

/-- One request, when it is answered. -/
def stepOnce (h : Handler S σ) : Prog S α × σ → Prog S α × σ
  | (.ret a, s) => (.ret a, s)
  | (.ask q k, s) =>
    match h q s with
    | none => (.ask q k, s)
    | some (x, s') => (k x, s')

/-- `n` requests, or as many as there are. -/
def stepMany (h : Handler S σ) (n : Nat) (r : Prog S α × σ) : Prog S α × σ :=
  (stepOnce h)^[n] r

theorem run_stepOnce (h : Handler S σ) (r : Prog S α × σ) :
    run h (stepOnce h r).1 (stepOnce h r).2 = run h r.1 r.2 := by
  obtain ⟨p, s⟩ := r
  cases p with
  | ret a => rfl
  | ask q k =>
    cases hq : h q s with
    | none => simp only [stepOnce, hq]
    | some r =>
      rw [run_ask_some hq]
      simp only [stepOnce, hq]

theorem run_stepMany (h : Handler S σ) (n : Nat) (r : Prog S α × σ) :
    run h (stepMany h n r).1 (stepMany h n r).2 = run h r.1 r.2 := by
  induction n generalizing r with
  | zero => rfl
  | succ n ih => exact (ih (stepOnce h r)).trans (run_stepOnce h r)

theorem stepMany_ret (h : Handler S σ) (n : Nat) (a : α) (s : σ) :
    stepMany h n (.ret a, s) = (.ret a, s) := by
  induction n with
  | zero => rfl
  | succ n ih => exact ih

variable {h : Handler S σ} {t : σ}

theorem Passes.of_stepOnce {r : Prog S α × σ} (hp : Passes h (stepOnce h r).1 (stepOnce h r).2 t) :
    Passes h r.1 r.2 t := by
  obtain ⟨p, s⟩ := r
  cases p with
  | ret a => exact hp
  | ask q k =>
    cases hq : h q s with
    | none =>
      simp only [stepOnce, hq] at hp
      exact hp
    | some r =>
      simp only [stepOnce, hq] at hp
      exact .inr ⟨r.1, r.2, hq, hp⟩

/-- Run up to and including the first request of a kind; `none` when the program
    ends or stops without one. -/
def runUntil (h : Handler S σ) (stop : S.Req → Bool) : Prog S α → σ → Option (Prog S α × σ)
  | .ret _, _ => none
  | .ask q k, s =>
    match h q s with
    | none => none
    | some (x, s') => if stop q then some (k x, s') else runUntil h stop (k x) s'

variable {stop : S.Req → Bool} {q : S.Req} {k : S.Ans q → Prog S α} {s s' : σ} {x : S.Ans q}
  {p' p : Prog S α}

theorem runUntil_ask (hq : h q s = some (x, s')) (hstop : stop q = false) :
    runUntil h stop (.ask q k) s = runUntil h stop (k x) s' := by
  rw [runUntil, hq]
  simp [hstop]

theorem runUntil_stop (hq : h q s = some (x, s')) (hstop : stop q = true) :
    runUntil h stop (.ask q k) s = some (k x, s') := by
  rw [runUntil, hq]
  simp [hstop]

/-- The rule for runs up to a request, from their ends backwards. -/
theorem runUntil_rule {P : Prog S α → σ → Prop}
    (hlast : ∀ {q k s r}, h q s = some r → stop q = true → k r.1 = p' → r.2 = s' → P (.ask q k) s)
    (hnext : ∀ {q k s r}, h q s = some r → stop q = false → P (k r.1) r.2 → P (.ask q k) s)
    (hu : runUntil h stop p s = some (p', s')) : P p s := by
  induction p generalizing s with
  | ret a => cases hu
  | ask q k ih =>
    cases hq : h q s with
    | none =>
      rw [runUntil, hq] at hu
      cases hu
    | some r =>
      by_cases hstop : stop q = true
      · rw [runUntil_stop hq hstop] at hu
        obtain ⟨hk, hs⟩ := answer_inj hu
        exact hlast hq hstop hk hs
      · have hstop' : stop q = false := by simpa using hstop
        rw [runUntil_ask hq hstop'] at hu
        exact hnext hq hstop' (ih r.1 hu)

/-- What comes after the request stays behind it. -/
theorem runUntil_bind (hp : runUntil h stop p s = some (p', s')) (f : α → Prog S β) :
    runUntil h stop (p >>= f) s = some (p' >>= f, s') := by
  refine runUntil_rule (P := fun p s => runUntil h stop (p >>= f) s
    = some (p' >>= f, s')) (fun hq hstop hk hs => ?_)
    (fun hq hstop ih => (runUntil_ask hq hstop).trans ih) hp
  subst hk hs
  exact runUntil_stop hq hstop

/-- Cutting a run at a request does not change its end. -/
theorem run_of_runUntil (hu : runUntil h stop p s = some (p', s')) : run h p s = run h p' s' := by
  refine runUntil_rule (P := fun p s => run h p s = run h p' s')
    (fun hq _ hk hs => ?_) (fun hq _ ih => (run_ask_some hq).trans ih) hu
  subst hk hs
  exact run_ask_some hq

theorem Passes.of_runUntil (hu : runUntil h stop p s = some (p', s')) (hp : Passes h p' s' t) :
    Passes h p s t := by
  refine runUntil_rule (P := fun p s => Passes h p s t)
    (fun hq _ hk hs => ?_) (fun hq _ ih => .inr ⟨_, _, hq, ih⟩) hu
  subst hk hs
  exact .inr ⟨_, _, hq, hp⟩

theorem Passes.of_stepMany {n : Nat} {r : Prog S α × σ}
    (hp : Passes h (stepMany h n r).1 (stepMany h n r).2 t) :
    Passes h r.1 r.2 t := by
  induction n generalizing r with
  | zero => exact hp
  | succ n ih =>
    exact Passes.of_stepOnce (ih (r := stepOnce h r) hp)

/-! ## Total correctness with an invariant -/

/-- The run of `p` from `s` ends in `Q`, and `I` holds before, between and after its requests. -/
def Ends (h : Handler S σ) (I : σ → Prop) (p : Prog S α) (s : σ) (Q : α → σ → Prop) : Prop :=
  ∃ a s', run h p s = some (a, s') ∧ Q a s' ∧ ∀ t, Passes h p s t → I t

variable {I : σ → Prop} {Q : α → σ → Prop} {a : α} {f : α → Prog S β}

theorem Ends.inv (hp : Ends h I p s Q) : I s := by
  obtain ⟨-, -, -, -, hI⟩ := hp
  exact hI s (passes_self h p s)

/-- The end of a run is one of its moments. -/
theorem passes_of_run (hr : run h p s = some (a, t)) : Passes h p s t := by
  induction p generalizing s with
  | ret b =>
    obtain ⟨rfl, rfl⟩ : b = a ∧ s = t := by simpa using hr
    rfl
  | ask q k ih =>
    rw [run_ask] at hr
    obtain ⟨⟨x, s₁⟩, hq, hk⟩ := Option.bind_eq_some_iff.mp hr
    exact .inr ⟨x, s₁, hq, ih x hk⟩

theorem Ends.ret (hI : I s) (hQ : Q a s) : Ends h I (.ret a) s Q :=
  ⟨a, s, rfl, hQ, fun _ ht => ht ▸ hI⟩

theorem Ends.ask (hI : I s) (hq : h q s = some (x, s')) (hk : Ends h I (k x) s' Q) :
    Ends h I (.ask q k) s Q := by
  obtain ⟨a, t, hrun, hQ, hpass⟩ := hk
  refine ⟨a, t, (run_ask_some hq).trans hrun, hQ, ?_⟩
  intro u hu
  rcases (passes_ask_some hq u).mp hu with rfl | hu'
  · exact hI
  · exact hpass u hu'

theorem Ends.bind {Q' : β → σ → Prop} (hp : Ends h I p s Q)
    (hf : ∀ a s', Q a s' → Ends h I (f a) s' Q') :
    Ends h I (p >>= f) s Q' := by
  obtain ⟨a, s', hrun, hQ, hpass⟩ := hp
  obtain ⟨b, t, hrun', hQ', hpass'⟩ := hf a s' hQ
  refine ⟨b, t, (run_bind_some hrun).trans hrun', hQ', ?_⟩
  intro u hu
  rcases (passes_bind h p f s u).mp hu with hl | ⟨a', s'', hr, hr'⟩
  · exact hpass u hl
  · rw [hrun] at hr
    obtain ⟨rfl, rfl⟩ : a = a' ∧ s' = s'' := by simpa using hr
    exact hpass' u hr'

theorem Ends.mono {Q' : α → σ → Prop} (hp : Ends h I p s Q) (hQ : ∀ a s', Q a s' → Q' a s') :
    Ends h I p s Q' := by
  obtain ⟨a, s', hrun, hq, hI⟩ := hp
  exact ⟨a, s', hrun, hQ a s' hq, hI⟩

/-- Letting the program run on a little keeps what is known of its end. -/
theorem Ends.stepMany (hp : Ends h I p s Q) (n : Nat) :
    Ends h I (stepMany h n (p, s)).1 (stepMany h n (p, s)).2 Q := by
  obtain ⟨a, s', hrun, hQ, hI⟩ := hp
  exact ⟨a, s', (run_stepMany h n (p, s)).trans hrun, hQ, fun t ht => hI t ht.of_stepMany⟩

/-- Running on to a request keeps what is known of the end. -/
theorem Ends.runUntil (hp : Ends h I p s Q) (hu : runUntil h stop p s = some (p', s')) :
    Ends h I p' s' Q := by
  obtain ⟨a, t, hrun, hQ, hI⟩ := hp
  exact ⟨a, t, (run_of_runUntil hu).symm.trans hrun, hQ, fun u hp => hI u (hp.of_runUntil hu)⟩

/-! ## Runs that need not end -/

/-- `I` holds before, between and after the requests of `p` from `s`, as far as
    they are answered, and if the run ends it ends in `Q`. -/
def Stays (h : Handler S σ) (I : σ → Prop) (p : Prog S α) (s : σ) (Q : α → σ → Prop) : Prop :=
  (∀ t, Passes h p s t → I t) ∧ ∀ a s', run h p s = some (a, s') → Q a s'

theorem Stays.ret (hI : I s) (hQ : Q a s) : Stays h I (.ret a) s Q := by
  refine ⟨fun t ht => ht ▸ hI, ?_⟩
  intro b s' hr
  obtain ⟨rfl, rfl⟩ : a = b ∧ s = s' := by simpa using hr
  exact hQ

theorem Stays.ask (hI : I s) (hk : ∀ x s', h q s = some (x, s') → Stays h I (k x) s' Q) :
    Stays h I (.ask q k) s Q := by
  constructor
  · rintro t (rfl | ⟨x, s', hq, ht⟩)
    · exact hI
    · exact (hk x s' hq).1 t ht
  · intro a s' hr
    rw [run_ask] at hr
    obtain ⟨⟨x, s₁⟩, hq, hr'⟩ := Option.bind_eq_some_iff.mp hr
    exact (hk x s₁ hq).2 a s' hr'

theorem Stays.bind {Q' : β → σ → Prop} (hp : Stays h I p s Q)
    (hf : ∀ a s', Q a s' → Stays h I (f a) s' Q') :
    Stays h I (p >>= f) s Q' := by
  constructor
  · intro t ht
    rcases (passes_bind h p f s t).mp ht with hl | ⟨a, s', hr, hl⟩
    · exact hp.1 t hl
    · exact (hf a s' (hp.2 a s' hr)).1 t hl
  · intro b s' hr
    obtain ⟨a, s₁, hr₁, hr₂⟩ := run_bind_eq_some.mp hr
    exact (hf a s₁ (hp.2 a s₁ hr₁)).2 b s' hr₂

/-- The run of `p` from `s` goes on as that of `p'` from `s'`. -/
structure GoesOn (h : Handler S σ) (p : Prog S α) (s : σ) (p' : Prog S α)
    (s' : σ) : Prop where
  run_eq : run h p s = run h p' s'
  passes : ∀ t, Passes h p' s' t → Passes h p s t
  makes : ∀ q ∈ trace h p' s', q ∈ trace h p s

theorem GoesOn.refl (p : Prog S α) (s : σ) :
    GoesOn h p s p s := ⟨rfl, fun _ ht => ht, fun _ hq => hq⟩

theorem GoesOn.trans {p'' : Prog S α} {s'' : σ}
    (h₁ : GoesOn h p s p' s') (h₂ : GoesOn h p' s' p'' s'') :
    GoesOn h p s p'' s'' :=
  ⟨h₁.run_eq.trans h₂.run_eq, fun t ht => h₁.passes t (h₂.passes t ht),
    fun q hq => h₁.makes q (h₂.makes q hq)⟩

theorem GoesOn.ask (hq : h q s = some (x, s')) : GoesOn h (.ask q k) s (k x) s' := by
  refine ⟨run_ask_some hq, ?_, ?_⟩
  · exact fun t ht => (passes_ask_some hq t).mpr (.inr ht)
  · intro r hr
    rw [trace_ask_some hq]
    exact List.mem_cons_of_mem q hr

/-- A first part that ends has been gone through. -/
theorem GoesOn.bind (hp : run h p s = some (a, s')) : GoesOn h (p >>= f) s (f a) s' := by
  refine ⟨run_bind_some hp, ?_, ?_⟩
  · exact fun t ht => (passes_bind h p f s t).mpr (.inr ⟨a, s', hp, ht⟩)
  · intro r hr
    rw [trace_bind_some hp]
    exact List.mem_append_right _ hr

/-- Where the first part of a composition comes by, the composition does. -/
theorem GoesOn.passes_bind (hp : GoesOn h p s p' s') (f : α → Prog S β) : Passes h (p >>= f) s s' :=
  (InteractProg.passes_bind h p f s s').mpr (.inl (hp.passes s' (passes_self h p' s')))

section Induct

variable {h : Handler S σ} {R : σ → σ → Prop} (hrefl : ∀ s, R s s)
  (htrans : ∀ {s t u}, R s t → R t u → R s u)
  (hstep : ∀ {q s x s'}, h q s = some (x, s') → R s s')

include hrefl htrans hstep

/-- What every answered request keeps, a run keeps. -/
theorem run_induct {p : Prog S α} {s s' : σ} {a : α} (hr : run h p s = some (a, s')) : R s s' := by
  induction p generalizing s with
  | ret b =>
    obtain ⟨rfl, rfl⟩ : b = a ∧ s = s' := by simpa using hr
    exact hrefl s
  | ask q k ih =>
    rw [run_ask] at hr
    obtain ⟨⟨x, s₁⟩, hq, hk⟩ := Option.bind_eq_some_iff.mp hr
    exact htrans (hstep hq) (ih x hk)

omit hrefl in
/-- See `run_induct`. -/
theorem runUntil_induct {stop : S.Req → Bool} {p p' : Prog S α} {s s' : σ}
    (hr : runUntil h stop p s = some (p', s')) : R s s' := by
  refine runUntil_rule (P := fun _ s => R s s') (fun hq _ _ hs => ?_)
    (fun hq _ ih => htrans (hstep hq) ih) hr
  subst hs
  exact hstep hq

/-- See `run_induct`. -/
theorem stepMany_induct (n : Nat) (r : Prog S α × σ) : R r.2 (stepMany h n r).2 := by
  induction n generalizing r with
  | zero => exact hrefl r.2
  | succ n ih =>
    refine htrans (t := (stepOnce h r).2) ?_ (ih (stepOnce h r))
    obtain ⟨p, s⟩ := r
    cases p with
    | ret a => exact hrefl s
    | ask q k =>
      cases hq : h q s with
      | none =>
        simp only [stepOnce, hq]
        exact hrefl s
      | some r =>
        simp only [stepOnce, hq]
        exact hstep hq

end Induct

end InteractProg
