import MultiLanes.ResumeProofs
import MultiLanes.OutcomeProofs
import MultiLanes.RelyProofs

/-! # Choices — runs whose answers are not fixed

An environment may answer a request in several ways: a file system does what it is told
or refuses.  `Env` relates a request and a state to the answers and the states after
them; a `Handler` is the environment with one answer.

* `Outcome` — a run of a program in an environment;
* `Sure` — every run that ends does so in `Q`;
* `Must` — and none gets stuck at a request that is not answered;
* `Minds` — every run that ends does so in `Q`, and makes no request on its way that is
  not in `G`.  What the requests in `G` keep of a finer state, a program for each of
  them keeps (`Minds.expand`).

`Asks` is a condition on the text of a program: each request it makes is of a kind that
keeps an invariant, as far as the answers before it are of the kind that the invariant
gives.  Code that makes many requests of one kind is done at once by it (`Asks.sure`).
-/

namespace InteractProg

variable {S : Sig} {α β σ : Type}

/-- The answers to a request, and the states after them. -/
def Env (S : Sig) (σ : Type) : Type :=
  (q : S.Req) → σ → S.Ans q → σ → Prop

/-- The environment of a handler. -/
def Handler.env (h : Handler S σ) : Env S σ := fun q s x t => h q s = some (x, t)

/-- A run of `p` from `s` ends in `t` and returns `b`. -/
def Outcome (E : Env S σ) : Prog S α → σ → α → σ → Prop
  | .ret a, s, b, t => b = a ∧ t = s
  | .ask q k, s, b, t => ∃ x u, E q s x u ∧ Outcome E (k x) u b t

/-- Every run that ends does so in `Q`. -/
def Sure (E : Env S σ) (p : Prog S α) (s : σ) (Q : α → σ → Prop) : Prop :=
  ∀ a t, Outcome E p s a t → Q a t

/-- Every request of every run is answered, and the runs end in `Q`. -/
def Must (E : Env S σ) : Prog S α → σ → (α → σ → Prop) → Prop
  | .ret a, s, Q => Q a s
  | .ask q k, s, Q => (∃ x t, E q s x t) ∧ ∀ x t, E q s x t → Must E (k x) t Q

/-- A run of `p` from `s` comes to the request `r`, in `t`. -/
def Comes (E : Env S σ) : Prog S α → σ → S.Req → σ → Prop
  | .ret _, _, _, _ => False
  | .ask q k, s, r, t => (r = q ∧ t = s) ∨ ∃ x u, E q s x u ∧ Comes E (k x) u r t

section Runs

variable {E : Env S σ}

variable {p : Prog S α} {f : α → Prog S β} {s t : σ} {a : α} {Q : α → σ → Prop}

theorem comes_bind {r : S.Req} :
    Comes E (p >>= f) s r t ↔ Comes E p s r t ∨ ∃ a u, Outcome E p s a u ∧ Comes E (f a) u r t := by
  induction p generalizing s with
  | ret a =>
    constructor
    · exact fun h => .inr ⟨a, s, ⟨rfl, rfl⟩, h⟩
    · rintro (h | ⟨_, _, ⟨rfl, rfl⟩, h⟩)
      · exact h.elim
      · exact h
  | ask q k ih =>
    constructor
    · rintro (h | ⟨x, v, hq, h⟩)
      · exact .inl (.inl h)
      · rcases (ih x).mp h with h | ⟨a, u, hp, hf⟩
        · exact .inl (.inr ⟨x, v, hq, h⟩)
        · exact .inr ⟨a, u, ⟨x, v, hq, hp⟩, hf⟩
    · rintro ((h | ⟨x, v, hq, h⟩) | ⟨a, u, ⟨x, v, hq, hp⟩, hf⟩)
      · exact .inl h
      · exact .inr ⟨x, v, hq, (ih x).mpr (.inl h)⟩
      · exact .inr ⟨x, v, hq, (ih x).mpr (.inr ⟨a, u, hp, hf⟩)⟩

theorem outcome_bind {u : σ} {b : β} :
    Outcome E (p >>= f) s b u ↔ ∃ a t, Outcome E p s a t ∧ Outcome E (f a) t b u := by
  induction p generalizing s with
  | ret a =>
    constructor
    · exact fun h => ⟨a, s, ⟨rfl, rfl⟩, h⟩
    · rintro ⟨_, _, ⟨rfl, rfl⟩, h⟩
      exact h
  | ask q k ih =>
    constructor
    · rintro ⟨x, v, hq, h⟩
      obtain ⟨a, t, hp, hf⟩ := (ih x).mp h
      exact ⟨a, t, ⟨x, v, hq, hp⟩, hf⟩
    · rintro ⟨a, t, ⟨x, v, hq, hp⟩, hf⟩
      exact ⟨x, v, hq, (ih x).mpr ⟨a, t, hp, hf⟩⟩

theorem Outcome.widen {E' : Env S σ}
    (h : Outcome E p s a t) (hE : ∀ q s x t, E q s x t → E' q s x t) :
    Outcome E' p s a t := by
  induction p generalizing s with
  | ret b => exact h
  | ask q k ih =>
    obtain ⟨x, u, hq, hk⟩ := h
    exact ⟨x, u, hE q s x u hq, ih x hk⟩

/-- The outcome of a handler is its run. -/
theorem outcome_env {h : Handler S σ} : Outcome h.env p s a t ↔ run h p s = some (a, t) := by
  induction p generalizing s with
  | ret b =>
    rw [run_ret, Option.some.injEq, Prod.mk.injEq]
    exact and_congr eq_comm eq_comm
  | ask q k ih =>
    rw [run_ask, Option.bind_eq_some_iff]
    constructor
    · rintro ⟨x, u, hq, hk⟩
      exact ⟨(x, u), hq, (ih x).mp hk⟩
    · rintro ⟨r, hq, hk⟩
      exact ⟨r.1, r.2, hq, (ih r.1).mpr hk⟩

@[simp] theorem sure_ret : Sure E (.ret a) s Q ↔ Q a s := by
  constructor
  · exact fun h => h a s ⟨rfl, rfl⟩
  · rintro h _ _ ⟨rfl, rfl⟩
    exact h

theorem sure_ask {q : S.Req} {k : S.Ans q → Prog S α} :
    Sure E (.ask q k) s Q ↔ ∀ x t, E q s x t → Sure E (k x) t Q := by
  constructor
  · intro h x t hq a u hk
    exact h a u ⟨x, t, hq, hk⟩
  · rintro h a u ⟨x, t, hq, hk⟩
    exact h x t hq a u hk

theorem sure_bind {Q : β → σ → Prop} :
    Sure E (p >>= f) s Q ↔ Sure E p s (fun a t => Sure E (f a) t Q) := by
  constructor
  · intro h a t hp b u hf
    exact h b u (outcome_bind.mpr ⟨a, t, hp, hf⟩)
  · intro h b u hr
    obtain ⟨a, t, hp, hf⟩ := outcome_bind.mp hr
    exact h a t hp b u hf

theorem Sure.mono {R : α → σ → Prop}
    (h : Sure E p s Q) (hR : ∀ a t, Q a t → R a t) : Sure E p s R :=
  fun a t hp => hR a t (h a t hp)

theorem Must.mono {R : α → σ → Prop}
    (h : Must E p s Q) (hR : ∀ a t, Q a t → R a t) : Must E p s R := by
  induction p generalizing s with
  | ret a => exact hR a s h
  | ask q k ih => exact ⟨h.1, fun x t hq => ih x (h.2 x t hq)⟩

theorem must_bind {Q : β → σ → Prop} :
    Must E (p >>= f) s Q ↔ Must E p s (fun a t => Must E (f a) t Q) := by
  induction p generalizing s with
  | ret a => exact Iff.rfl
  | ask q k ih =>
    refine and_congr_right fun _ => forall_congr' fun x => ?_
    exact forall_congr' fun t => imp_congr_right fun _ => ih x

theorem Must.sure (h : Must E p s Q) : Sure E p s Q := by
  induction p generalizing s with
  | ret a => exact sure_ret.mpr h
  | ask q k ih => exact sure_ask.mpr fun x t hq => ih x (h.2 x t hq)

/-- There is a run, and it ends in `Q`. -/
theorem Must.outcome (h : Must E p s Q) : ∃ a t, Outcome E p s a t ∧ Q a t := by
  induction p generalizing s with
  | ret a => exact ⟨a, s, ⟨rfl, rfl⟩, h⟩
  | ask q k ih =>
    obtain ⟨⟨x, u, hq⟩, hk⟩ := h
    obtain ⟨a, t, hp, hQ⟩ := ih x (hk x u hq)
    exact ⟨a, t, ⟨x, u, hq, hp⟩, hQ⟩

/-- A run of a handler is the run of every environment that answers as the handler does. -/
theorem must_of_run {h : Handler S σ}
    (hE : ∀ {q s x t}, h q s = some (x, t) → ∀ y u, E q s y u ↔ (y, u) = (x, t))
    (hp : InteractProg.run h p s = some (a, t)) :
    Must E p s Q ↔ Q a t := by
  induction p generalizing s with
  | ret b =>
    obtain ⟨rfl, rfl⟩ : b = a ∧ s = t := by simpa using hp
    exact Iff.rfl
  | ask q k ih =>
    rw [run_ask] at hp
    obtain ⟨⟨x, u⟩, hq, hk⟩ := Option.bind_eq_some_iff.mp hp
    rw [← ih x hk]
    constructor
    · exact fun hm => hm.2 x u ((hE hq x u).mpr rfl)
    · intro hm
      refine ⟨⟨x, u, (hE hq x u).mpr rfl⟩, fun y v hy => ?_⟩
      cases (hE hq y v).mp hy
      exact hm

end Runs

/-! ## Runs that mind their requests -/

/-- Every request of every run is in `G`, and every run that ends does so in `Q`. -/
def Minds (E : Env S σ) (G : S.Req → Prop) : Prog S α → σ → (α → σ → Prop) → Prop
  | .ret a, s, Q => Q a s
  | .ask q k, s, Q => G q ∧ ∀ x t, E q s x t → Minds E G (k x) t Q

section Minds

variable {E : Env S σ} {G : S.Req → Prop} {s t : σ}

variable {p : Prog S α} {Q : α → σ → Prop}

theorem Minds.mono {R : α → σ → Prop}
    (h : Minds E G p s Q) (hR : ∀ a t, Q a t → R a t) : Minds E G p s R := by
  induction p generalizing s with
  | ret a => exact hR a s h
  | ask q k ih => exact ⟨h.1, fun x t hq => ih x (h.2 x t hq)⟩

theorem minds_bind {f : α → Prog S β} {Q : β → σ → Prop} :
    Minds E G (p >>= f) s Q ↔ Minds E G p s (fun a t => Minds E G (f a) t Q) := by
  induction p generalizing s with
  | ret a => exact Iff.rfl
  | ask q k ih =>
    refine and_congr_right fun _ => forall_congr' fun x => ?_
    exact forall_congr' fun t => imp_congr_right fun _ => ih x

theorem Minds.bind {f : α → Prog S β} {R : α → σ → Prop} {Q : β → σ → Prop} (hp : Minds E G p s R)
    (hf : ∀ a t, R a t → Minds E G (f a) t Q) : Minds E G (p >>= f) s Q :=
  minds_bind.mpr (hp.mono hf)

theorem Minds.sure (h : Minds E G p s Q) : Sure E p s Q := by
  induction p generalizing s with
  | ret a => exact sure_ret.mpr h
  | ask q k ih => exact sure_ask.mpr fun x t hq => ih x (h.2 x t hq)

/-- A run of a handler is the run of every environment that answers as the handler does. -/
theorem minds_of_run {h : Handler S σ} {a : α}
    (hE : ∀ {q s x t}, h q s = some (x, t) → G q ∧ ∀ y u, E q s y u ↔ (y, u) = (x, t))
    (hp : InteractProg.run h p s = some (a, t)) (hQ : Q a t) :
    Minds E G p s Q := by
  induction p generalizing s with
  | ret b =>
    obtain ⟨rfl, rfl⟩ := answer_inj hp
    exact hQ
  | ask q k ih =>
    rw [run_ask] at hp
    obtain ⟨⟨x, u⟩, hq, hk⟩ := Option.bind_eq_some_iff.mp hp
    obtain ⟨hG, hans⟩ := hE hq
    refine ⟨hG, fun y v hy => ?_⟩
    obtain ⟨rfl, rfl⟩ := Prod.mk.inj ((hans y v).mp hy)
    exact ih y hk

/-- Each request is replaced by a program that answers it, over a finer state of
    which `J` is kept. -/
theorem Minds.expand {T : Sig} {τ : Type} {F : Env T τ} {π : τ → σ} {J : τ → Prop}
    {h : (q : S.Req) → Prog T (S.Ans q)}
    (hq : ∀ {q u}, G q → J u → Sure F (h q) u (fun x v => E q (π u) x (π v) ∧ J v)) {u : τ}
    (hp : Minds E G p (π u) Q) (hu : J u) : Sure F (p.expand h) u (fun a v => Q a (π v) ∧ J v) := by
  induction p generalizing u with
  | ret a => exact sure_ret.mpr ⟨hp, hu⟩
  | ask q k ih =>
    refine sure_bind.mpr ((hq hp.1 hu).mono ?_)
    rintro x v ⟨hstep, hv⟩
    exact ih x (hp.2 x (π v) hstep) hv

end Minds

/-! ## Code of one kind -/

/-- Each request of the program is in `G`, as far as the answers are in `A`, and
    what it returns is in `R`. -/
def Asks (G : S.Req → Prop) (A : (q : S.Req) → S.Ans q → Prop) (R : α → Prop) : Prog S α → Prop
  | .ret a => R a
  | .ask q k => G q ∧ ∀ x, A q x → Asks G A R (k x)

section Asks

variable {E : Env S σ} {G : S.Req → Prop} {A : (q : S.Req) → S.Ans q → Prop} {R : α → Prop}

variable {p : Prog S α} {s : σ}

theorem asks_bind {R' : β → Prop} {f : α → Prog S β} :
    Asks G A R' (p >>= f) ↔ Asks G A (fun a => Asks G A R' (f a)) p := by
  induction p with
  | ret a => exact Iff.rfl
  | ask q k ih =>
    exact and_congr_right fun _ => forall_congr' fun x =>
      imp_congr_right fun _ => ih x

theorem Asks.mono {R' : α → Prop} (hp : Asks G A R p) (hR : ∀ a, R a → R' a) : Asks G A R' p := by
  induction p with
  | ret a => exact hR a hp
  | ask q k ih => exact ⟨hp.1, fun x hx => ih x (hp.2 x hx)⟩

theorem Asks.bind {R' : β → Prop} {f : α → Prog S β}
    (hp : Asks G A R p) (hf : ∀ a, R a → Asks G A R' (f a)) :
    Asks G A R' (p >>= f) := asks_bind.mpr (hp.mono hf)

theorem Asks.perform {q : S.Req} {f : S.Ans q → Prog S α} (hq : G q)
    (hf : ∀ x, A q x → Asks G A R (f x)) :
    Asks G A R (InteractProg.perform q >>= f) := ⟨hq, hf⟩

/-- Code of one kind is code of a wider one. -/
theorem Asks.widen {G' : S.Req → Prop} (hp : Asks G A R p)
    (hG : ∀ q, G q → G' q) : Asks G' A R p := by
  induction p with
  | ret a => exact hp
  | ask q k ih => exact ⟨hG q hp.1, fun x hx => ih x (hp.2 x hx)⟩

theorem Asks.onlyIf {c : Prop} [Decidable c] {p : Prog S Unit}
    (hp : c → Asks G A (fun _ => True) p) :
    Asks G A (fun _ => True) (InteractProg.onlyIf c p) := by
  by_cases hc : c
  · rw [onlyIf_pos hc]
    exact hp hc
  · rw [onlyIf_neg hc]
    trivial

/-- What each such request keeps, the program keeps. -/
theorem Asks.sure {J : σ → Prop} (hJ : ∀ {q s x t}, G q → J s → E q s x t → A q x ∧ J t)
    (hp : Asks G A R p) (hs : J s) :
    Sure E p s (fun a t => R a ∧ J t) := by
  induction p generalizing s with
  | ret a => exact sure_ret.mpr ⟨hp, hs⟩
  | ask q k ih =>
    refine sure_ask.mpr fun x t hq => ?_
    obtain ⟨hx, ht⟩ := hJ hp.1 hs hq
    exact ih x (hp.2 x hx) ht

/-- Also where the program comes by. -/
theorem Asks.comes {J : σ → Prop} (hJ : ∀ {q s x t}, G q → J s → E q s x t → A q x ∧ J t)
    (hp : Asks G A R p) {t : σ} {r : S.Req} (hs : J s) (h : Comes E p s r t) : G r ∧ J t := by
  induction p generalizing s with
  | ret a => exact h.elim
  | ask q k ih =>
    rcases h with ⟨rfl, rfl⟩ | ⟨x, u, hq, h⟩
    · exact ⟨hp.1, hs⟩
    · obtain ⟨hx, hu⟩ := hJ hp.1 hs hq
      exact ih x (hp.2 x hx) hu h

variable {h : Handler S σ} (hA : ∀ {q s x t}, h q s = some (x, t) → A q x)
include hA

/-- The requests of a run are of the kind. -/
theorem Asks.trace (hp : Asks G A R p) : ∀ q ∈ trace h p s, G q := by
  induction p generalizing s with
  | ret a => exact fun q hq => nomatch hq
  | ask q k ih =>
    intro r hr
    cases hq : h q s with
    | none =>
      rw [trace_ask_none hq] at hr
      cases hr
    | some y =>
      rw [trace_ask_some hq] at hr
      rcases List.mem_cons.mp hr with rfl | hr'
      · exact hp.1
      · exact ih y.1 (hp.2 y.1 (hA hq)) r hr'

/-- What is left of code of one kind is of that kind. -/
theorem Asks.stepMany (n : Nat) {r : Prog S α × σ} (hp : Asks G A R r.1) :
    Asks G A R (stepMany h n r).1 := by
  induction n generalizing r with
  | zero => exact hp
  | succ n ih =>
    refine ih (r := stepOnce h r) ?_
    obtain ⟨p, s⟩ := r
    cases p with
    | ret a => exact hp
    | ask q k =>
      cases hq : h q s with
      | none =>
        simp only [stepOnce, hq]
        exact hp
      | some y =>
        simp only [stepOnce, hq]
        exact hp.2 y.1 (hA hq)

/-- See `Asks.stepMany`. -/
theorem Asks.runUntil {stop : S.Req → Bool} {p' : Prog S α} {s' : σ}
    (hp : Asks G A R p) (hu : runUntil h stop p s = some (p', s')) :
    Asks G A R p' := by
  refine runUntil_rule (P := fun p _ => Asks G A R p → Asks G A R p')
    (fun hq _ hk _ hp => ?_) (fun hq _ ih hp => ih (hp.2 _ (hA hq))) hu hp
  subst hk
  exact hp.2 _ (hA hq)

end Asks

end InteractProg
