import MultiLanes.ProgProofs

/-! # Programs under interference — rely and guarantee

A program that shares its state is not alone between two requests: other threads,
interrupts and devices move the state meanwhile.  A `Setting` says what they may do
(`rely`) and which answers a request may get (`step`); a configuration, a program with a
state, then moves by either (`Move`).

`Safe` is what a program may be relied on for: the invariant holds whenever it is looked
at, every request it makes can be answered, and it returns in a state of the
postcondition, whatever the others do.  `Triple` reads it as a judgement with a
precondition; the assertions between two requests have to be STABLE, that is, to survive
the others.

A request may in truth be a program of its own, such as a wait in two steps
(`Prog.expand`).  What a program is relied on for in a setting where the request is one
step then carries over to the finer one (`Lifts.expand`). -/

namespace InteractProg

open Relation

/-- One step of a run that is known from its end. -/
theorem after_step {γ : Type} {R : γ → γ → Prop} {φ : γ → Prop} {c c' : γ}
    (hstep : R c c') (h : ∃ d, ReflTransGen R c' d ∧ φ d) :
    ∃ d, ReflTransGen R c d ∧ φ d := by
  obtain ⟨d, hd, hφ⟩ := h
  exact ⟨d, .head hstep hd, hφ⟩

/-- The surroundings of a program. -/
structure Setting (S : Sig) (σ : Type) where
  /-- a request is answered, and the state changes -/
  step : (q : S.Req) → σ → S.Ans q → σ → Prop
  /-- the others change the state -/
  rely : σ → σ → Prop
  inv : σ → Prop
  /-- the requests that a program may make -/
  can : S.Req → Prop

/-- Replace each request by a program that answers it. -/
def Prog.expand {S T : Sig} {α : Type} (h : (q : S.Req) → Prog T (S.Ans q)) : Prog S α → Prog T α
  | .ret a => .ret a
  | .ask q k => h q >>= fun x => (k x).expand h

theorem expand_bind {S T : Sig} {α β : Type}
    (h : (q : S.Req) → Prog T (S.Ans q)) (p : Prog S α) (f : α → Prog S β) :
    (p >>= f).expand h = p.expand h >>= fun a => (f a).expand h := by
  induction p with
  | ret a => rfl
  | ask q k ih =>
    show (h q >>= fun x => (k x >>= f).expand h) = _
    simp only [ih]
    exact (bind_bind (h q) _ _).symm

namespace Setting

variable {S : Sig} {α β σ τ : Type} (E : Setting S σ)

/-- A program, or the others, move. -/
inductive Move : Prog S α × σ → Prog S α × σ → Prop
  | others {p : Prog S α} {s t : σ} : E.rely s t → Move (p, s) (p, t)
  | ask {q : S.Req} {k : S.Ans q → Prog S α} {s t : σ} {x : S.Ans q} :
      E.step q s x t → Move (.ask q k, s) (k x, t)

/-- The configurations that one leads to. -/
def Reach : Prog S α × σ → Prog S α × σ → Prop := ReflTransGen E.Move

/-- See the header. -/
def Safe (Q : α → σ → Prop) : Prog S α → σ → Prop
  | .ret a, s => ∀ t, ReflTransGen E.rely s t → E.inv t ∧ Q a t
  | .ask q k, s => ∀ t, ReflTransGen E.rely s t →
      E.inv t ∧ E.can q ∧ ∀ x u, E.step q t x u → Safe Q (k x) u

variable {Q : α → σ → Prop} {p : Prog S α} {s t : σ} {c c' : Prog S α × σ} {f : α → Prog S β}

/-- A safe program may be left to the others. -/
theorem Safe.others (h : E.Safe Q p s) (hr : E.rely s t) : E.Safe Q p t := by
  cases p with
  | ret a => exact fun u hu => h u (.head hr hu)
  | ask q k => exact fun u hu => h u (.head hr hu)

theorem Safe.others_many (h : E.Safe Q p s) (hr : ReflTransGen E.rely s t) : E.Safe Q p t := by
  induction hr with
  | refl => exact h
  | tail _ hr ih => exact Safe.others E ih hr

theorem Safe.move (h : E.Safe Q c.1 c.2) (hm : E.Move c c') : E.Safe Q c'.1 c'.2 := by
  cases hm with
  | others hr => exact Safe.others E h hr
  | ask hs => exact (h _ .refl).2.2 _ _ hs

theorem Safe.reach (h : E.Safe Q c.1 c.2) (hr : E.Reach c c') : E.Safe Q c'.1 c'.2 := by
  induction hr with
  | refl => exact h
  | tail _ hm ih => exact Safe.move E ih hm

theorem Safe.inv (h : E.Safe Q p s) : E.inv s := by
  cases p with
  | ret a => exact (h s .refl).1
  | ask q k => exact (h s .refl).1

theorem Safe.bind {R : α → σ → Prop} {Q : β → σ → Prop} (h : E.Safe R p s)
    (hf : ∀ a t, R a t → E.Safe Q (f a) t) : E.Safe Q (p >>= f) s := by
  induction p generalizing s with
  | ret a => exact hf a s (h s .refl).2
  | ask q k ih =>
    intro t ht
    obtain ⟨hi, hc, hk⟩ := h t ht
    exact ⟨hi, hc, fun x u hu => ih x (hk x u hu)⟩

theorem Safe.mono {Q' : α → σ → Prop}
    (h : E.Safe Q p s) (hq : ∀ a t, Q a t → Q' a t) : E.Safe Q' p s := by
  induction p generalizing s with
  | ret a =>
    intro t ht
    obtain ⟨hi, hQ⟩ := h t ht
    exact ⟨hi, hq a t hQ⟩
  | ask q k ih =>
    intro t ht
    obtain ⟨hi, hc, hk⟩ := h t ht
    exact ⟨hi, hc, fun x u hu => ih x (hk x u hu)⟩

/-! ## Triples -/

/-- An assertion that the others keep and that is under the invariant. -/
structure Stable (P : σ → Prop) : Prop where
  keep : ∀ {s t}, P s → E.rely s t → P t
  inv : ∀ {s}, P s → E.inv s

theorem Stable.keeps {P : σ → Prop} (h : E.Stable P) {s t : σ} (hs : P s)
    (hr : ReflTransGen E.rely s t) : P t := by
  induction hr with
  | refl => exact hs
  | tail _ hr ih => exact h.keep ih hr

/-- Started where `P` holds, the program is safe. -/
def Triple (P : σ → Prop) (p : Prog S α) (Q : α → σ → Prop) : Prop :=
  ∀ s, P s → E.Safe Q p s

variable {E}

variable {P : σ → Prop}

theorem Triple.ret (hP : E.Stable P) {a : α} (hQ : ∀ s, P s → Q a s) : E.Triple P (.ret a) Q := by
  intro s hs t ht
  have hPt := Stable.keeps E hP hs ht
  exact ⟨hP.inv hPt, hQ t hPt⟩

/-- One request. -/
theorem Triple.perform (hP : E.Stable P) {q : S.Req} {Q : S.Ans q → σ → Prop}
    (hQ : ∀ x, E.Stable (Q x)) (hc : E.can q) (hs : ∀ s x t, P s → E.step q s x t → Q x t) :
    E.Triple P (perform q) Q := by
  intro s h t ht
  have hPt := Stable.keeps E hP h ht
  refine ⟨hP.inv hPt, hc, fun x u hu v hv => ?_⟩
  have hQv := Stable.keeps E (hQ x) (hs t x u hPt hu) hv
  exact ⟨(hQ x).inv hQv, hQv⟩

theorem Triple.bind {R : α → σ → Prop} {Q : β → σ → Prop} (hp : E.Triple P p R)
    (hf : ∀ a, E.Triple (R a) (f a) Q) : E.Triple P (p >>= f) Q :=
  fun s hs => Safe.bind E (hp s hs) hf

theorem Triple.pre {P' : σ → Prop} (h : E.Triple P p Q) (hP : ∀ s, P' s → P s) : E.Triple P' p Q :=
  fun s hs => h s (hP s hs)

theorem Triple.post {Q' : α → σ → Prop}
    (h : E.Triple P p Q) (hQ : ∀ a s, Q a s → Q' a s) : E.Triple P p Q' :=
  fun s hs => Safe.mono E (h s hs) hQ

/-- A precondition about the program's own data. -/
theorem Triple.given {φ : Prop} (h : φ → E.Triple P p Q) :
    E.Triple (fun s => φ ∧ P s) p Q := fun s hs => h hs.1 s hs.2

/-- What every request keeps, every program keeps. -/
theorem Triple.of_steps (hP : E.Stable P) (hc : ∀ q, E.can q)
    (hs : ∀ {q s x t}, P s → E.step q s x t → P t) (p : Prog S α) :
    E.Triple P p (fun _ => P) := by
  induction p with
  | ret a => exact .ret hP fun _ h => h
  | ask q k ih =>
    intro s h t ht
    have hPt := Stable.keeps E hP h ht
    exact ⟨hP.inv hPt, hc q, fun x u hu => ih x u (hs hPt hu)⟩

/-! ## Programs for requests -/

section Lift

variable {T : Sig} {F : Setting T τ} {π : τ → σ} {G : τ → Prop}

/-- What the others do in `F` they may do in `E`, and they keep `G`. -/
structure Lifts (E : Setting S σ) (F : Setting T τ) (π : τ → σ)
    (G : τ → Prop) : Prop where
  rely : ∀ {t u}, G t → F.rely t u → G u ∧ (π u = π t ∨ E.rely (π t) (π u))
  inv : ∀ {t}, E.inv (π t) → G t → F.inv t

theorem Lifts.stable (hl : Lifts E F π G) (Q : α → σ → Prop) (p : Prog S α) :
    F.Stable (fun t => E.Safe Q p (π t) ∧ G t) where
  keep := by
    rintro t u ⟨hsafe, hG⟩ hr
    obtain ⟨hGu, hsame | hrely⟩ := hl.rely hG hr
    · exact ⟨by rw [hsame]; exact hsafe, hGu⟩
    · exact ⟨Safe.others E hsafe hrely, hGu⟩
  inv h := hl.inv (Safe.inv E h.1) h.2

/-- A request of `F` that `E` does not see. -/
theorem Lifts.stutter (hl : Lifts E F π G) {q : T.Req} (hc : F.can q)
    (hs : ∀ {t x u}, G t → F.step q t x u → G u ∧ π u = π t) (Q : α → σ → Prop) (p : Prog S α) :
    F.Triple (fun t => E.Safe Q p (π t) ∧ G t) (perform q) (fun _ t => E.Safe Q p (π t) ∧ G t) := by
  refine .perform (hl.stable Q p) (fun _ => hl.stable Q p) hc ?_
  rintro t x u ⟨hsafe, hG⟩ hu
  obtain ⟨hGu, hsame⟩ := hs hG hu
  exact ⟨by rw [hsame]; exact hsafe, hGu⟩

/-- A request of `F` that answers the request `q` of `E`. -/
theorem Lifts.answer (hl : Lifts E F π G) {q : S.Req} {r : T.Req} (hc : F.can r)
    (f : T.Ans r → S.Ans q)
    (hs : ∀ {t x u}, G t → F.step r t x u → G u ∧ E.step q (π t) (f x) (π u))
    (Q : S.Ans q → σ → Prop) :
    F.Triple (fun t => E.Safe Q (perform q) (π t) ∧ G t)
      (perform r >>= fun x => .ret (f x)) (fun x t => Q x (π t) ∧ G t) := by
  refine .bind (.perform (hl.stable Q _) (fun x => hl.stable Q (.ret (f x))) hc ?_) fun x => ?_
  · rintro t x u ⟨hsafe, hG⟩ hu
    obtain ⟨hGu, hstep⟩ := hs hG hu
    exact ⟨(hsafe _ .refl).2.2 _ _ hstep, hGu⟩
  · exact .ret (hl.stable Q _) fun t h => ⟨(h.1 _ .refl).2, h.2⟩

theorem Lifts.expand_safe (hl : Lifts E F π G) {h : (q : S.Req) → Prog T (S.Ans q)}
    (hq : ∀ q, E.can q → ∀ Q : S.Ans q → σ → Prop,
      F.Triple (fun t => E.Safe Q (perform q) (π t) ∧ G t) (h q)
        (fun x t => Q x (π t) ∧ G t)) (Q : α → σ → Prop) (p : Prog S α) :
    F.Triple (fun t => E.Safe Q p (π t) ∧ G t) (p.expand h) (fun a t => Q a (π t) ∧ G t) := by
  induction p with
  | ret a => exact .ret (hl.stable Q _) fun t ht => ⟨(ht.1 _ .refl).2, ht.2⟩
  | ask q k ih =>
    rintro t ⟨hsafe, hG⟩
    refine Safe.bind F (hq q (hsafe _ .refl).2.1 (fun x => E.Safe Q (k x)) t ⟨?_, hG⟩) ih
    -- the rest is safe whenever the answer comes
    intro s hs
    obtain ⟨hi, hc, hk⟩ := hsafe s hs
    refine ⟨hi, hc, fun x u hu v hv => ?_⟩
    have hrest : E.Safe Q (k x) v := Safe.others_many E (hk x u hu) hv
    exact ⟨Safe.inv E hrest, hrest⟩

/-- A triple of `E`, with a fact of `F` that is kept. -/
theorem Lifts.expand (hl : Lifts E F π G) {h : (q : S.Req) → Prog T (S.Ans q)}
    (hq : ∀ q, E.can q → ∀ Q : S.Ans q → σ → Prop,
      F.Triple (fun t => E.Safe Q (perform q) (π t) ∧ G t) (h q)
        (fun x t => Q x (π t) ∧ G t)) {P : σ → Prop} {Q : α → σ → Prop}
    {p : Prog S α} (hp : E.Triple P p Q) :
    F.Triple (fun t => P (π t) ∧ G t) (p.expand h) (fun a t => Q a (π t) ∧ G t) :=
  (hl.expand_safe hq Q p).pre fun _ ht => ⟨hp _ ht.1, ht.2⟩

end Lift

/-! ## Runs -/

theorem reach_others (h : ReflTransGen E.rely s t) (p : Prog S α) : E.Reach (p, s) (p, t) := by
  induction h with
  | refl => exact .refl
  | tail _ hr ih => exact .tail ih (.others hr)

/-- A run of a program alone is one of its ways under interference, whatever answered it, as
    long as the setting allows the answers: what its continuation can reach, it can. -/
theorem reach_of_run {h : Handler S τ}
    (hstep : ∀ q o x o', h q o = some (x, o') → ∀ s, ∃ t, E.step q s x t) {o o' : τ} {a : α}
    (hrun : run h p o = some (a, o')) (hp : E.Triple P p Q) (hs : P s) {φ : Prog S β × σ → Prop}
    (hf : ∀ t, Q a t → ∃ c, E.Reach (f a, t) c ∧ φ c) :
    ∃ c, E.Reach (p >>= f, s) c ∧ φ c := by
  have hsafe := hp s hs
  clear hs hp
  induction p generalizing o s with
  | ret b =>
    cases hrun
    exact hf s (hsafe s .refl).2
  | ask q k ih =>
    cases hq : h q o with
    | none => cases (run_ask_none hq).symm.trans hrun
    | some r =>
      obtain ⟨x, o₁⟩ := r
      rw [run_ask_some hq] at hrun
      obtain ⟨u, hu⟩ := hstep q o x o₁ hq s
      obtain ⟨c, hc, hφ⟩ := ih x hrun ((hsafe s .refl).2.2 x u hu)
      exact ⟨c, .head (.ask hu) hc, hφ⟩

/-- When the others come to an end, so does a program among them. -/
theorem move_acc (hrely : ∀ s, Acc (fun t s => E.rely s t) s)
    (p : Prog S α) (s : σ) : Acc (fun c' c => E.Move c c') (p, s) := by
  induction p generalizing s with
  | ret a =>
    induction hrely s with
    | intro s _ ih =>
      refine ⟨_, fun c' hm => ?_⟩
      cases hm with
      | others hr => exact ih _ hr
  | ask q k ihk =>
    induction hrely s with
    | intro s _ ih =>
      refine ⟨_, fun c' hm => ?_⟩
      cases hm with
      | others hr => exact ih _ hr
      | ask hs => exact ihk _ _

theorem acc_of_reach (h : Acc (fun c' c => E.Move c c') c) (hr : E.Reach c c') :
    Acc (fun c' c => E.Move c c') c' := by
  induction hr with
  | refl => exact h
  | tail _ hm ih => exact ih.inv hm

/-- A configuration from which every way ends leads to an end. -/
theorem exists_end (h : Acc (fun c' c => E.Move c c') c) :
    ∃ c', E.Reach c c' ∧ ∀ c'', ¬ E.Move c' c'' := by
  induction h with
  | intro c _ ih =>
    by_cases hm : ∃ c', E.Move c c'
    · obtain ⟨c', hm⟩ := hm
      obtain ⟨c'', hr, hend⟩ := ih c' hm
      exact ⟨c'', .head hm hr, hend⟩
    · exact ⟨c, .refl, fun c' h => hm ⟨c', h⟩⟩

end Setting

end InteractProg
