import MultiLanes.ProgProofs

/-! # Outcomes — the end of a run, its moments, and its failures

Three questions are asked about code that writes to a disk: how a run ends, what a crash
can find at a moment of it (`Passes`), and how a run ends in which one of its requests
fails (`runFault`).  `Weathers` asks all three of one program text.  It goes through a
program bind by bind by equivalences, so that following the text once says exactly when
the answers are good, and not only that they are. -/

namespace InteractProg

variable {S : Sig} {α β σ : Type}

/-- The run in which the `n`-th of the requests that can fail does, with the
    answer that `fail` gives; `none` when there are not so many of them. -/
def runFault (h : Handler S σ) (fail : (q : S.Req) → Option (S.Ans q)) :
    Nat → Prog S α → σ → Option (α × σ)
  | _, .ret _, _ => none
  | n, .ask q k, s =>
    match fail q with
    | none => (h q s).bind (fun r => runFault h fail n (k r.1) r.2)
    | some x =>
      match n with
      | 0 => run h (k x) s
      | n + 1 => (h q s).bind (fun r => runFault h fail n (k r.1) r.2)

/-- The run of `p` from `s` ends in `Q`, `I` holds at every moment of it, and a
    run in which one request fails ends, if it does, in `G`. -/
def Weathers (h : Handler S σ) (fail : (q : S.Req) → Option (S.Ans q))
    (I : σ → Prop) (G : α → σ → Prop) :
    Prog S α → σ → (α → σ → Prop) → Prop
  | .ret a, s, Q => I s ∧ Q a s
  | .ask q k, s, Q =>
    I s ∧ (∀ x, fail q = some x → ∀ a t, run h (k x) s = some (a, t) → G a t)
      ∧ ∃ r, h q s = some r ∧ Weathers h fail I G (k r.1) r.2 Q

/-- Every end of the program returns a value in `P`. -/
def Leaves (P : α → Prop) : Prog S α → Prop
  | .ret a => P a
  | .ask _ k => ∀ x, Leaves P (k x)

theorem Leaves.run {P : α → Prop} {p : Prog S α} (hp : Leaves P p) {h : Handler S σ} {s t : σ}
    {a : α} (hr : InteractProg.run h p s = some (a, t)) : P a := by
  induction p generalizing s with
  | ret b =>
    obtain ⟨rfl, -⟩ : b = a ∧ s = t := by simpa using hr
    exact hp
  | ask q k ih =>
    rw [run_ask, Option.bind_eq_some_iff] at hr
    obtain ⟨r, -, hr'⟩ := hr
    exact ih r.1 (hp r.1) hr'

theorem leaves_bind {P : β → Prop} {p : Prog S α} {f : α → Prog S β}
    (hf : ∀ a, Leaves P (f a)) : Leaves P (p >>= f) := by
  induction p with
  | ret a => exact hf a
  | ask q k ih => exact ih

section Weathers

variable {h : Handler S σ} {fail : (q : S.Req) → Option (S.Ans q)}
  {I : σ → Prop} {G : α → σ → Prop}

variable {p : Prog S α} {s : σ} {Q : α → σ → Prop} {q : S.Req} {k : S.Ans q → Prog S α}

theorem Weathers.here (hp : Weathers h fail I G p s Q) : I s := by
  cases p with
  | ret a => exact hp.1
  | ask q k => exact hp.1

theorem weathers_ask {r : S.Ans q × σ} (hr : h q s = some r) :
    Weathers h fail I G (.ask q k) s Q ↔ I s
        ∧ (∀ x, fail q = some x → ∀ a t, run h (k x) s = some (a, t) → G a t)
        ∧ Weathers h fail I G (k r.1) r.2 Q := by
  refine and_congr_right fun _ => and_congr_right fun _ => ?_
  constructor
  · rintro ⟨r', hr', hk⟩
    obtain rfl : r = r' := Option.mem_unique hr hr'
    exact hk
  · exact fun hk => ⟨r, hr, hk⟩

/-- A request that is answered and cannot fail. -/
theorem weathers_safe {t : σ} {x : S.Ans q} (hq : h q s = some (x, t)) (hfail : fail q = none) :
    Weathers h fail I G (.ask q k) s Q ↔ I s ∧ Weathers h fail I G (k x) t Q := by
  rw [weathers_ask hq]
  refine and_congr_right fun _ => and_iff_right fun y hy => ?_
  cases hfail.symm.trans hy

/-- A request that is answered and can fail. -/
theorem weathers_risky {t : σ} {x y : S.Ans q} (hq : h q s = some (x, t)) (hfail : fail q = some y)
    :
    Weathers h fail I G (.ask q k) s Q ↔ I s ∧ (∀ a u, run h (k y) s = some (a, u) → G a u)
        ∧ Weathers h fail I G (k x) t Q := by
  rw [weathers_ask hq]
  refine and_congr_right fun _ => and_congr_left fun _ => ?_
  constructor
  · exact fun hG => hG y hfail
  · intro hG z hz
    obtain rfl : y = z := Option.mem_unique hfail hz
    exact hG

theorem weathers_bind {G : β → σ → Prop} {f : α → Prog S β} {Q : β → σ → Prop} :
    Weathers h fail I G (p >>= f) s Q ↔ Weathers h fail I
        (fun a t => ∀ b u, run h (f a) t = some (b, u) → G b u) p s
        (fun a t => Weathers h fail I G (f a) t Q) := by
  induction p generalizing s with
  | ret a => exact ⟨fun hf => ⟨hf.here, hf⟩, fun hf => hf.2⟩
  | ask q k ih =>
    refine and_congr_right fun _ => and_congr ?_ ?_
    · -- after a failure the two parts run one after the other
      refine forall_congr' fun x => forall_congr' fun _ => ?_
      constructor
      · intro hG a t ht b u hu
        exact hG b u (run_bind_eq_some.mpr ⟨a, t, ht, hu⟩)
      · intro hG b u hu
        obtain ⟨a, t, ht, hu'⟩ := run_bind_eq_some.mp hu
        exact hG a t ht b u hu'
    · exact exists_congr fun r => and_congr_right fun _ => ih r.1

theorem Weathers.mono {Q' : α → σ → Prop}
    (hp : Weathers h fail I G p s Q) (hQ : ∀ a t, Q a t → Q' a t) :
    Weathers h fail I G p s Q' := by
  induction p generalizing s with
  | ret a => exact ⟨hp.1, hQ a s hp.2⟩
  | ask q k ih =>
    obtain ⟨hI, hG, r, hr, hk⟩ := hp
    exact ⟨hI, hG, r, hr, ih r.1 hk⟩

/-- The failures of a request that is answered: its own, if it can fail, and
    those of what follows. -/
theorem runFault_ask_iff {r : S.Ans q × σ} (hr : h q s = some r) :
    (∀ n a t, runFault h fail n (.ask q k) s = some (a, t) → G a t) ↔
      (∀ x, fail q = some x → ∀ a t, run h (k x) s = some (a, t) → G a t)
        ∧ ∀ n a t, runFault h fail n (k r.1) r.2 = some (a, t) → G a t := by
  cases hf : fail q with
  | none =>
    have heq : ∀ n, runFault h fail n (.ask q k) s = runFault h fail n (k r.1) r.2 := by
      intro n
      rw [runFault, hf, hr]
      rfl
    constructor
    · exact fun hG => ⟨nofun, fun n a t hn => hG n a t ((heq n).trans hn)⟩
    · exact fun hG n a t hn => hG.2 n a t ((heq n).symm.trans hn)
  | some x =>
    have hzero : runFault h fail 0 (.ask q k) s = run h (k x) s := by
      rw [runFault, hf]
    have hsucc : ∀ n, runFault h fail (n + 1) (.ask q k) s = runFault h fail n (k r.1) r.2 := by
      intro n
      rw [runFault, hf, hr]
      rfl
    constructor
    · intro hG
      refine ⟨fun y hy a t hrun => ?_, fun n a t hn => ?_⟩
      · obtain rfl : x = y := Option.some.inj hy
        exact hG 0 a t (hzero.trans hrun)
      · exact hG (n + 1) a t ((hsucc n).trans hn)
    · rintro ⟨hG, hG'⟩ (_ | n) a t hn
      · exact hG x rfl a t (hzero.symm.trans hn)
      · exact hG' n a t ((hsucc n).symm.trans hn)

/-- The three questions apart. -/
theorem weathers_iff : Weathers h fail I G p s Q ↔ (∃ a t, run h p s = some (a, t) ∧ Q a t)
        ∧ (∀ t, Passes h p s t → I t)
        ∧ ∀ n a t, runFault h fail n p s = some (a, t) → G a t := by
  induction p generalizing s with
  | ret a =>
    constructor
    · rintro ⟨hI, hQ⟩
      exact ⟨⟨a, s, rfl, hQ⟩, fun t ht => ht ▸ hI, fun n b t hn => nomatch hn⟩
    · rintro ⟨⟨b, t, hr, hQ⟩, hI, -⟩
      obtain ⟨rfl, rfl⟩ : a = b ∧ s = t := by simpa using hr
      exact ⟨hI s rfl, hQ⟩
  | ask q k ih =>
    cases hr : h q s with
    | none =>
      constructor
      · rintro ⟨-, -, r, hr', -⟩
        cases hr.symm.trans hr'
      · rintro ⟨⟨a, t, hrun, -⟩, -⟩
        cases (run_ask_none hr).symm.trans hrun
    | some r =>
      have hpass : (∀ t, Passes h (.ask q k) s t → I t) ↔
          I s ∧ ∀ t, Passes h (k r.1) r.2 t → I t := by
        simp only [passes_ask_some hr, forall_eq_or_imp]
      rw [weathers_ask hr, ih r.1, run_ask_some hr, hpass, runFault_ask_iff hr]
      constructor
      · rintro ⟨hI, hG, hrun, hI', hG'⟩
        exact ⟨hrun, ⟨hI, hI'⟩, hG, hG'⟩
      · rintro ⟨hrun, ⟨hI, hI'⟩, hG, hG'⟩
        exact ⟨hI, hG, hrun, hI', hG'⟩

end Weathers

end InteractProg
