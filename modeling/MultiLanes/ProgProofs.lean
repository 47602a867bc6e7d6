import Mathlib.Logic.Relation

/-! # Interaction programs — code that asks its environment

Kernel code is a sequence of requests to its surroundings: a lock-free bit is tested, a
block is looked up, a page is offered to a bio, a replica file system is told to unlink.
 A `Prog` is such code with the requests left open; a `Handler` answers them from a
state.  One program text then serves every reading of it:

* `run` — the sequential run, `none` when an answer never comes (a hang, an oops, a loop
  out of fuel);
* `trace` — the requests a run makes, also when it never ends;
* `Passes` — the states a run goes through, for crashes between two requests.

Each reading distributes over `bind`, so a proof about a program is put together from
proofs about its parts. -/

namespace InteractProg

/-- A signature: the requests, and for each request the type of its answer.  A
    request whose answer type is empty stops the program. -/
structure Sig where
  Req : Type
  Ans : Req → Type

/-- A program over a signature: it returns, or asks and goes on with the answer. -/
inductive Prog (S : Sig) (α : Type) where
  | ret (a : α) : Prog S α
  | ask (q : S.Req) (k : S.Ans q → Prog S α) : Prog S α

variable {S : Sig} {α β σ : Type}

/-- Sequential composition. -/
def Prog.bind : Prog S α → (α → Prog S β) → Prog S β
  | .ret a, f => f a
  | .ask q k, f => .ask q (fun x => (k x).bind f)

instance : Monad (Prog S) where
  pure := .ret
  bind := .bind

/-- The program that makes one request and returns its answer. -/
def perform (q : S.Req) : Prog S (S.Ans q) := .ask q .ret

/-- `if (c) p;` -/
def onlyIf (c : Prop) [Decidable c] (p : Prog S Unit) : Prog S Unit :=
  if c then p else .ret ()

theorem onlyIf_pos {c : Prop} [Decidable c] (hc : c) (p : Prog S Unit) : onlyIf c p = p := if_pos hc

theorem onlyIf_neg {c : Prop} [Decidable c] (hc : ¬ c) (p : Prog S Unit) :
    onlyIf c p = .ret () := if_neg hc

@[simp] theorem pure_eq_ret (a : α) : (pure a : Prog S α) = .ret a := rfl

@[simp] theorem ret_bind (a : α) (f : α → Prog S β) : (Prog.ret a >>= f) = f a := rfl

@[simp] theorem ask_bind (q : S.Req) (k : S.Ans q → Prog S α) (f : α → Prog S β) :
    (Prog.ask q k >>= f) = Prog.ask q (fun x => k x >>= f) := rfl

@[simp] theorem perform_bind (q : S.Req) (f : S.Ans q → Prog S β) :
    (perform q >>= f) = Prog.ask q f := rfl

/-- Sequencing is associative. -/
theorem bind_bind {γ : Type} (p : Prog S α) (f : α → Prog S β)
    (g : β → Prog S γ) : (p >>= f >>= g) = (p >>= fun a => f a >>= g) := by
  induction p with
  | ret a => rfl
  | ask q k ih => exact congrArg (Prog.ask q) (funext ih)

/-! ## Sequential runs -/

/-- A handler answers a request from a state, or never answers it. -/
def Handler (S : Sig) (σ : Type) : Type :=
  (q : S.Req) → σ → Option (S.Ans q × σ)

/-- Run a program against a handler. -/
def run (h : Handler S σ) : Prog S α → σ → Option (α × σ)
  | .ret a, s => some (a, s)
  | .ask q k, s =>
    match h q s with
    | none => none
    | some (x, s') => run h (k x) s'

variable {a : α} {s : σ} {h : Handler S σ} {q : S.Req} {k : S.Ans q → Prog S α} {s' : σ}
  {x : S.Ans q} {p : Prog S α} {f : α → Prog S β}

theorem answer_inj {b : α} {t : σ} (h : some (a, s) = some (b, t)) : a = b ∧ s = t :=
  Prod.mk.inj (Option.some.inj h)

@[simp] theorem run_ret (h : Handler S σ) (a : α) (s : σ) : run h (.ret a) s = some (a, s) := rfl

theorem run_ask (h : Handler S σ) (q : S.Req) (k : S.Ans q → Prog S α) (s : σ) :
    run h (.ask q k) s = (h q s).bind (fun r => run h (k r.1) r.2) := by
  rw [run]
  cases h q s <;> rfl

/-- A request that is answered: the run goes on from the answer. -/
theorem run_ask_some (hq : h q s = some (x, s')) : run h (.ask q k) s = run h (k x) s' := by
  rw [run_ask, hq]
  rfl

/-- A request that is never answered ends the run. -/
theorem run_ask_none (hq : h q s = none) : run h (.ask q k) s = none := by
  rw [run_ask, hq]
  rfl

/-- A sequence is run part after part. -/
theorem run_bind (h : Handler S σ) (p : Prog S α) (f : α → Prog S β) (s : σ) :
    run h (p >>= f) s = (run h p s).bind (fun r => run h (f r.1) r.2) := by
  induction p generalizing s with
  | ret a => rfl
  | ask q k ih =>
    rw [ask_bind, run_ask, run_ask]
    cases h q s with
    | none => rfl
    | some r => exact ih r.1 r.2

theorem run_bind_some (hp : run h p s = some (a, s')) : run h (p >>= f) s = run h (f a) s' := by
  rw [run_bind, hp]
  rfl

/-- A finished run of a composition is a finished run of each part. -/
theorem run_bind_eq_some {t : σ} {b : β} : run h (p >>= f) s = some (b, t) ↔
      ∃ a s', run h p s = some (a, s') ∧ run h (f a) s' = some (b, t) := by
  rw [run_bind]
  constructor
  · intro hr
    obtain ⟨⟨a, s'⟩, hp, hf⟩ := Option.bind_eq_some_iff.mp hr
    exact ⟨a, s', hp, hf⟩
  · rintro ⟨a, s', hp, hf⟩
    exact Option.bind_eq_some_iff.mpr ⟨(a, s'), hp, hf⟩

/-! ## The requests a run makes -/

/-- The requests that are made and answered, up to the end of the run or to the
    first one that is not answered. -/
def trace (h : Handler S σ) : Prog S α → σ → List S.Req
  | .ret _, _ => []
  | .ask q k, s =>
    match h q s with
    | none => []
    | some (x, s') => q :: trace h (k x) s'

theorem trace_ask_some (hq : h q s = some (x, s')) :
    trace h (.ask q k) s = q :: trace h (k x) s' := by
  rw [trace, hq]

theorem trace_ask_none (hq : h q s = none) : trace h (.ask q k) s = [] := by
  rw [trace, hq]

/-- The requests of a sequence are those of its parts. -/
theorem trace_bind_some (hp : run h p s = some (a, s')) :
    trace h (p >>= f) s = trace h p s ++ trace h (f a) s' := by
  induction p generalizing s with
  | ret b =>
    obtain ⟨rfl, rfl⟩ : b = a ∧ s = s' := by simpa using hp
    rfl
  | ask q k ih =>
    rw [run_ask] at hp
    obtain ⟨⟨x, s₁⟩, hq, hk⟩ := Option.bind_eq_some_iff.mp hp
    rw [ask_bind, trace_ask_some hq, trace_ask_some hq, ih x hk]
    rfl

/-! ## The states a run goes through -/

/-- `Passes h p s t`: the run of `p` from `s` is at `t` before, between or after its requests. -/
def Passes (h : Handler S σ) : Prog S α → σ → σ → Prop
  | .ret _, s, t => t = s
  | .ask q k, s, t =>
    t = s ∨ ∃ x s', h q s = some (x, s') ∧ Passes h (k x) s' t

@[simp] theorem passes_ret (h : Handler S σ) (a : α) (s t : σ) :
    Passes h (.ret a) s t ↔ t = s := Iff.rfl

theorem passes_ask (h : Handler S σ) (q : S.Req) (k : S.Ans q → Prog S α) (s t : σ) :
    Passes h (.ask q k) s t ↔ t = s ∨ ∃ x s', h q s = some (x, s') ∧ Passes h (k x) s' t := Iff.rfl

theorem passes_ask_some (hq : h q s = some (x, s')) (t : σ) :
    Passes h (.ask q k) s t ↔ t = s ∨ Passes h (k x) s' t := by
  rw [passes_ask]
  constructor
  · rintro (rfl | ⟨y, s'', hy, hp⟩)
    · exact .inl rfl
    · rw [hq] at hy
      obtain ⟨rfl, rfl⟩ : x = y ∧ s' = s'' := by simpa using hy
      exact .inr hp
  · rintro (rfl | hp)
    · exact .inl rfl
    · exact .inr ⟨x, s', hq, hp⟩

/-- A run passes through the state it starts in. -/
theorem passes_self (h : Handler S σ) (p : Prog S α) (s : σ) : Passes h p s s := by
  cases p with
  | ret a => rfl
  | ask q k => exact .inl rfl

/-- The states of a composition are those of its first part and then those of its second. -/
theorem passes_bind (h : Handler S σ) (p : Prog S α) (f : α → Prog S β) (s t : σ) :
    Passes h (p >>= f) s t ↔ Passes h p s t ∨
        ∃ a s', run h p s = some (a, s') ∧ Passes h (f a) s' t := by
  induction p generalizing s with
  | ret a =>
    simp only [ret_bind, passes_ret, run_ret, Option.some.injEq, Prod.mk.injEq]
    constructor
    · intro hp
      exact .inr ⟨a, s, ⟨rfl, rfl⟩, hp⟩
    · rintro (rfl | ⟨b, s', ⟨rfl, rfl⟩, hp⟩)
      · exact passes_self h (f a) t
      · exact hp
  | ask q k ih =>
    rw [ask_bind, passes_ask, passes_ask, run_ask]
    constructor
    · rintro (rfl | ⟨x, s', hq, hp⟩)
      · exact .inl (.inl rfl)
      · rcases (ih x s').mp hp with hl | ⟨a, s'', hr, hf⟩
        · exact .inl (.inr ⟨x, s', hq, hl⟩)
        · exact .inr ⟨a, s'', by rw [hq]; exact hr, hf⟩
    · rintro ((rfl | ⟨x, s', hq, hp⟩) | ⟨a, s'', hr, hf⟩)
      · exact .inl rfl
      · exact .inr ⟨x, s', hq, (ih x s').mpr (.inl hp)⟩
      · obtain ⟨⟨x, s'⟩, hq, hk⟩ := Option.bind_eq_some_iff.mp hr
        exact .inr ⟨x, s', hq, (ih x s').mpr (.inr ⟨a, s'', hk, hf⟩)⟩

end InteractProg
