import Mathlib.Data.List.Perm.Basic
import Mathlib.Data.List.Range

/-! # Slices — submission and completion

`redirect_bio` puts the slices of a bio on a list and then submits them one by one.  A
slice may complete as soon as it is submitted, also inside `submit_bio`; the completion
that finds all of them done frees the list and its head and ends the original bio.  The
loop must not be on the list then: it goes from node to node up to the last one, which
it remembers, and submits the last one when it needs no `next` any more.

The loop and the completions take steps in any order (`step`).  A step that uses a node,
a head or a bio that is gone is a `fault`.  `Inv` says where every slice is; from it, no
run has a fault, and the original bio is ended once, when all slices have completed,
with the first error. -/

namespace SliceEnd

open List

/-- `struct lo_bio_head`; the list is that of the nodes' addresses. -/
structure Head where
  nrTotal : Nat
  nrDone : Nat
  error : Int
  slices : List Nat
deriving DecidableEq, Repr

/-- `lo_send_bio`: a node at the tail of the list. -/
def loSendBio (head : Head) (loBio : Nat) : Head :=
  { head with
    slices := head.slices ++ [loBio]
    nrTotal := head.nrTotal + 1 }

/-- The head of `n` slices. -/
def sendAll (n : Nat) : Head := (range n).foldl loSendBio ⟨0, 0, 0, []⟩

/-- Where the submission loop is. -/
inductive Pc where
  | start
  /-- `lo_bio != last` is to be tested -/
  | walk (loBio last : Nat)
  /-- `lo_bio` has been submitted, and its `slice.next` is to be read -/
  | advance (loBio last : Nat)
  | done
deriving DecidableEq, Repr

/-- A slice completes: the argument of `lo_end_bio` and the `BIO_UPTODATE` of its bio. -/
structure Completion where
  slice : Nat
  error : Int
  uptodate : Bool
deriving DecidableEq, Repr

/-- The loop, the head (`none` when it is freed), the slices that have been
    submitted and have not completed, the completions so far, and the calls of
    `bio_endio` for the original bio. -/
structure State where
  head : Option Head
  pc : Pc
  inFlight : List Nat
  completed : List Completion
  ended : List Int
  fault : Bool
deriving DecidableEq, Repr

/-- `slice.next` of a node; behind the last node is the head of the list. -/
def nextOf : List Nat → Nat → Option Nat
  | a :: b :: l, x => if a = x then some b else nextOf (b :: l) x
  | _, _ => none

/-- What may be used: the head is there, the node is on its list, and the
    original bio has not been ended. -/
def State.alive (s : State) (loBio : Nat) : Bool :=
  match s.head with
  | none => false
  | some h => h.slices.contains loBio && s.ended.isEmpty

def State.fail (s : State) : State := { s with fault := true }

/-- `submit_bio(old_bio->bi_rw, lo_bio->bio)`. -/
def State.submit (s : State) (loBio : Nat) (pc : Pc) : State :=
  if s.alive loBio then { s with inFlight := loBio :: s.inFlight, pc := pc }
  else s.fail

/-- A step of the loop. -/
def loopStep (s : State) : Option State :=
  match s.pc with
  | .start =>
    match s.head with
    | none => some s.fail
    | some h =>
      match h.slices.head?, h.slices.getLast? with
      | some first, some last => some { s with pc := .walk first last }
      | _, _ => some s.fail
  | .walk x last =>
    if x = last then some (s.submit last .done)
    else some (s.submit x (.advance x last))
  | .advance x last =>
    match s.head.bind fun h => nextOf h.slices x with
    | none => some s.fail
    | some y => some { s with pc := .walk y last }
  | .done => none

/-- The error that `lo_end_bio` goes by. -/
def effective (error : Int) (uptodate : Bool) : Int :=
  if error ≠ 0 then error else if uptodate then 0 else -5

/-- `lo_end_bio` of a slice that has been submitted. -/
def loEndBio (s : State) (c : Completion) : State :=
  match s.head with
  | none => s.fail
  | some h =>
    let h' : Head :=
      { h with
        nrDone := h.nrDone + 1
        error := if h.error = 0 then effective c.error c.uptodate else h.error }
    let s' : State :=
      { s with
        head := some h'
        inFlight := s.inFlight.erase c.slice
        completed := s.completed ++ [c] }
    if h'.nrTotal = h'.nrDone then
      -- lo_free_bio, bio_endio, kfree(head)
      { s' with head := none, ended := s.ended ++ [h'.error] }
    else s'

/-- The steps: the loop goes on, or a slice completes. -/
inductive Action where
  | loop
  | complete (c : Completion)
deriving DecidableEq, Repr

def step (s : State) : Action → Option State
  | .loop => loopStep s
  | .complete c => if c.slice ∈ s.inFlight then some (loEndBio s c) else none

/-- The loop before its first step. -/
def start (n : Nat) : State := ⟨some (sendAll n), .start, [], [], [], false⟩

/-- The states of a bio of `n` slices, in any order of the steps. -/
inductive Reach (n : Nat) : State → Prop
  | start : Reach n (start n)
  | step {s s' : State} {a : Action} :
      Reach n s → step s a = some s' → Reach n s'

/-- The slice has failed: it comes with an error, or its data are not up to date. -/
def Completion.failed (c : Completion) : Bool := c.error ≠ 0 || !c.uptodate

/-- The error of the first slice that failed, `-EIO` if it came without one; or 0. -/
def firstError (l : List Completion) : Int :=
  match l.find? Completion.failed with
  | none => 0
  | some c => if c.error = 0 then -5 else c.error

/-- The loop has ended, and every slice has completed. -/
def State.final (s : State) : Prop := s.pc = .done ∧ s.inFlight = []

/-! ## Lists -/

theorem sendAll_eq (n : Nat) : sendAll n = ⟨n, 0, 0, range n⟩ := by
  induction n with
  | zero => rfl
  | succ n ih =>
    rw [sendAll, range_succ, foldl_append]
    show loSendBio (sendAll n) n = _
    rw [ih]
    rfl

/-- The node behind node `x`. -/
theorem nextOf_range' {a m x : Nat} (hax : a ≤ x) (hx : x + 1 < a + m) :
    nextOf (range' a m) x = some (x + 1) := by
  induction m generalizing a with
  | zero => omega
  | succ m ih =>
    cases m with
    | zero => omega
    | succ m =>
      show (if a = x then some (a + 1) else nextOf (range' (a + 1) (m + 1)) x) = _
      by_cases h : a = x
      · rw [if_pos h, h]
      · rw [if_neg h]
        exact ih (by omega) (by omega)

theorem nextOf_range {n x : Nat} (hx : x + 1 < n) : nextOf (range n) x = some (x + 1) := by
  rw [range_eq_range']
  exact nextOf_range' (Nat.zero_le _) (by omega)

/-- `lo_end_bio` goes by no error for the slices that have not failed. -/
theorem effective_of_failed {c : Completion} : effective c.error c.uptodate
      = if c.failed then (if c.error = 0 then -5 else c.error) else 0 := by
  obtain ⟨x, e, u⟩ := c
  by_cases he : e = 0 <;> cases u <;> simp [effective, Completion.failed, he]

theorem firstError_append (l : List Completion) (c : Completion) : firstError (l ++ [c])
      = if firstError l = 0 then effective c.error c.uptodate else firstError l := by
  unfold firstError
  rw [find?_append, effective_of_failed]
  cases h : l.find? Completion.failed with
  | none => cases hc : c.failed <;> simp [hc]
  | some d =>
    have hd : (if d.error = 0 then -5 else d.error) ≠ 0 := by
      split
      · decide
      · assumption
    simp [hd]

/-! ## Where every slice is -/

/-- The slices that the loop has submitted are those below this one. -/
def Pc.submitted (n : Nat) : Pc → Nat
  | .start => 0
  | .walk x _ => x
  | .advance x _ => x + 1
  | .done => n

/-- The loop is on the list, before the last node until that is its turn. -/
def Pc.Ok (n : Nat) : Pc → Prop
  | .start => True
  | .walk x last => x ≤ last ∧ last + 1 = n
  | .advance x last => x < last ∧ last + 1 = n
  | .done => True

/-- The invariant: a slice that has been submitted is in flight or has
    completed, once; and the head is as the completions have left it. -/
structure Inv (n : Nat) (s : State) : Prop where
  pc : s.pc.Ok n
  where_ : (s.inFlight ++ s.completed.map Completion.slice).Perm (range (s.pc.submitted n))
  open_ : s.completed.length < n →
    s.head = some ⟨n, s.completed.length, firstError s.completed, range n⟩ ∧ s.ended = []
  closed : s.completed.length = n → s.head = none ∧ s.ended = [firstError s.completed]
  fault : s.fault = false

section Steps

variable {n : Nat} {s s' : State} {x last : Nat}

theorem Inv.count (h : Inv n s) : s.inFlight.length + s.completed.length = s.pc.submitted n := by
  have hlen := h.where_.length_eq
  simpa using hlen

theorem submitted_le {pc : Pc} (h : pc.Ok n) : pc.submitted n ≤ n := by
  cases pc with
  | start => exact Nat.zero_le _
  | walk x last =>
    obtain ⟨hle, hn⟩ := h
    simp only [Pc.submitted]
    omega
  | advance x last =>
    obtain ⟨hlt, hn⟩ := h
    simp only [Pc.submitted]
    omega
  | done => exact Nat.le_refl _

/-- As long as the loop has a slice to submit, the list is there. -/
theorem Inv.on_list (h : Inv n s) (hlt : s.pc.submitted n < n) :
    s.head = some ⟨n, s.completed.length, firstError s.completed, range n⟩ ∧ s.ended = [] := by
  refine h.open_ ?_
  have hcount := h.count
  omega

/-- A slice is submitted: it is the next one. -/
theorem Inv.submit (h : Inv n s) {pc : Pc} (hx : s.pc.submitted n = x)
    (hlt : x < n) (hpc : pc.Ok n) (hsub : pc.submitted n = x + 1) :
    Inv n (s.submit x pc) := by
  obtain ⟨hhead, hended⟩ := h.on_list (by omega)
  have halive : s.alive x = true := by
    simp [State.alive, hhead, hended, hlt]
  rw [State.submit, if_pos halive]
  refine ⟨hpc, ?_, h.open_, h.closed, h.fault⟩
  show (x :: (s.inFlight ++ s.completed.map Completion.slice)).Perm (range (pc.submitted n))
  rw [hsub, range_succ]
  have hperm := h.where_
  rw [hx] at hperm
  exact (hperm.cons x).trans (perm_append_singleton x _).symm

/-- The loop moves on the list, and nothing is submitted. -/
theorem Inv.move (h : Inv n s) {pc : Pc} (hpc : pc.Ok n)
    (hsub : pc.submitted n = s.pc.submitted n) :
    Inv n { s with pc := pc } := by
  refine ⟨hpc, ?_, h.open_, h.closed, h.fault⟩
  show (s.inFlight ++ s.completed.map Completion.slice).Perm (range (pc.submitted n))
  rw [hsub]
  exact h.where_

/-- The step of the loop, by where it is. -/
inductive LoopMoves (n : Nat) (s : State) : State → Prop
  | start : s.pc = .start → LoopMoves n s { s with pc := .walk 0 (n - 1) }
  | last : s.pc = .walk (n - 1) (n - 1) → LoopMoves n s (s.submit (n - 1) .done)
  | submit {x : Nat} : x < n - 1 → s.pc = .walk x (n - 1) →
      LoopMoves n s (s.submit x (.advance x (n - 1)))
  | advance {x : Nat} : x < n - 1 → s.pc = .advance x (n - 1) →
      LoopMoves n s { s with pc := .walk (x + 1) (n - 1) }

theorem Inv.loopMoves (h : Inv n s) (hn : 0 < n)
    (hs : loopStep s = some s') : LoopMoves n s s' := by
  obtain ⟨m, rfl⟩ : ∃ m, n = m + 1 := ⟨n - 1, by omega⟩
  have hok := h.pc
  cases hpc : s.pc with
  | start =>
    obtain ⟨hhead, -⟩ := h.on_list (by rw [hpc]; exact hn)
    have hfirst : (range (m + 1)).head? = some 0 := by
      rw [range_succ_eq_map]
      rfl
    have hlast : (range (m + 1)).getLast? = some m := by
      rw [range_succ]
      exact getLast?_concat
    have hmove : loopStep s = some { s with pc := .walk 0 m } := by
      simp only [loopStep, hpc, hhead, hfirst, hlast]
    cases hmove.symm.trans hs
    exact .start hpc
  | walk x last =>
    rw [hpc] at hok
    obtain ⟨hle, hlast⟩ := hok
    obtain rfl : last = m := by omega
    simp only [loopStep, hpc] at hs
    split at hs
    · next hx =>
      cases hs
      subst hx
      exact .last hpc
    · next hx =>
      cases hs
      exact .submit (Nat.lt_of_le_of_ne hle hx) hpc
  | advance x last =>
    rw [hpc] at hok
    obtain ⟨hlt, hlast⟩ := hok
    obtain rfl : last = m := by omega
    -- the last slice has not been submitted, so the list is there
    obtain ⟨hhead, -⟩ := h.on_list (by rw [hpc]; exact Nat.succ_lt_succ hlt)
    have hnext : nextOf (range (last + 1)) x = some (x + 1) :=
      nextOf_range (by omega)
    have hmove : loopStep s = some { s with pc := .walk (x + 1) last } := by
      simp only [loopStep, hpc, hhead, Option.bind_some, hnext]
    cases hmove.symm.trans hs
    exact .advance hlt hpc
  | done =>
    simp only [loopStep, hpc] at hs
    cases hs

theorem Inv.loop (h : Inv n s) (hn : 0 < n) (hs : loopStep s = some s') : Inv n s' := by
  cases h.loopMoves hn hs with
  | start hpc =>
    refine h.move ⟨Nat.zero_le _, by omega⟩ ?_
    rw [hpc]
    rfl
  | last hpc =>
    refine h.submit (by rw [hpc]; rfl) (by omega) trivial ?_
    show n = n - 1 + 1
    omega
  | submit hlt hpc =>
    exact h.submit (by rw [hpc]; rfl) (by omega) ⟨hlt, by omega⟩ rfl
  | advance hlt hpc =>
    refine h.move ⟨hlt, by omega⟩ ?_
    rw [hpc]
    rfl

/-- A completion moves the slice and counts it; the last one closes. -/
theorem Inv.complete (h : Inv n s) {c : Completion} (hx : c.slice ∈ s.inFlight) :
    Inv n (loEndBio s c) := by
  have hcount := h.count
  have hle := submitted_le h.pc
  have hpos := length_pos_of_mem hx
  obtain ⟨hhead, hended⟩ := h.open_ (by omega)
  have hwhere : (s.inFlight.erase c.slice ++ (s.completed ++ [c]).map Completion.slice).Perm
        (range (s.pc.submitted n)) := by
    refine List.Perm.trans ?_ h.where_
    rw [map_append, ← append_assoc]
    refine (perm_append_singleton _ _).trans ?_
    exact ((perm_cons_erase hx).symm).append_right _
  have herror : (if firstError s.completed = 0 then effective c.error c.uptodate
      else firstError s.completed) = firstError (s.completed ++ [c]) :=
    (firstError_append s.completed c).symm
  have hlen : (s.completed ++ [c]).length = s.completed.length + 1 := by
    simp
  unfold loEndBio
  simp only [hhead, hended, herror]
  split
  · next hall =>
    refine ⟨h.pc, hwhere, ?_, ?_, h.fault⟩
    · intro hlt
      simp only [hlen] at hlt
      omega
    · intro _
      exact ⟨rfl, rfl⟩
  · next hall =>
    refine ⟨h.pc, hwhere, ?_, ?_, h.fault⟩
    · intro _
      exact ⟨by rw [hlen], rfl⟩
    · intro heq
      simp only [hlen] at heq
      exact absurd heq.symm hall

theorem complete_eq_some {c : Completion} (hs : step s (.complete c) = some s') :
    c.slice ∈ s.inFlight ∧ loEndBio s c = s' := by
  have hs' : (if c.slice ∈ s.inFlight then some (loEndBio s c) else none) = some s' := hs
  split at hs'
  · next hx => exact ⟨hx, Option.some.inj hs'⟩
  · cases hs'

theorem start_inv (hn : 0 < n) : Inv n (start n) where
  pc := trivial
  where_ := List.Perm.nil
  open_ _ := ⟨by rw [start, sendAll_eq]; rfl, rfl⟩
  closed h := absurd h (ne_of_lt hn)
  fault := rfl

theorem Reach.inv (hn : 0 < n) (h : Reach n s) : Inv n s := by
  induction h with
  | start => exact start_inv hn
  | @step s s' a _ hs ih =>
    cases a with
    | loop => exact ih.loop hn hs
    | complete c =>
      obtain ⟨hx, rfl⟩ := complete_eq_some hs
      exact ih.complete hx

/-- Before the end, something can go on. -/
theorem exists_step (h : ¬ s.final) : ∃ a s', step s a = some s' := by
  cases hf : s.inFlight with
  | cons x l =>
    refine ⟨.complete ⟨x, 0, true⟩, loEndBio s ⟨x, 0, true⟩, ?_⟩
    have hx : x ∈ s.inFlight := by
      rw [hf]
      exact .head _
    exact if_pos hx
  | nil =>
    have hpc : s.pc ≠ .done := fun hpc => h ⟨hpc, hf⟩
    have hloop : (loopStep s).isSome = true := by
      unfold loopStep
      repeat' split
      all_goals first | rfl | contradiction
    obtain ⟨s', hs'⟩ := Option.isSome_iff_exists.mp hloop
    exact ⟨.loop, s', hs'⟩

/-! ## Every run ends -/

/-- The steps that the loop has before it. -/
def Pc.left (n : Nat) : Pc → Nat
  | .start => 2 * n
  | .walk x _ => 2 * (n - 1 - x) + 1
  | .advance x _ => 2 * (n - 1 - x)
  | .done => 0

/-- The steps that are left: those of the loop, and one for each slice that has not completed. -/
def State.left (n : Nat) (s : State) : Nat :=
  s.pc.left n + (n - s.completed.length)

@[simp] theorem submit_completed (pc : Pc) : (s.submit x pc).completed = s.completed := by
  unfold State.submit
  split <;> rfl

theorem Inv.submit_pc (h : Inv n s) {pc : Pc} (hx : s.pc.submitted n = x)
    (hlt : x < n) : (s.submit x pc).pc = pc := by
  obtain ⟨hhead, hended⟩ := h.on_list (by omega)
  have halive : s.alive x = true := by
    simp [State.alive, hhead, hended, hlt]
  rw [State.submit, if_pos halive]

theorem loEndBio_pc {c : Completion} : (loEndBio s c).pc = s.pc := by
  unfold loEndBio
  split
  · rfl
  · dsimp only
    split <;> rfl

theorem Inv.complete_length (h : Inv n s) {c : Completion} (hx : c.slice ∈ s.inFlight) :
    (loEndBio s c).completed.length = s.completed.length + 1 ∧ s.completed.length < n := by
  have hcount := h.count
  have hle := submitted_le h.pc
  have hpos := length_pos_of_mem hx
  obtain ⟨hhead, -⟩ := h.open_ (by omega)
  refine ⟨?_, by omega⟩
  simp only [loEndBio, hhead]
  split <;> simp

/-- One step less is left. -/
theorem Inv.left_step (h : Inv n s) (hn : 0 < n) {a : Action}
    (hs : step s a = some s') : s'.left n + 1 = s.left n := by
  cases a with
  | loop =>
    unfold State.left
    cases h.loopMoves hn hs with
    | start hpc =>
      rw [hpc]
      simp only [Pc.left]
      omega
    | last hpc =>
      rw [h.submit_pc (by rw [hpc]; rfl) (by omega), submit_completed, hpc]
      simp only [Pc.left]
      omega
    | submit hlt hpc =>
      rw [h.submit_pc (by rw [hpc]; rfl) (by omega), submit_completed, hpc]
      simp only [Pc.left]
      omega
    | advance hlt hpc =>
      rw [hpc]
      simp only [Pc.left]
      omega
  | complete c =>
    obtain ⟨hx, rfl⟩ := complete_eq_some hs
    obtain ⟨hlen, hlt⟩ := h.complete_length hx
    unfold State.left
    rw [loEndBio_pc, hlen]
    omega

end Steps

/-- For every number of slices and every order of the steps of the loop and of
    the completions: nothing that has been freed is used; the original bio is
    ended once all slices have completed, then once, with the first error; and
    every run goes on to where all of them have. -/
theorem slices_end_once {n : Nat} (hn : 0 < n) {s : State} (h : Reach n s) :
    s.fault = false ∧ s.ended = (if s.completed.length = n then [firstError s.completed]
          else [])
      ∧ (s.final → (s.completed.map Completion.slice).Perm (range n)
          ∧ s.ended = [firstError s.completed])
      ∧ (¬ s.final → ∃ a s', step s a = some s')
      ∧ ∀ a s', step s a = some s' → s'.left n < s.left n := by
  have hinv := h.inv hn
  have hcount := hinv.count
  have hle := submitted_le hinv.pc
  have hended : s.ended = (if s.completed.length = n
      then [firstError s.completed] else []) := by
    split
    · next hall => exact (hinv.closed hall).2
    · next hall => exact (hinv.open_ (by omega)).2
  refine ⟨hinv.fault, hended, ?_, exists_step, ?_⟩
  · rintro ⟨hpc, hflight⟩
    have hperm := hinv.where_
    rw [hpc, hflight] at hperm
    have hall : s.completed.length = n := by
      simpa [Pc.submitted] using hperm.length_eq
    exact ⟨hperm, by rw [hended, if_pos hall]⟩
  · intro a s' hs
    have hstep := hinv.left_step hn hs
    omega

/-- Two slices; the first fails inside `submit_bio`, the second later. -/
theorem two_slices_end_once :
    ∃ s, Reach 2 s ∧ s.final ∧ s.completed = [⟨0, -28, true⟩, ⟨1, 0, false⟩]
      ∧ s.fault = false ∧ s.ended = [-28] := by
  have hreach : ∃ s, Reach 2 s ∧ s.final ∧ s.completed = [⟨0, -28, true⟩, ⟨1, 0, false⟩] := by
    refine ⟨_, .step (a := .complete ⟨1, 0, false⟩) (.step (a := .loop)
      (.step (a := .loop) (.step (a := .complete ⟨0, -28, true⟩)
        (.step (a := .loop) (.step (a := .loop) .start rfl) rfl) rfl) rfl)
      rfl) rfl, ?_, ?_⟩
    · exact ⟨rfl, rfl⟩
    · rfl
  obtain ⟨s, hs, hfinal, hlog⟩ := hreach
  obtain ⟨hfault, -, hend, -⟩ := slices_end_once (by decide) hs
  refine ⟨s, hs, hfinal, hlog, hfault, ?_⟩
  rw [(hend hfinal).2, hlog]
  rfl

end SliceEnd
