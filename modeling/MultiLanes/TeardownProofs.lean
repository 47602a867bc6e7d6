import MultiLanes.LoopThreadProofs
import MultiLanes.RelyProofs

/-! # Teardown of a loop device — requesters, thread and `loop_clr_fd`

`loop_clr_fd` puts the device into `Lo_rundown`, stops the translation thread, and takes
the backing file away.  The comment above `loop_thread` says that no request is placed
once the device is in rundown, so that the thread may leave when its list is empty.
`loop_make_request` does not look at `lo_state`: it runs `redirect_bio` on every bio
that arrives.

A lane here is a device with any number of requesters, each in its own place of
`redirect_bio`, the thread at a line of its loop or in `serveCio`, and a `loop_clr_fd`
call; a step is one of them moving.  Requests are safe as long as nobody is inside
`loop_make_request` when the thread is told to stop and nobody comes after `Lo_rundown`
(`sound_of_quiet`); otherwise they can be lost (`late_bio_lost`). -/

namespace LoopTeardown

open InteractProg LoopBio LoopRedirect LoopThread Relation List

/-- `lo_state`. -/
inductive LoState
  | unbound
  | bound
  | rundown
deriving DecidableEq, Repr

/-- Where a requester is. -/
inductive Phase
  | out
  /-- in `redirect_bio`, with the rest of its code -/
  | runs (p : Prog LoopSig Unit)
  /-- in `wait_for_completion(&cio->allocated)` -/
  | waits (q : LoopReq) (k : q.Ans → Prog LoopSig Unit)
  /-- its bio was failed at once -/
  | failed
  /-- it has dereferenced a null `lo_backing_file` -/
  | oops

/-- The requester waits for a completion. -/
def Phase.Waits (φ : Phase) : Prop := ∃ q k, φ = .waits q k

/-- The lines of `loop_thread`. -/
inductive ThreadPc
  /-- at the condition of the loop -/
  | top
  /-- in `wait_event_interruptible_exclusive` -/
  | waiting
  /-- after the wait -/
  | woken
  /-- with a request taken off the list, completed or not, and the rest of its service -/
  | serving (i : Nat) (completed : Bool) (p : Prog ThreadSig Unit)
  | returned

/-- The lines of `loop_clr_fd`. -/
inductive ClrPc
  | idle
  /-- `Lo_rundown` is set -/
  | rundown
  /-- in `kthread_stop` -/
  | stopping
  /-- the thread has returned -/
  | stopped
  /-- `lo_backing_file` is null -/
  | cleared
  | done
deriving DecidableEq

/-- A device and those who use it; `backing` is `lo_backing_file != NULL`, `cioList` has the
    requesters whose requests are on `lo_cio_list`, and `cio` the `cio_req` of each. -/
structure Lane where
  loState : LoState
  loRefcnt : Nat
  backing : Bool
  cioList : List Nat
  cio : Nat → CioReq
  shouldStop : Bool
  thread : ThreadPc
  clr : ClrPc
  who : Nat → Phase

def Lane.put (s : Lane) (i : Nat) (φ : Phase) : Lane :=
  { s with who := Function.update s.who i φ }

/-- A bound device at rest. -/
def Lane.start (refcnt : Nat) : Lane where
  loState := .bound
  loRefcnt := refcnt
  backing := true
  cioList := []
  cio _ := flushCio 0 ⟨false, false, false⟩
  shouldStop := false
  thread := .top
  clr := .idle
  who _ := .out

/-- The translation service of a device: what `redirect_bio` and `loop_thread` are run
    with, and what the thread may be answered, by whether it has completed the request it
    serves. -/
structure Service where
  bd : Nat
  prefetchBlocks : Int
  blkbits : Nat
  fuel : Nat
  answers : Bool → (q : ThreadReq) → q.Ans → Prop

/-- Who moves: a bio arrives, a requester goes on, the thread, `loop_clr_fd`. -/
inductive Mover
  | arrive (i : Nat)
  | requester (i : Nat)
  | thread
  | clrFd

/-- The steps. -/
inductive Step (v : Service) : Mover → Lane → Lane → Prop
  -- loop_make_request: lo_backing_file is read without a look at lo_state
  | arrive {s : Lane} {i : Nat} (old : Bio) (hout : s.who i = .out)
      (hb : s.backing = true) :
      Step v (.arrive i) s (s.put i (.runs (redirectBio v.bd v.blkbits old)))
  | arriveNull {s : Lane} {i : Nat} (hout : s.who i = .out)
      (hb : s.backing = false) : Step v (.arrive i) s (s.put i .oops)
  | answer {s : Lane} {i : Nat} {q : LoopReq} {k : q.Ans → Prog LoopSig Unit}
      (x : q.Ans) (hq : requestCio v.prefetchBlocks (s.cio i).blkLocal q = none)
      (hi : s.who i = .runs (.ask (S := LoopSig) q k)) :
      Step v (.requester i) s (s.put i (.runs (k x)))
  -- the cio_req is filled in; list_add_tail, wake_up and the wait
  | enqueue {s : Lane} {i : Nat} {q : LoopReq} {k : q.Ans → Prog LoopSig Unit} {cio : CioReq}
      (hq : requestCio v.prefetchBlocks (s.cio i).blkLocal q = some cio)
      (hi : s.who i = .runs (.ask (S := LoopSig) q k)) :
      Step v (.requester i) s { s.put i (.waits q k) with
        cio := Function.update s.cio i cio, cioList := s.cioList ++ [i] }
  | leave {s : Lane} {i : Nat} (hi : s.who i = .runs (.ret ())) :
      Step v (.requester i) s (s.put i .out)
  -- while (!kthread_should_stop() || !list_empty(..))
  | enter {s : Lane} (ht : s.thread = .top) (hc : s.shouldStop = false ∨ s.cioList ≠ []) :
      Step v .thread s { s with thread := .waiting }
  | exit {s : Lane} (ht : s.thread = .top) (hstop : s.shouldStop = true)
      (hl : s.cioList = []) :
      Step v .thread s { s with thread := .returned }
  | wake {s : Lane} (ht : s.thread = .waiting) (hc : s.cioList ≠ [] ∨ s.shouldStop = true) :
      Step v .thread s { s with thread := .woken }
  | again {s : Lane} (ht : s.thread = .woken) (hl : s.cioList = []) :
      Step v .thread s { s with thread := .top }
  | take {s : Lane} {i : Nat} {l : List Nat} (ht : s.thread = .woken)
      (hl : s.cioList = i :: l) :
      Step v .thread s { s with
        cioList := l
        thread := .serving i false (serveCio v.prefetchBlocks v.blkbits v.fuel (s.cio i)) }
  | serve {s : Lane} {i : Nat} {c : Bool} {r : ThreadReq} {f : r.Ans → Prog ThreadSig Unit}
      (x : r.Ans) (hr : isComplete r = false) (hx : v.answers c r x)
      (ht : s.thread = .serving i c (.ask (S := ThreadSig) r f)) :
      Step v .thread s { s with thread := .serving i c (f x) }
  | complete {s : Lane} {i : Nat} {c : Bool} {f : Unit → Prog ThreadSig Unit} {q : LoopReq}
      {k : q.Ans → Prog LoopSig Unit} (x : q.Ans)
      (ht : s.thread = .serving i c (.ask (S := ThreadSig) .complete f))
      (hi : s.who i = .waits q k) :
      Step v .thread s { s.put i (.runs (k x)) with thread := .serving i true (f ()) }
  -- a completion that nobody waits for
  | completeAgain {s : Lane} {i : Nat} {c : Bool} {f : Unit → Prog ThreadSig Unit}
      (ht : s.thread = .serving i c (.ask (S := ThreadSig) .complete f))
      (hi : ¬ (s.who i).Waits) :
      Step v .thread s { s with thread := .serving i true (f ()) }
  | served {s : Lane} {i : Nat} {c : Bool} (ht : s.thread = .serving i c (.ret ())) :
      Step v .thread s { s with thread := .top }
  -- loop_clr_fd past its checks
  | rundown {s : Lane} (hc : s.clr = .idle) (hs : s.loState = .bound)
      (href : s.loRefcnt ≤ 1) (hb : s.backing = true) :
      Step v .clrFd s { s with loState := .rundown, clr := .rundown }
  | kthreadStop {s : Lane} (hc : s.clr = .rundown) :
      Step v .clrFd s { s with shouldStop := true, clr := .stopping }
  | joined {s : Lane} (hc : s.clr = .stopping) (ht : s.thread = .returned) :
      Step v .clrFd s { s with clr := .stopped }
  | clear {s : Lane} (hc : s.clr = .stopped) :
      Step v .clrFd s { s with backing := false, clr := .cleared }
  | unbind {s : Lane} (hc : s.clr = .cleared) :
      Step v .clrFd s { s with loState := .unbound, clr := .done }

/-- A requester is inside `loop_make_request`. -/
def Phase.Inside : Phase → Prop
  | .runs _ => True
  | .waits _ _ => True
  | .oops => True
  | _ => False

/-- No request is on the list of a thread that has returned, and `redirect_bio`
    does not run without a backing file. -/
structure Sound (s : Lane) : Prop where
  noneLost : s.thread = .returned → s.cioList = []
  hasFile : s.backing = false → ∀ i, ¬ (s.who i).Inside

/-- A bio that arrives when the device is not bound is failed. -/
def FailsLate (m : Mover) (s t : Lane) : Prop :=
  ∀ i, m = .arrive i → s.loState ≠ .bound → t.who i = .failed

/-- Nobody comes after `Lo_rundown`, and nobody is inside when the thread is told to stop. -/
def Quiet (m : Mover) (s : Lane) : Prop :=
  (∀ i, m = .arrive i → s.loState = .bound) ∧
    (m = .clrFd → s.clr = .rundown → ∀ i, ¬ (s.who i).Inside)

/-- A step of a quiet run. -/
def QuietStep (v : Service) (s t : Lane) : Prop :=
  ∃ m, Quiet m s ∧ Step v m s t

/-! ## Quiet runs -/

/-- How far the teardown is. -/
structure Order (s : Lane) : Prop where
  /-- once the thread is told to stop, the device is not bound and nobody is
      inside -/
  stopped : s.shouldStop = true → s.loState ≠ .bound ∧ ∀ i, ¬ (s.who i).Inside
  returned : s.thread = .returned → s.shouldStop = true
  /-- the thread returns when its list is empty -/
  left : s.thread = .returned → s.cioList = []
  begun : s.clr ≠ .idle → s.loState ≠ .bound
  told : s.clr ≠ .idle → s.clr ≠ .rundown → s.shouldStop = true
  file : s.backing = false → s.shouldStop = true

theorem Order.start (refcnt : Nat) : Order (.start refcnt) where
  stopped := nofun
  returned := nofun
  left := nofun
  begun h := absurd rfl h
  told h := absurd rfl h
  file := nofun

section Runs

variable {v : Service} {m : Mover} {s t : Lane} {i j : Nat}

theorem put_who {φ : Phase} : (s.put i φ).who j = if j = i then φ else s.who j :=
  Function.update_apply s.who i φ j

/-- As long as the thread has not been told to stop, requesters may move. -/
theorem Order.put (h : Order s) (i : Nat) (φ : Phase)
    (hstop : s.shouldStop = false) : Order (s.put i φ) where
  stopped hs := nomatch hs.symm.trans hstop
  returned := h.returned
  left := h.left
  begun := h.begun
  told := h.told
  file := h.file

/-- Someone is inside: the thread has not been told to stop. -/
theorem Order.running (h : Order s) (hi : (s.who i).Inside) : s.shouldStop = false := by
  cases hs : s.shouldStop with
  | false => rfl
  | true => exact absurd hi ((h.stopped hs).2 i)

/-- The thread moves on, and does not return. -/
theorem Order.thread (h : Order s) {pc : ThreadPc} (hpc : pc ≠ .returned) {l : List Nat} :
    Order { s with cioList := l, thread := pc } :=
  ⟨h.stopped, fun h' => absurd h' hpc, fun h' => absurd h' hpc, h.begun, h.told, h.file⟩

theorem Order.step (hstep : Step v m s t) (hq : Quiet m s) (h : Order s) : Order t := by
  -- a bio that arrives finds the device bound, so nobody has said stop
  have hbound : s.loState = .bound → s.shouldStop = false := by
    intro hb
    cases hs : s.shouldStop with
    | false => rfl
    | true => exact absurd hb (h.stopped hs).1
  have hinside : ∀ {i φ}, s.who i = φ → φ.Inside → s.shouldStop = false :=
    fun hi hφ => h.running (hi ▸ hφ)
  cases hstep with
  | arrive old ho hb => exact h.put _ _ (hbound (hq.1 _ rfl))
  | arriveNull ho hb => exact h.put _ _ (hbound (hq.1 _ rfl))
  | answer x hqd hi => exact h.put _ _ (hinside hi trivial)
  | @enqueue _ i q k cio hqd hi =>
    have hstop := hinside hi trivial
    have hp := h.put i (.waits q k) hstop
    exact ⟨hp.stopped, hp.returned, fun h' => (nomatch (hp.returned h').symm.trans hstop),
      hp.begun, hp.told, hp.file⟩
  | leave hi => exact h.put _ _ (hinside hi trivial)
  | complete x ht hi => exact (h.put _ _ (hinside hi trivial)).thread (by nofun)
  | exit ht hs hl => exact ⟨h.stopped, fun _ => hs, fun _ => hl, h.begun, h.told, h.file⟩
  | enter | wake | again | take | serve | completeAgain | served => exact h.thread (by nofun)
  | rundown hc hs href hb =>
    exact ⟨fun h' => ⟨nofun, (h.stopped h').2⟩, h.returned, h.left, fun _ => nofun,
      fun _ hr => absurd rfl hr, h.file⟩
  | kthreadStop hc =>
    have hnone := hq.2 rfl hc
    have hnb : s.loState ≠ .bound := h.begun (by rw [hc]; exact nofun)
    exact ⟨fun _ => ⟨hnb, hnone⟩, fun _ => rfl, h.left, fun _ => hnb, fun _ _ => rfl,
      fun _ => rfl⟩
  | joined hc ht =>
    have hs := h.told (by rw [hc]; exact nofun) (by rw [hc]; exact nofun)
    exact ⟨h.stopped, h.returned, h.left, fun _ => (h.stopped hs).1, fun _ _ => hs, h.file⟩
  | clear hc =>
    have hs := h.told (by rw [hc]; exact nofun) (by rw [hc]; exact nofun)
    exact ⟨h.stopped, h.returned, h.left, fun _ => (h.stopped hs).1, fun _ _ => hs, fun _ => hs⟩
  | unbind hc =>
    have hs := h.told (by rw [hc]; exact nofun) (by rw [hc]; exact nofun)
    exact ⟨fun h' => ⟨nofun, (h.stopped h').2⟩, h.returned, h.left, fun _ => nofun,
      fun _ _ => hs, h.file⟩

/-- When nobody is inside at the stop and nobody comes after `Lo_rundown`, in
    whatever order the others move and whatever the thread does with the requests it has
    taken: no request is left behind by the thread, no bio is redirected without a backing
    file, and none arrives late. -/
theorem sound_of_quiet {refcnt : Nat} (h : ReflTransGen (QuietStep v) (.start refcnt) s) :
    Sound s ∧ ∀ m t, Quiet m s → Step v m s t → FailsLate m s t := by
  have ho : Order s := by
    induction h with
    | refl => exact .start refcnt
    | tail _ hstep ih =>
      obtain ⟨m, hq, hs⟩ := hstep
      exact ih.step hs hq
  refine ⟨⟨ho.left, fun hb => (ho.stopped (ho.file hb)).2⟩, ?_⟩
  intro m t hquiet _ i hm hlate
  exact absurd (hquiet.1 i hm) hlate

end Runs

/-- `get_block` does not fail. -/
def neverFails : Bool → (q : ThreadReq) → q.Ans → Prop
  | _, .getBlock _ _ _, bh => BhResult.ret bh = 0
  | _, _, _ => True

/-- A device that prefetches one block of 4096 bytes. -/
def oneBlock : Service := ⟨0, 1, 12, 1, neverFails⟩

/-- A read of one sector. -/
def readSector : Bio := sectorBio false 0

/-- Whatever requesters and the thread do is quiet. -/
theorem quiet_of_move {s t : Lane} {m : Mover} (h : Step oneBlock m s t)
    (hm : ∀ i, m ≠ .arrive i) (hc : m = .clrFd → s.clr ≠ .rundown) : QuietStep oneBlock s t :=
  ⟨m, ⟨fun i hi => absurd hi (hm i), fun hclr hr => absurd hr (hc hclr)⟩, h⟩

/-- A bio comes, its block is found in the cache, it is submitted; then the device is torn
    down. -/
theorem tornDown_quiet : ∃ s, ReflTransGen (QuietStep oneBlock) (.start 1) s ∧ s.clr = .done
    ∧ s.cio 0 = translationCio 1 0 ⟨false, false, false⟩ := by
  have requester {s t} {φ : Lane → Prop} (h : Step oneBlock (.requester 0) s t) :
      (∃ u, ReflTransGen (QuietStep oneBlock) t u ∧ φ u) →
        ∃ u, ReflTransGen (QuietStep oneBlock) s u ∧ φ u :=
    after_step (quiet_of_move h nofun nofun)
  have thread {s t} {φ : Lane → Prop} (h : Step oneBlock .thread s t) :
      (∃ u, ReflTransGen (QuietStep oneBlock) t u ∧ φ u) →
        ∃ u, ReflTransGen (QuietStep oneBlock) s u ∧ φ u :=
    after_step (quiet_of_move h nofun nofun)
  refine after_step ⟨.arrive 0, ⟨fun _ _ => rfl, nofun⟩, .arrive readSector rfl rfl⟩ ?_
  refine requester (.answer (q := .touch) () rfl rfl) ?_
  refine requester (.answer (q := .touch) () rfl rfl) ?_
  refine requester (.answer (q := .touch) () rfl rfl) ?_
  refine requester (.answer (q := .cacheLookup 0) (0 : Nat) rfl rfl) ?_
  refine requester (.answer (q := .touch) () rfl rfl) ?_
  refine requester (.enqueue (q := .cioRequest 0 _) rfl rfl) ?_
  refine thread (.enter rfl (.inl rfl)) ?_
  refine thread (.wake rfl (.inl nofun)) ?_
  refine thread (.take rfl rfl) ?_
  refine thread (.serve (r := .findCacheNode 0) (some 5) rfl trivial rfl) ?_
  refine thread (.serve (r := .storeError 0) () rfl trivial rfl) ?_
  refine thread (.serve (r := .storePhys 5) () rfl trivial rfl) ?_
  refine thread (.complete (q := .cioRequest 0 _) ⟨0, 5⟩ rfl rfl) ?_
  refine thread (.served rfl) ?_
  refine requester (.answer (q := .touch) () rfl rfl) ?_
  refine requester (.answer (q := .bioAlloc _) true rfl rfl) ?_
  refine requester (.answer (q := .touch) () rfl rfl) ?_
  refine requester (.answer (q := .addPage _ _ _ _) (512, readSector) rfl rfl) ?_
  refine requester (.answer (q := .touch) () rfl rfl) ?_
  refine requester (.answer (q := .touch) () rfl rfl) ?_
  refine requester (.answer (q := .submit _ _) () rfl rfl) ?_
  refine requester (.leave rfl) ?_
  refine after_step (quiet_of_move (.rundown rfl rfl (le_refl 1) rfl) nofun nofun) ?_
  refine after_step ⟨.clrFd, ⟨nofun, fun _ _ i => ?_⟩, .kthreadStop rfl⟩ ?_
  · by_cases hi : i = 0
    · subst hi
      exact id
    · simp only [put_who, if_neg hi]
      exact id
  refine thread (.exit rfl rfl rfl) ?_
  refine after_step (quiet_of_move (.joined rfl rfl) nofun nofun) ?_
  refine after_step (quiet_of_move (.clear rfl) nofun nofun) ?_
  exact ⟨_, .single (quiet_of_move (.unbind rfl) nofun nofun), rfl, rfl⟩

theorem tornDown_sound : ∃ s : Lane, s.clr = .done
    ∧ s.cio 0 = translationCio 1 0 ⟨false, false, false⟩ ∧ Sound s := by
  obtain ⟨s, h, hdone, hcio⟩ := tornDown_quiet
  exact ⟨s, hdone, hcio, (sound_of_quiet h).1⟩

/-- Any step. -/
def AnyStep (s t : Lane) : Prop := ∃ m, Step oneBlock m s t

/-- A read of one sector comes to wait for the thread. -/
theorem readSector_enqueued (s : Lane) :
    ∃ t, ReflTransGen AnyStep (s.put 0 (.runs (redirectBio 0 12 readSector))) t
      ∧ t.cioList = s.cioList ++ [0] ∧ t.thread = s.thread ∧ t.clr = s.clr := by
  refine after_step ⟨.requester 0, .answer (q := .touch) () rfl rfl⟩ ?_
  refine after_step ⟨.requester 0, .answer (q := .touch) () rfl rfl⟩ ?_
  refine after_step ⟨.requester 0, .answer (q := .touch) () rfl rfl⟩ ?_
  refine after_step ⟨.requester 0, .answer (q := .cacheLookup 0) (0 : Nat) rfl rfl⟩ ?_
  refine after_step ⟨.requester 0, .answer (q := .touch) () rfl rfl⟩ ?_
  refine ⟨_, .single ⟨.requester 0, .enqueue (q := .cioRequest 0 _) rfl rfl⟩, ?_⟩
  simp only [Lane.put, and_self]

/-- An idle device in `Lo_rundown`, after the thread has returned. -/
def stoppedLane : Lane :=
  { Lane.start 1 with
    loState := .rundown
    shouldStop := true
    thread := .returned
    clr := .stopping }

/-- A bio that arrives in `Lo_rundown`, after the thread has returned: it is not failed, its
    request stays on the list, and the backing file is taken away under it. -/
theorem late_bio_lost : ReflTransGen AnyStep (.start 1) stoppedLane ∧
    ∃ t, Step oneBlock (.arrive 0) stoppedLane t ∧ ¬ FailsLate (.arrive 0) stoppedLane t ∧
      ∃ u, ReflTransGen AnyStep t u ∧ u.thread = .returned ∧ u.cioList = [0] ∧
        u.backing = false ∧ ¬ Sound u := by
  constructor
  · refine .head ⟨.clrFd, .rundown rfl rfl (Nat.le_refl 1) rfl⟩ ?_
    refine .head ⟨.clrFd, .kthreadStop rfl⟩ ?_
    exact .single ⟨.thread, .exit rfl rfl rfl⟩
  · refine ⟨_, .arrive readSector rfl rfl, ?_, ?_⟩
    · intro h
      exact nomatch (h 0 rfl nofun : Phase.runs _ = .failed)
    · obtain ⟨t, ht, hl, hthread, hclr⟩ := readSector_enqueued stoppedLane
      refine ⟨{ t with backing := false, clr := .cleared }, ?_, hthread, hl, rfl, fun h => ?_⟩
      · refine ht.trans ?_
        refine .head ⟨.clrFd, .joined hclr hthread⟩ ?_
        exact .single ⟨.clrFd, .clear rfl⟩
      · exact nomatch (h.noneLost hthread).symm.trans hl

end LoopTeardown
