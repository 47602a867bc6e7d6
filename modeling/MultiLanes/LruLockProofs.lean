import MultiLanes.ResumeProofs
import Mathlib.Logic.Function.Basic

/-! # LRU locks — the lock of a lruvec and the list it guards

The patch replaces the lock of a zone by one lock for each lruvec.
`putback_inactive_pages` and `move_active_pages_to_lru` are called with the lock of the
lruvec that was scanned, and both take the lruvec of each page anew, by
`mem_cgroup_page_lruvec`, into the variable that names the lock; the lock that is held
they leave as it is.  A page that was uncharged or moved after it was isolated belongs
to another lruvec, whose list is then changed without its lock, and whose lock is
released without being held.

The state has the locks that are held, the lists, and a record of what was done against
the rules.  The record only grows (`run_keeps_bad`), so one page of another lruvec
spoils a run, and without one the variable never leaves the scanned lruvec: both loops
keep to the rules exactly when no page that they put on a list belongs elsewhere
(`lruDiscipline_iff`). -/

namespace LruLock

open InteractProg Function

/-! ## Pages and lruvecs -/

/-- `struct page_cgroup`: the memory cgroup, and `PageCgroupUsed`. -/
structure PageCgroup where
  memCgroup : Nat
  used : Bool

/-- An isolated page: whether it is evictable, its list by `page_lru`, whether
    the reference that is dropped is the last one, whether it is a compound
    page, and the number of pages that it stands for. -/
structure Page where
  id : Nat
  evictable : Bool
  lru : Nat
  lastRef : Bool
  compound : Bool
  nrPages : Nat

/-- Memory cgroups of one zone; a lruvec is named by a number, its lock too. -/
structure Config where
  disabled : Bool
  zoneLruvec : Nat
  rootMemCgroup : Nat
  zoneinfo : Nat → Nat

/-! ## Requests -/

inductive LruReq where
  /-- `spin_lock_irq(&lruvec->lock)` -/
  | lock (l : Nat)
  | unlock (l : Nat)
  | lookupPageCgroup (page : Nat)
  | setMemCgroup (page memcg : Nat)
  /-- `add_page_to_lru_list` -/
  | add (page l lru : Nat)
  /-- `del_page_from_lru_list` -/
  | del (page l lru : Nat)
  /-- `putback_lru_page`, which takes the locks it needs -/
  | putbackLruPage (page : Nat)
  /-- the destructor of a compound page -/
  | dtor (page : Nat)

@[reducible] def LruReq.Ans : LruReq → Type
  | .lookupPageCgroup _ => PageCgroup
  | _ => Unit

abbrev LruSig : Sig := ⟨LruReq, LruReq.Ans⟩

abbrev LruCode (α : Type) : Type := Prog LruSig α

/-- What is against the rules: a list that is changed without its lock, and a
    lock that is released without being held. -/
inductive Breach
  | add (page l : Nat)
  | del (page l : Nat)
  | unlock (l : Nat)
deriving DecidableEq

/-- The locks that are held, the cgroups of the pages, the lists of each lruvec,
    and the breaches so far. -/
structure Lru where
  held : List Nat
  pc : Nat → PageCgroup
  lists : Nat → Nat → List Nat
  bad : List Breach

def Lru.blame (s : Lru) (ok : Prop) [Decidable ok] (b : Breach) : Lru :=
  if ok then s else { s with bad := s.bad ++ [b] }

def Lru.setList (s : Lru) (l lru : Nat) (pages : List Nat) : Lru :=
  { s with
    lists := update s.lists l (update (s.lists l) lru pages) }

/-- A lock that is held already is waited for in vain. -/
def lruHandler : Handler LruSig Lru
  | .lock l, s =>
    if l ∈ s.held then none else some ((), { s with held := l :: s.held })
  | .unlock l, s =>
    some ((), { s.blame (l ∈ s.held) (.unlock l) with
      held := s.held.erase l })
  | .lookupPageCgroup page, s => some (s.pc page, s)
  | .setMemCgroup page memcg, s =>
    some ((), { s with
      pc := update s.pc page
        { s.pc page with memCgroup := memcg } })
  | .add page l lru, s =>
    some ((), (s.blame (l ∈ s.held) (.add page l)).setList l lru (page :: s.lists l lru))
  | .del page l lru, s =>
    some ((), (s.blame (l ∈ s.held) (.del page l)).setList l lru
      ((s.lists l lru).erase page))
  | .putbackLruPage _, s => some ((), s)
  | .dtor _, s => some ((), s)

def lock (l : Nat) : LruCode Unit := perform (S := LruSig) (.lock l)

def unlock (l : Nat) : LruCode Unit := perform (S := LruSig) (.unlock l)

def lookupPageCgroup (page : Nat) : LruCode PageCgroup :=
  perform (S := LruSig) (.lookupPageCgroup page)

def setMemCgroup (page memcg : Nat) : LruCode Unit :=
  perform (S := LruSig) (.setMemCgroup page memcg)

def addPageToLruList (page l lru : Nat) : LruCode Unit :=
  perform (S := LruSig) (.add page l lru)

def delPageFromLruList (page l lru : Nat) : LruCode Unit :=
  perform (S := LruSig) (.del page l lru)

def putbackLruPage (page : Nat) : LruCode Unit :=
  perform (S := LruSig) (.putbackLruPage page)

def compoundPageDtor (page : Nat) : LruCode Unit :=
  perform (S := LruSig) (.dtor page)

/-! ## The code -/

/-- `mem_cgroup_page_lruvec`, of a page that is on no list: `PageLRU` is not set. -/
def memCgroupPageLruvec (cfg : Config) (page : Nat) : LruCode Nat :=
  if cfg.disabled then return cfg.zoneLruvec
  else do
    let pc ← lookupPageCgroup page
    if pc.used = false ∧ pc.memCgroup ≠ cfg.rootMemCgroup then
      setMemCgroup page cfg.rootMemCgroup
      return cfg.zoneinfo cfg.rootMemCgroup
    else return cfg.zoneinfo pc.memCgroup

/-- `put_page_testzero`, and what both loops do then; the page is returned when
    it is left for the caller to free. -/
def putPage (page : Page) (lruvec lru : Nat) : LruCode (List Nat) := do
  if page.lastRef then
    delPageFromLruList page.id lruvec lru
    if page.compound then
      unlock lruvec
      compoundPageDtor page.id
      lock lruvec
      return []
    else return [page.id]
  else return []

/-- `putback_inactive_pages`.  The pages are given in the order in which the loop takes
    them, from the end of the list; what is returned are the pages to free. -/
def putbackInactivePages (cfg : Config) : Nat → List Page → List Nat → LruCode (List Nat)
  | _, [], pagesToFree => return pagesToFree
  | lruvec, page :: pages, pagesToFree => do
    if page.evictable then
      let lruvec ← memCgroupPageLruvec cfg page.id
      addPageToLruList page.id lruvec page.lru
      let freed ← putPage page lruvec page.lru
      putbackInactivePages cfg lruvec pages (freed ++ pagesToFree)
    else
      unlock lruvec
      putbackLruPage page.id
      lock lruvec
      putbackInactivePages cfg lruvec pages pagesToFree

/-- `move_active_pages_to_lru`; it also returns `pgmoved`. -/
def moveActivePagesToLru (cfg : Config) (lru : Nat) : List Page → List Nat →
    Nat → LruCode (List Nat × Nat)
  | [], pagesToFree, pgmoved => return (pagesToFree, pgmoved)
  | page :: pages, pagesToFree, pgmoved => do
    let lruvec ← memCgroupPageLruvec cfg page.id
    addPageToLruList page.id lruvec lru
    let freed ← putPage page lruvec lru
    moveActivePagesToLru cfg lru pages (freed ++ pagesToFree) (pgmoved + page.nrPages)

/-! ## What is asked of it -/

/-- The loops are entered with the lock of the scanned lruvec and no other. -/
def entered (scanned : Nat) (pc : Nat → PageCgroup)
    (lists : Nat → Nat → List Nat) : Lru := ⟨[scanned], pc, lists, []⟩

/-- The code returns, nothing was against the rules, and the locks are those
    that were held before. -/
def Disciplined {α : Type} (c : LruCode α) (s : Lru) : Prop :=
  ∃ a t, run lruHandler c s = some (a, t) ∧ t.bad = [] ∧ t.held = s.held

/-- The lruvec of a page on no list. -/
def Config.lruvecOf (cfg : Config) (pc : PageCgroup) : Nat :=
  if cfg.disabled then cfg.zoneLruvec
  else if pc.used = false then cfg.zoneinfo cfg.rootMemCgroup
  else cfg.zoneinfo pc.memCgroup

section Loops

variable {α β : Type} {cfg : Config} {scanned lru : Nat} {s t : Lru}
  {page : Page} {pages : List Page} {pagesToFree : List Nat}

/-! ## Breaches -/

theorem blame_pos {ok : Prop} [Decidable ok] (h : ok) (b : Breach) : s.blame ok b = s := if_pos h

theorem blame_bad {ok : Prop} [Decidable ok] (b : Breach) :
    (s.blame ok b).bad = [] ↔ s.bad = [] ∧ ok := by
  unfold Lru.blame
  split
  · next h => simp [h]
  · next h => simp [h]

/-- What was done against the rules stays on the record. -/
theorem step_keeps_bad {q : LruReq} {x : q.Ans}
    (h : lruHandler q s = some (x, t)) (ht : t.bad = []) : s.bad = [] := by
  cases q with
  | lock l =>
    simp only [lruHandler] at h
    split at h
    · cases h
    · cases h
      exact ht
  | unlock l =>
    cases h
    exact ((blame_bad _).mp ht).1
  | add page l lru =>
    cases h
    exact ((blame_bad _).mp ht).1
  | del page l lru =>
    cases h
    exact ((blame_bad _).mp ht).1
  | lookupPageCgroup page =>
    cases h
    exact ht
  | setMemCgroup page memcg =>
    cases h
    exact ht
  | putbackLruPage page =>
    cases h
    exact ht
  | dtor page =>
    cases h
    exact ht

theorem run_keeps_bad {c : LruCode α} {a : α}
    (h : run lruHandler c s = some (a, t)) (ht : t.bad = []) : s.bad = [] :=
  run_induct (R := fun s t : Lru => t.bad = [] → s.bad = []) (fun _ hs => hs)
    (fun h₁ h₂ hu => h₁ (h₂ hu)) (fun hq ht => step_keeps_bad hq ht) h ht

/-- A run that goes on from another state. -/
theorem disciplined_of_run {c : LruCode α} {c' : LruCode α}
    (h : run lruHandler c s = run lruHandler c' t) (hheld : t.held = s.held) :
    Disciplined c s ↔ Disciplined c' t := by
  rw [Disciplined, Disciplined, h, hheld]

/-- A run that goes on from a state with a breach. -/
theorem not_disciplined_of_run {c : LruCode α} (c' : LruCode α)
    (h : run lruHandler c s = run lruHandler c' t) (hbad : t.bad ≠ []) :
    ¬ Disciplined c s := by
  rintro ⟨a, u, hrun, hu, -⟩
  rw [h] at hrun
  exact hbad (run_keeps_bad hrun hu)

/-! ## The lruvec of a page -/

/-- The locks and the record are as they were, and so is the lruvec of every page. -/
structure Same (cfg : Config) (s t : Lru) : Prop where
  held : t.held = s.held
  bad : t.bad = s.bad
  lruvec : ∀ j, cfg.lruvecOf (t.pc j) = cfg.lruvecOf (s.pc j)

theorem Same.trans {u : Lru} (h : Same cfg s t) (h' : Same cfg t u) : Same cfg s u where
  held := h'.held.trans h.held
  bad := h'.bad.trans h.bad
  lruvec j := (h'.lruvec j).trans (h.lruvec j)

/-- The switch to the root cgroup changes nothing for a second look. -/
theorem lruvecOf_switched {pc : PageCgroup} (hu : pc.used = false) (m : Nat) :
    cfg.lruvecOf { pc with memCgroup := m } = cfg.lruvecOf pc := by
  simp [Config.lruvecOf, hu]

theorem run_memCgroupPageLruvec (cfg : Config) (s : Lru) (page : Nat) :
    ∃ t, run lruHandler (memCgroupPageLruvec cfg page) s
        = some (cfg.lruvecOf (s.pc page), t) ∧ Same cfg s t := by
  have hlook : ∀ f : PageCgroup → LruCode Nat, run lruHandler (lookupPageCgroup page >>= f) s
        = run lruHandler (f (s.pc page)) s := fun _ => rfl
  have hself : Same cfg s s := ⟨rfl, rfl, fun _ => rfl⟩
  rw [memCgroupPageLruvec, Config.lruvecOf]
  by_cases hd : cfg.disabled = true
  · rw [if_pos hd, if_pos hd]
    exact ⟨s, rfl, hself⟩
  · rw [if_neg hd, if_neg hd, hlook]
    by_cases hu : (s.pc page).used = false
    · rw [if_pos hu]
      by_cases hm : (s.pc page).memCgroup = cfg.rootMemCgroup
      · rw [if_neg (fun h => h.2 hm), hm]
        exact ⟨s, rfl, hself⟩
      · rw [if_pos ⟨hu, hm⟩]
        refine ⟨_, rfl, rfl, rfl, fun j => ?_⟩
        show cfg.lruvecOf (update s.pc page _ j) = _
        by_cases hj : j = page
        · rw [hj, update_self]
          exact lruvecOf_switched hu _
        · rw [update_of_ne hj]
    · rw [if_neg hu, if_neg (fun h => hu h.1)]
      exact ⟨s, rfl, hself⟩

/-! ## Under the lock of the lruvec -/

/-- A change of a list under its lock. -/
theorem same_setList (cfg : Config) (s : Lru) {l : Nat} (h : l ∈ s.held)
    (b : Breach) (lru : Nat) (ps : List Nat) :
    Same cfg s ((s.blame (l ∈ s.held) b).setList l lru ps) := by
  rw [blame_pos h]
  exact ⟨rfl, rfl, fun _ => rfl⟩

/-- The lock is released for a callback and taken again. -/
theorem run_around (cfg : Config) (h : s.held = [scanned]) {c : LruCode Unit}
    (hc : ∀ s, run lruHandler c s = some ((), s)) (k : LruCode α) :
    ∃ t, run lruHandler (do unlock scanned; c; lock scanned; k) s
        = run lruHandler k t ∧ Same cfg s t := by
  have hmem : scanned ∈ s.held := by rw [h]; exact .head _
  have hunlock : run lruHandler (unlock scanned) s = some ((), { s with held := [] }) := by
    show some ((), { s.blame (scanned ∈ s.held) (.unlock scanned) with
      held := s.held.erase scanned }) = _
    rw [blame_pos hmem, h, List.erase_cons_head]
  have hlock : run lruHandler (lock scanned) { s with held := [] }
      = some ((), { s with held := [scanned] }) := rfl
  refine ⟨{ s with held := [scanned] }, ?_, h.symm, rfl, fun _ => rfl⟩
  rw [run_bind_some hunlock, run_bind_some (hc _), run_bind_some hlock]

/-- The last reference is dropped under the lock. -/
theorem run_putPage (cfg : Config) (page : Page) (lru : Nat) (h : s.held = [scanned]) :
    ∃ freed t, run lruHandler (putPage page scanned lru) s = some (freed, t) ∧ Same cfg s t := by
  have hmem : scanned ∈ s.held := by rw [h]; exact .head _
  rw [putPage]
  cases page.lastRef with
  | false => exact ⟨[], s, rfl, rfl, rfl, fun _ => rfl⟩
  | true =>
    have hdel := same_setList cfg s hmem (.del page.id scanned) lru
      ((s.lists scanned lru).erase page.id)
    cases page.compound with
    | false => exact ⟨[page.id], _, rfl, hdel⟩
    | true =>
      obtain ⟨t, hrun, ht⟩ := run_around cfg (hdel.held.trans h)
        (c := compoundPageDtor page.id) (fun _ => rfl)
        (.ret [] : LruCode (List Nat))
      exact ⟨[], t, hrun, hdel.trans ht⟩

/-- The page is put on a list of another lruvec. -/
theorem run_add_breach (s : Lru) (page lru : Nat) {l : Nat} (h : l ∉ s.held) :
    ∃ t, run lruHandler (addPageToLruList page l lru) s = some ((), t) ∧ t.bad ≠ [] :=
  ⟨_, rfl, fun hbad => h ((blame_bad _).mp hbad).2⟩

/-! ## One page -/

/-- What both loops do with a page that goes to a list: the lruvec it belongs
    to, and what is to be freed. -/
def placePage (cfg : Config) (page : Page) (lru : Nat) : LruCode (Nat × List Nat) := do
  let lruvec ← memCgroupPageLruvec cfg page.id
  addPageToLruList page.id lruvec lru
  let freed ← putPage page lruvec lru
  return (lruvec, freed)

/-- A page of the scanned lruvec. -/
theorem run_placePage (h : s.held = [scanned])
    (hl : cfg.lruvecOf (s.pc page.id) = scanned) (lru : Nat) :
    ∃ freed t, run lruHandler (placePage cfg page lru) s
        = some ((scanned, freed), t) ∧ Same cfg s t := by
  obtain ⟨s₁, hlook, h₁⟩ := run_memCgroupPageLruvec cfg s page.id
  have hmem : scanned ∈ s₁.held := by
    rw [h₁.held, h]
    exact .head _
  have hadd := same_setList cfg s₁ hmem (.add page.id scanned) lru (page.id :: s₁.lists scanned lru)
  obtain ⟨freed, t, hput, ht⟩ :=
    run_putPage cfg page lru (hadd.held.trans (h₁.held.trans h))
  refine ⟨freed, t, ?_, (h₁.trans hadd).trans ht⟩
  rw [placePage, run_bind_some hlook, hl]
  show run lruHandler (putPage page scanned lru >>= _) _ = _
  rw [run_bind_some hput]
  rfl

/-- A page of another lruvec. -/
theorem placePage_breach (h : s.held = [scanned]) (hl : cfg.lruvecOf (s.pc page.id) ≠ scanned)
    (lru : Nat) (k : Nat × List Nat → LruCode α) :
    ¬ Disciplined (placePage cfg page lru >>= k) s := by
  obtain ⟨s₁, hlook, h₁⟩ := run_memCgroupPageLruvec cfg s page.id
  have hnot : cfg.lruvecOf (s.pc page.id) ∉ s₁.held := by
    rw [h₁.held, h]
    intro hm
    exact hl (List.mem_singleton.mp hm)
  obtain ⟨t, hadd, hbad⟩ := run_add_breach s₁ page.id lru hnot
  refine not_disciplined_of_run (do
    let freed ← putPage page (cfg.lruvecOf (s.pc page.id)) lru
    k (cfg.lruvecOf (s.pc page.id), freed)) ?_ hbad
  rw [placePage, bind_bind, run_bind_some hlook, bind_bind, run_bind_some hadd, bind_bind]
  rfl

/-- A loop that goes on after a page of the scanned lruvec does so as before the page. -/
theorem disciplined_placePage_iff {P : Prop} (h : s.held = [scanned])
    (lru : Nat) {k : Nat × List Nat → LruCode α}
    (hk : ∀ freed t, Same cfg s t → (Disciplined (k (scanned, freed)) t ↔ P)) :
    Disciplined (placePage cfg page lru >>= k) s ↔ cfg.lruvecOf (s.pc page.id) = scanned ∧ P := by
  by_cases hl : cfg.lruvecOf (s.pc page.id) = scanned
  · obtain ⟨freed, t, hrun, ht⟩ := run_placePage h hl lru
    rw [disciplined_of_run (run_bind_some hrun) ht.held, hk freed t ht]
    exact (and_iff_right hl).symm
  · constructor
    · intro hd
      exact absurd hd (placePage_breach h hl lru k)
    · rintro ⟨hl', -⟩
      exact absurd hl' hl

/-! ## The loops -/

theorem putbackInactivePages_evictable (he : page.evictable = true) (lruvec : Nat) :
    putbackInactivePages cfg lruvec (page :: pages) pagesToFree =
      (placePage cfg page page.lru >>= fun r =>
        putbackInactivePages cfg r.1 pages (r.2 ++ pagesToFree)) := by
  rw [putbackInactivePages, if_pos he, placePage, bind_bind]
  simp only [bind_bind]
  rfl

theorem moveActivePagesToLru_cons (pgmoved : Nat) :
    moveActivePagesToLru cfg lru (page :: pages) pagesToFree pgmoved =
      (placePage cfg page lru >>= fun r =>
        moveActivePagesToLru cfg lru pages (r.2 ++ pagesToFree) (pgmoved + page.nrPages)) := by
  rw [moveActivePagesToLru, placePage, bind_bind]
  simp only [bind_bind]
  rfl

theorem putback_disciplined_iff (h : s.held = [scanned]) (hb : s.bad = []) :
    Disciplined (putbackInactivePages cfg scanned pages pagesToFree) s ↔
      ∀ page ∈ pages, page.evictable = true → cfg.lruvecOf (s.pc page.id) = scanned := by
  induction pages generalizing s pagesToFree with
  | nil =>
    refine ⟨fun _ => nofun, fun _ => ⟨pagesToFree, s, rfl, hb, rfl⟩⟩
  | cons page pages ih =>
    -- the variable is `scanned` again before the rest of the list
    have hrest : ∀ free t, Same cfg s t →
        (Disciplined (putbackInactivePages cfg scanned pages free) t ↔
          ∀ page ∈ pages, page.evictable = true → cfg.lruvecOf (s.pc page.id) = scanned) := by
      intro free t ht
      rw [ih (ht.held.trans h) (ht.bad.trans hb)]
      simp only [ht.lruvec]
    rw [List.forall_mem_cons]
    cases he : page.evictable with
    | true =>
      rw [putbackInactivePages_evictable he, disciplined_placePage_iff h page.lru
          (fun freed t ht => hrest (freed ++ pagesToFree) t ht)]
      exact and_congr_left fun _ => ⟨fun hl _ => hl, fun hl => hl rfl⟩
    | false =>
      obtain ⟨t, hrun, ht⟩ := run_around cfg h (c := putbackLruPage page.id) (fun _ => rfl)
        (putbackInactivePages cfg scanned pages pagesToFree)
      have hcode : putbackInactivePages cfg scanned (page :: pages) pagesToFree = (do
            unlock scanned
            putbackLruPage page.id
            lock scanned
            putbackInactivePages cfg scanned pages pagesToFree) := by
        rw [putbackInactivePages, he]
        rfl
      rw [hcode, disciplined_of_run hrun ht.held, hrest _ t ht]
      exact (and_iff_right nofun).symm

variable (scanned) in
theorem moveActive_disciplined_iff (h : s.held = [scanned]) (hb : s.bad = []) (pgmoved : Nat) :
    Disciplined (moveActivePagesToLru cfg lru pages pagesToFree pgmoved) s ↔
      ∀ page ∈ pages, cfg.lruvecOf (s.pc page.id) = scanned := by
  induction pages generalizing s pagesToFree pgmoved with
  | nil =>
    refine ⟨fun _ => nofun, fun _ => ⟨(pagesToFree, pgmoved), s, rfl, hb, rfl⟩⟩
  | cons page pages ih =>
    rw [List.forall_mem_cons, moveActivePagesToLru_cons, disciplined_placePage_iff h lru]
    intro freed t ht
    rw [ih (ht.held.trans h) (ht.bad.trans hb)]
    simp only [ht.lruvec]

/-- Entered with the lock of the scanned lruvec, `putback_inactive_pages` keeps
    to the rules exactly when every evictable page of the list belongs to that
    lruvec, and `move_active_pages_to_lru` exactly when every page does. -/
theorem lruDiscipline_iff (cfg : Config) (scanned lru : Nat) (pc : Nat → PageCgroup)
    (lists : Nat → Nat → List Nat) (pages : List Page) (pagesToFree : List Nat) :
    (Disciplined (putbackInactivePages cfg scanned pages []) (entered scanned pc lists) ↔
      ∀ page ∈ pages, page.evictable = true → cfg.lruvecOf (pc page.id) = scanned)
    ∧ (Disciplined (moveActivePagesToLru cfg lru pages pagesToFree 0)
        (entered scanned pc lists) ↔
      ∀ page ∈ pages, cfg.lruvecOf (pc page.id) = scanned) :=
  ⟨putback_disciplined_iff rfl rfl, moveActive_disciplined_iff scanned rfl rfl 0⟩

end Loops

/-! ## A page that was uncharged -/

/-- The root cgroup and others, each with the lruvec of its own number. -/
def cgroups : Config where
  disabled := false
  zoneLruvec := 0
  rootMemCgroup := 0
  zoneinfo memcg := memcg

/-- Page 7 was uncharged after it was isolated from the lruvec of cgroup 1. -/
def uncharged : Page := ⟨7, true, 0, false, false, 1⟩

/-- Page 8 has been locked into memory since then. -/
def pinned : Page := ⟨8, false, 0, false, false, 1⟩

/-- Page 7 goes to the list of the root cgroup, whose lock is not held; for page 8 the lock
    of the root is released, and taken: the loop returns with both locks. -/
theorem lruDiscipline_fails :
    (∃ t, run lruHandler (putbackInactivePages cgroups 1 [uncharged, pinned] [])
          (entered 1 (fun _ => ⟨1, false⟩) fun _ _ => []) = some ([], t)
        ∧ t.bad = [.add 7 0, .unlock 0] ∧ t.held = [0, 1])
      ∧ ¬ Disciplined (putbackInactivePages cgroups 1 [uncharged, pinned] [])
          (entered 1 (fun _ => ⟨1, false⟩) fun _ _ => [])
      ∧ ¬ Disciplined (moveActivePagesToLru cgroups 0 [uncharged] [] 0)
          (entered 1 (fun _ => ⟨1, false⟩) fun _ _ => []) := by
  refine ⟨⟨_, rfl, rfl, rfl⟩, ?_, ?_⟩
  · rw [putback_disciplined_iff rfl rfl]
    intro h
    exact nomatch h uncharged List.mem_cons_self rfl
  · rw [moveActive_disciplined_iff 1 rfl rfl]
    intro h
    exact nomatch h uncharged List.mem_cons_self

end LruLock
