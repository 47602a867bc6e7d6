import Mathlib.Data.List.Basic
import Mathlib.Logic.Function.Basic
import Mathlib.Algebra.Ring.Nat

/-! # Mount options — the partitions of a mount and what is placed on them

`sfs_opts_parse` takes the partitions from the option string, one for each component up
to the first empty one.  The slots of the root are allocated before, 64 of them, and the
maps of normal directories have 64 bits; nothing compares the number of components with
64 or with 0.

First the arithmetic of the placements that come later: with a count from 1 to 64 no
sequence of them divides by zero or shifts too far, and with any other count one does
(`noTrap_iff`).  Then the parser: what `strsep` cuts off is a list of components
(`optsLoop_eq`), the roots that are stored after each of them have a closed form
(`Loop.of`), and so the parse is safe exactly when the loop ends in time
(`parseSafe_iff`). -/

namespace SfsMount

open Function List

/-! ## The placements -/

/-- How a placement can fail to return: a division by zero, a shift of a 64-bit
    number by 64 or more, or a loop that does not end. -/
inductive Stop
  | divide
  | shift
  | spin
deriving DecidableEq

def testBitmap (bitmap : BitVec 64) (shift : Nat) : Except Stop Bool :=
  if shift < 64 then .ok (bitmap.getLsbD shift) else .error .shift

/-- `a % count` -/
def modulo (a count : Nat) : Except Stop Nat :=
  if count = 0 then .error .divide else .ok (a % count)

/-- What placements read of a `struct sfs_dentry`. -/
structure SfsDentry where
  normalDirCount : Nat
  normalDirMap : BitVec 64
  localCounter : Nat

/-- `dispatch`, with the value of `last_dispatch` before and after.  The counter
    is read as an `unsigned int`. -/
def dispatch (count last : Nat) : Except Stop (Nat × Nat) :=
  if count = 1 then .ok (0, last)
  else do
    let replicaId := (last + 1) % 2 ^ 32
    let last := if replicaId > 1024 then 0 else replicaId
    let ret ← modulo ((replicaId + (2 ^ 32 - 1)) % 2 ^ 32) count
    return (ret, last)

/-- `do ret = dispatch(); while(test_bitmap(map, ret));` -/
def dispatchFree (count : Nat) (map : BitVec 64) : Nat → Nat → Except Stop (Nat × Nat)
  | 0, _ => .error .spin
  | fuel + 1, last => do
    let r ← dispatch count last
    let taken ← testBitmap map r.1
    if taken then dispatchFree count map fuel r.2 else return r

/-- `while(!test_bitmap(map, local_counter))`: the counter goes round. -/
def nextNormal (count : Nat) (map : BitVec 64) : Nat → Nat → Except Stop Nat
  | 0, _ => .error .spin
  | fuel + 1, c => do
    let normal ← testBitmap map c
    if normal then return c
    else
      let c ← modulo (c + 1) count
      nextNormal count map fuel c

/-- The loop over `local_counter`, and the counter one further. -/
def takeNormal (count fuel : Nat) (d : SfsDentry) : Except Stop (Nat × SfsDentry) := do
  let ret ← nextNormal count d.normalDirMap fuel d.localCounter
  let next ← modulo (ret + 1) count
  return (ret, { d with localCounter := next })

def selectNormalDirRr (count fuel : Nat) (d : SfsDentry) : Except Stop (Option Nat × SfsDentry) :=
  if d.normalDirCount = 0 then .ok (none, d)
  else do
    let r ← takeNormal count fuel d
    return (some r.1, r.2)

/-- `local_dispatch`, with `SPAN_THRESHOLD` 20. -/
def localDispatch (count fuel : Nat) (d : SfsDentry) (last : Nat) :
    Except Stop (Nat × SfsDentry × Nat) :=
  if d.normalDirCount < min 20 count then do
    let r ← dispatchFree count d.normalDirMap fuel last
    return (r.1, d, r.2)
  else do
    let r ← takeNormal count fuel d
    return (r.1, r.2, last)

/-- A mounted SFS, as far as it places things. -/
structure Placing where
  last : Nat
  dentry : Nat → SfsDentry

/-- What happens to it: placements, normal directories that come up or go, and
    dentries that are allocated or cleaned. -/
inductive Call
  | dispatch
  | localDispatch (i : Nat)
  | selectNormalDirRr (i : Nat)
  | mark (i normalDirCount : Nat) (normalDirMap : BitVec 64)
  | clean (i : Nat)

def Placing.put (s : Placing) (i : Nat) (d : SfsDentry) : Placing :=
  { s with dentry := update s.dentry i d }

def Call.exec (count fuel : Nat) : Call → Placing → Except Stop Placing
  | .dispatch, s => do
    let r ← SfsMount.dispatch count s.last
    return { s with last := r.2 }
  | .localDispatch i, s => do
    let r ← SfsMount.localDispatch count fuel (s.dentry i) s.last
    return { s.put i r.2.1 with last := r.2.2 }
  | .selectNormalDirRr i, s => do
    let r ← SfsMount.selectNormalDirRr count fuel (s.dentry i)
    return s.put i r.2
  | .mark i n map, s =>
    .ok (s.put i { s.dentry i with normalDirCount := n, normalDirMap := map })
  | .clean i, s => .ok (s.put i ⟨0, 0, 0⟩)

def placements (count fuel : Nat) : List Call → Placing → Except Stop Placing
  | [], s => .ok s
  | c :: cs, s => do
    let s ← c.exec count fuel s
    placements count fuel cs s

/-- No placement on a new mount, among any others, divides by zero or shifts too
    far; `fuel` bounds the rounds of a loop. -/
def NoTrap (count : Nat) : Prop :=
  ∀ fuel calls s e, (∀ i, (s.dentry i).localCounter = 0) →
    placements count fuel calls s = .error e → e = .spin

/-- The code returns a value as `Q` says, or it does not end. -/
def Gives {α : Type} (r : Except Stop α) (Q : α → Prop) : Prop :=
  match r with
  | .ok a => Q a
  | .error e => e = .spin

section Arithmetic

variable {α β : Type} {count fuel : Nat}

theorem Gives.bind {r : Except Stop α} {f : α → Except Stop β} {Q : α → Prop}
    {R : β → Prop} (hr : Gives r Q) (hf : ∀ a, Q a → Gives (f a) R) :
    Gives (r >>= f) R := by
  cases r with
  | error e => exact hr
  | ok a => exact hf a hr

theorem gives_testBitmap {shift : Nat} (h : shift < 64) (map : BitVec 64) :
    Gives (testBitmap map shift) (fun _ => True) := by
  rw [testBitmap, if_pos h]
  trivial

theorem gives_modulo (h : 0 < count) (a : Nat) : Gives (modulo a count) (fun r => r < count) := by
  rw [modulo, if_neg (ne_of_gt h)]
  exact Nat.mod_lt a h

theorem gives_dispatch (h : 0 < count) (last : Nat) :
    Gives (dispatch count last) (fun r => r.1 < count) := by
  rw [dispatch]
  split
  · exact h
  · exact (gives_modulo h _).bind fun r hr => hr

theorem gives_dispatchFree (h : 0 < count) (h64 : count ≤ 64) (map : BitVec 64) (fuel last : Nat) :
    Gives (dispatchFree count map fuel last) (fun _ => True) := by
  induction fuel generalizing last with
  | zero => exact rfl
  | succ fuel ih =>
    refine (gives_dispatch h last).bind fun r hr => ?_
    refine (gives_testBitmap (lt_of_lt_of_le hr h64) map).bind ?_
    intro taken _
    cases taken with
    | true => exact ih r.2
    | false => trivial

theorem gives_nextNormal (h : 0 < count) (h64 : count ≤ 64)
    (map : BitVec 64) (fuel : Nat) {c : Nat} (hc : c < count) :
    Gives (nextNormal count map fuel c) (fun r => r < count) := by
  induction fuel generalizing c with
  | zero => exact rfl
  | succ fuel ih =>
    refine (gives_testBitmap (lt_of_lt_of_le hc h64) map).bind ?_
    intro normal _
    cases normal with
    | true => exact hc
    | false => exact (gives_modulo h _).bind fun r hr => ih hr

theorem gives_takeNormal (h : 0 < count) (h64 : count ≤ 64) (fuel : Nat)
    {d : SfsDentry} (hd : d.localCounter < count) :
    Gives (takeNormal count fuel d) (fun r => r.2.localCounter < count) :=
  (gives_nextNormal h h64 d.normalDirMap fuel hd).bind fun _ _ =>
    (gives_modulo h _).bind fun _ hnext => hnext

/-- The local counters name partitions. -/
def Placing.Counts (s : Placing) (count : Nat) : Prop :=
  ∀ i, (s.dentry i).localCounter < count

theorem Placing.Counts.put {s : Placing} {d : SfsDentry} {i : Nat}
    (hs : s.Counts count) (hd : d.localCounter < count) :
    (s.put i d).Counts count := by
  intro j
  show (update s.dentry i d j).localCounter < count
  by_cases hj : j = i
  · rw [hj, update_self]
    exact hd
  · rw [update_of_ne hj]
    exact hs j

/-- One call keeps the counters below the count. -/
theorem gives_exec (h : 0 < count) (h64 : count ≤ 64) (fuel : Nat)
    {s : Placing} (hs : s.Counts count) (c : Call) :
    Gives (c.exec count fuel s) (fun t => t.Counts count) := by
  cases c with
  | dispatch => exact (gives_dispatch h s.last).bind fun _ _ => hs
  | localDispatch i =>
    rw [Call.exec, localDispatch]
    split
    · refine Gives.bind (Q := fun r => r.2.1 = s.dentry i) ?_ ?_
      · exact (gives_dispatchFree h h64 _ fuel s.last).bind fun _ _ => rfl
      · rintro ⟨r, d, l⟩ rfl
        exact hs.put (hs i)
    · refine Gives.bind (Q := fun r => r.2.1.localCounter < count) ?_ ?_
      · exact (gives_takeNormal h h64 fuel (hs i)).bind fun _ hr => hr
      · intro r hr
        exact hs.put hr
  | selectNormalDirRr i =>
    rw [Call.exec, selectNormalDirRr]
    split
    · exact hs.put (hs i)
    · refine Gives.bind (Q := fun r => r.2.localCounter < count) ?_ ?_
      · exact (gives_takeNormal h h64 fuel (hs i)).bind fun _ hr => hr
      · intro r hr
        exact hs.put hr
  | mark i n map => exact hs.put (hs i)
  | clean i => exact hs.put h

theorem gives_placements (h : 0 < count) (h64 : count ≤ 64) (fuel : Nat)
    (calls : List Call) {s : Placing} (hs : s.Counts count) :
    Gives (placements count fuel calls s) (fun t => t.Counts count) := by
  induction calls generalizing s with
  | nil => exact hs
  | cons c cs ih => exact (gives_exec h h64 fuel hs c).bind fun t ht => ih ht

/-- The counts a mount may have. -/
theorem noTrap_iff : NoTrap count ↔ 0 < count ∧ count ≤ 64 := by
  constructor
  · intro hno
    constructor
    · -- without partitions the first `dispatch` divides by zero
      refine Nat.pos_of_ne_zero fun h0 => ?_
      subst h0
      exact nomatch hno 0 [.dispatch] ⟨0, fun _ => ⟨0, 0, 0⟩⟩ .divide (fun _ => rfl) rfl
    · -- the 65th partition is asked for in a map of 64 bits
      by_contra h64
      refine absurd (hno 1 [.localDispatch 0] ⟨64, fun _ => ⟨0, 0, 0⟩⟩ .shift
        (fun _ => rfl) ?_) nofun
      have hne : count ≠ 1 := by omega
      have h0 : count ≠ 0 := by omega
      have hmod : 64 % count = 64 := Nat.mod_eq_of_lt (by omega)
      have hmin : 0 < min 20 count := by omega
      simp [placements, Call.exec, localDispatch, hmin, dispatchFree, dispatch,
        hne, modulo, h0, hmod, testBitmap, bind, Except.bind, pure, Except.pure]
  · rintro ⟨h, h64⟩ fuel calls s e hs he
    have hg := gives_placements h h64 fuel calls (s := s) (fun i => by rw [hs i]; exact h)
    rw [he] at hg
    exact hg

end Arithmetic

/-! ## The parser -/

/-- `struct sfs_sb_info` of a partition; the root dentry is named by a number. -/
structure ReplicaSbi where
  sReplicaId : Nat
  sDataRoot : Nat
deriving DecidableEq

/-- What the parser asks for: the `i`-th `kern_path`, whose errors are negative, the
    allocations, and whether a root carries the mark of a normal directory. -/
structure Surroundings where
  kernPath : Nat → List Char → Except Int Nat
  kernPath_neg : ∀ {i c e}, kernPath i c = .error e → e < 0
  masterSbi : Bool
  rootDentry : Bool
  replicaSbi : Nat → Bool
  sbiArray : Bool
  normal : Nat → Bool

/-- The variables of the loop: `count`, the slots of the root, and the list of the master. -/
structure Loop where
  count : Nat
  replicas : List (Option Nat)
  sbis : List ReplicaSbi

/-- What the parser leaves: the value it returns, `replica_count`, the slots of
    the root, `sbi_array`, and the root's own fields. -/
structure Mount where
  err : Int
  replicaCount : Nat
  replicas : List (Option Nat)
  sbiArray : List (Option ReplicaSbi)
  root : SfsDentry

def enomem : Int := -12

/-- The component that is cut off, and what is left of the string. -/
def strsep : Option (List Char) → Option (List Char × Option (List Char))
  | none => none
  | some s =>
    some (s.takeWhile (· ≠ ':'), match s.dropWhile (· ≠ ':') with
      | [] => none
      | _ :: rest => some rest)

/-- `d_add_replica`; it has no meaning outside the array. -/
def dAddReplica (replicas : List (Option Nat)) (replica replicaId : Nat) :
    Option (List (Option Nat)) :=
  match replicas[replicaId]? with
  | none => none
  | some none => some (replicas.set replicaId (some replica))
  | some (some _) => some replicas

/-- The body of the loop.  The buffer that the component is copied to has 4096 bytes. -/
def openRoot (env : Surroundings) (opt : List Char) (l : Loop) : Option (Except Int Loop) :=
  if 4096 ≤ opt.length then none
  else
    match env.kernPath l.count opt with
    | .error err => some (.error err)
    | .ok root =>
      if env.replicaSbi l.count then
        match dAddReplica l.replicas root l.count with
        | none => none
        | some replicas =>
          some (.ok ⟨l.count + 1, replicas, l.sbis ++ [⟨l.count, root⟩]⟩)
      else some (.error enomem)

/-- How much there is to parse. -/
def size : Option (List Char) → Nat
  | none => 0
  | some s => s.length + 1

theorem size_strsep {str rest : Option (List Char)} {opt : List Char}
    (h : strsep str = some (opt, rest)) : size rest < size str := by
  cases str with
  | none => cases h
  | some s =>
    have hlen : (s.dropWhile (· ≠ ':')).length ≤ s.length :=
      (dropWhile_suffix _).length_le
    cases Option.some.inj h
    split
    · exact Nat.succ_pos _
    · next hd =>
      rw [hd, length_cons] at hlen
      show _ + 1 < s.length + 1
      omega

/-- `while(!err && (opt_str = strsep(&str, ":")) && *opt_str)` -/
def optsLoop (env : Surroundings) (str : Option (List Char)) (l : Loop) :
    Option (Except Int Loop) :=
  match _h : strsep str with
  | none => some (.ok l)
  | some (opt, rest) =>
    if opt = [] then some (.ok l)
    else
      match openRoot env opt l with
      | none => none
      | some (.error err) => some (.error err)
      | some (.ok l) => optsLoop env rest l
termination_by size str
decreasing_by exact size_strsep _h

/-- `check_normal_dir` of the root. -/
def checkNormalDir (env : Surroundings) (replicas : List (Option Nat)) (i : Nat)
    (root : SfsDentry) : Option (Int × SfsDentry) :=
  match replicas[i]? with
  | some (some replica) =>
    if env.normal replica then
      if i < 64 then
        some (1, { root with
          normalDirCount := root.normalDirCount + 1
          normalDirMap := root.normalDirMap ||| (1#64 <<< i) })
      else none
    else some (0, root)
  | _ => none

/-- `list_for_each_replica(sbi, replica_sbi)`; what is returned is the value of
    the last `check_normal_dir`. -/
def fillArray (env : Surroundings) : List ReplicaSbi → Nat → Mount → Option Mount
  | [], _, m => some m
  | r :: rs, i, m =>
    if i < m.sbiArray.length then
      match checkNormalDir env m.replicas i m.root with
      | none => none
      | some (err, root) =>
        fillArray env rs (i + 1) { m with
          err := err
          sbiArray := m.sbiArray.set i (some r)
          root := root }
    else none

/-- A parse that failed; the mount is given up. -/
def failed (err : Int) : Mount := ⟨err, 64, [], [], ⟨0, 0, 0⟩⟩

/-- `sfs_opts_parse`; `none` is an access outside an array, to a null pointer or a shift too far.
    Without memory there is no `sbi_array`, and no test of that. -/
def sfsOptsParse (env : Surroundings) (str : Option (List Char)) : Option Mount :=
  if env.masterSbi = false then some (failed enomem)
  else if env.rootDentry = false then some (failed enomem)
  else
    match optsLoop env str ⟨0, List.replicate 64 none, []⟩ with
    | none => none
    | some (.error err) => some (failed err)
    | some (.ok l) =>
      fillArray env l.sbis 0 ⟨0, l.count, l.replicas,
          if env.sbiArray then List.replicate l.count none else [],
          ⟨0, 0, 0⟩⟩

/-! ## What is asked of it -/

/-- The components of the option string, and of them those before the first empty one. -/
def components : Option (List Char) → List (List Char)
  | none => []
  | some s => s.splitOn ':'

def named (str : Option (List Char)) : List (List Char) :=
  (components str).takeWhile (· ≠ [])

/-- A file system with the partitions of the string: the root of each is in its
    slot of the root's 64, and `sbi_array` numbers them so. -/
structure Mount.Sound (env : Surroundings) (str : Option (List Char))
    (m : Mount) : Prop where
  pos : 0 < m.replicaCount
  le : m.replicaCount ≤ 64
  named : (named str).length = m.replicaCount
  replicas : m.replicas.length = 64
  sbiArray : m.sbiArray.length = m.replicaCount
  entry : ∀ {i c}, (SfsMount.named str)[i]? = some c →
    ∃ r, env.kernPath i c = .ok r ∧ m.replicas[i]? = some (some r)
      ∧ m.sbiArray[i]? = some (some ⟨i, r⟩)

/-- The parse returns an error, or leaves a file system that is sound and on
    which no placement divides by zero or shifts too far. -/
def ParseSafe (env : Surroundings) (str : Option (List Char)) : Prop :=
  ∃ m, sfsOptsParse env str = some m ∧ (m.err < 0 ∨ (m.Sound env str ∧ NoTrap m.replicaCount))

/-- Component `c`, the `i`-th, becomes partition `i` with root `r`. -/
def Opens (env : Surroundings) (i : Nat) (c : List Char) (r : Nat) : Prop :=
  c.length < 4096 ∧ env.kernPath i c = .ok r ∧ env.replicaSbi i = true

/-- At component `c`, the `i`-th, the loop leaves with an error. -/
def Fails (env : Surroundings) (i : Nat) (c : List Char) : Prop :=
  c.length < 4096 ∧ ((∃ err, env.kernPath i c = .error err)
    ∨ ((∃ r, env.kernPath i c = .ok r) ∧ env.replicaSbi i = false))

/-- With `k` partitions and the components `cs` to come the loop ends in time:
    at most 64 are reached, and then one of the components fails, or there are
    no more but at least one partition. -/
def InTime (env : Surroundings) (k : Nat) (cs : List (List Char)) : Prop :=
  ∃ n, k + n ≤ 64 ∧ (∀ i < n, ∃ c r, cs[i]? = some c ∧ Opens env (k + i) c r)
    ∧ ((∃ c, cs[n]? = some c ∧ Fails env (k + n) c)
      ∨ (n = cs.length ∧ 0 < k + n ∧ env.sbiArray = true))

section Parse

variable {env : Surroundings} {str : Option (List Char)}
  {cs ds : List (List Char)} {c : List Char} {k r : Nat} {rs : List Nat}

/-! ## The string as a list of components -/

/-- `strsep` cuts off the first component and leaves the others. -/
theorem splitOn_eq (s : List Char) :
    s.splitOn ':' = s.takeWhile (· ≠ ':') :: components (match s.dropWhile (· ≠ ':') with
        | [] => none
        | _ :: rest => some rest) := by
  induction s with
  | nil => rfl
  | cons a s ih =>
    rw [List.splitOn, splitOnP_cons_eq_if_modifyHead, ← List.splitOn]
    by_cases ha : a = ':'
    · subst ha
      rfl
    · have hne : (a == ':') = false := beq_false_of_ne ha
      rw [hne, ih, takeWhile_cons, dropWhile_cons]
      simp [ha]

theorem components_of_strsep {opt : List Char} {rest : Option (List Char)}
    (h : strsep str = some (opt, rest)) :
    components str = opt :: components rest := by
  cases str with
  | none => cases h
  | some s =>
    cases Option.some.inj h
    exact splitOn_eq s

/-- The loop over a list of components that are not empty. -/
def optsList (env : Surroundings) : List (List Char) → Loop → Option (Except Int Loop)
  | [], l => some (.ok l)
  | c :: cs, l =>
    match openRoot env c l with
    | none => none
    | some (.error err) => some (.error err)
    | some (.ok l) => optsList env cs l

theorem named_of_strsep {opt : List Char} {rest : Option (List Char)}
    (h : strsep str = some (opt, rest)) :
    named str = if opt = [] then [] else opt :: named rest := by
  rw [named, components_of_strsep h, takeWhile_cons]
  by_cases ho : opt = []
  · simp [ho]
  · simp [ho, named]

theorem named_of_end (h : strsep str = none) : named str = [] := by
  cases str with
  | none => rfl
  | some s => cases h

theorem optsLoop_end (l : Loop) (h : strsep str = none) : optsLoop env str l = some (.ok l) := by
  rw [optsLoop]
  split
  · rfl
  · next h' => exact nomatch h.symm.trans h'

theorem optsLoop_next {opt : List Char} {rest : Option (List Char)} (l : Loop)
    (h : strsep str = some (opt, rest)) :
    optsLoop env str l = if opt = [] then some (.ok l) else
        match openRoot env opt l with
        | none => none
        | some (.error err) => some (.error err)
        | some (.ok l) => optsLoop env rest l := by
  rw [optsLoop]
  split
  · next h' => exact nomatch h.symm.trans h'
  · next opt' rest' h' =>
    obtain ⟨rfl, rfl⟩ : opt = opt' ∧ rest = rest' := by
      simpa using h.symm.trans h'
    rfl

/-- The loop over the string is the loop over its components up to the first empty one. -/
theorem optsLoop_eq (env : Surroundings) (str : Option (List Char)) (l : Loop) :
    optsLoop env str l = optsList env (named str) l := by
  -- one case for each way out of a round
  induction str, l using optsLoop.induct env with
  | case1 str l hs => rw [optsLoop_end l hs, named_of_end hs, optsList]
  | case2 str l rest hs =>
    rw [optsLoop_next l hs, named_of_strsep hs, if_pos rfl, if_pos rfl, optsList]
  | case3 str l opt rest hs ho hopen =>
    rw [optsLoop_next l hs, named_of_strsep hs, if_neg ho, if_neg ho, optsList, hopen]
  | case4 str l opt rest hs ho err hopen =>
    rw [optsLoop_next l hs, named_of_strsep hs, if_neg ho, if_neg ho, optsList, hopen]
  | case5 str l opt rest hs ho l' hopen ih =>
    rw [optsLoop_next l hs, named_of_strsep hs, if_neg ho, if_neg ho, optsList, hopen]
    exact ih

/-! ## The roots that are stored -/

/-- The loop when the roots `rs` have been stored. -/
def Loop.of (rs : List Nat) : Loop where
  count := rs.length
  replicas := rs.map some ++ List.replicate (64 - rs.length) none
  sbis := rs.mapIdx fun i r => ⟨i, r⟩

theorem getElem?_replicas (hr : rs[k]? = some r) : (Loop.of rs).replicas[k]? = some (some r) := by
  have hlt : k < (rs.map some).length := by
    rw [length_map]
    exact (List.getElem?_eq_some_iff.mp hr).1
  rw [Loop.of, List.getElem?_append_left hlt, List.getElem?_map, hr]
  rfl

/-- There is room for one more root. -/
theorem dAddReplica_of (h : rs.length < 64) (r : Nat) :
    dAddReplica (Loop.of rs).replicas r rs.length = some (Loop.of (rs ++ [r])).replicas := by
  have hrep : List.replicate (64 - rs.length) (none : Option Nat)
      = none :: List.replicate (64 - (rs ++ [r]).length) none := by
    rw [length_append, length_singleton, ← replicate_succ]
    congr 1
    omega
  have hslot : (Loop.of rs).replicas[rs.length]? = some none := by
    rw [Loop.of, hrep, List.getElem?_append_right (by simp)]
    simp
  rw [dAddReplica, hslot]
  show some ((Loop.of rs).replicas.set rs.length (some r)) = _
  rw [Loop.of, hrep, set_append_right _ _ (by simp), Loop.of]
  simp

/-- With 64 of them there is none. -/
theorem dAddReplica_full (h : rs.length = 64) (r : Nat) :
    dAddReplica (Loop.of rs).replicas r rs.length = none := by
  have hslot : (Loop.of rs).replicas[rs.length]? = none := by
    rw [List.getElem?_eq_none_iff, Loop.of, length_append, length_map, length_replicate]
    omega
  rw [dAddReplica, hslot]

@[simp] theorem of_count (rs : List Nat) : (Loop.of rs).count = rs.length := rfl

/-- A component that opens goes on to its slot. -/
theorem openRoot_opens (ho : Opens env rs.length c r) : openRoot env c (Loop.of rs) =
      (dAddReplica (Loop.of rs).replicas r rs.length).map (fun replicas =>
        .ok ⟨rs.length + 1, replicas, (Loop.of rs).sbis ++ [⟨rs.length, r⟩]⟩) := by
  obtain ⟨hlen, hk, hs⟩ := ho
  simp only [openRoot, if_neg (not_le.mpr hlen), of_count, hk, hs, if_true]
  cases dAddReplica (Loop.of rs).replicas r rs.length with
  | none => rfl
  | some replicas => rfl

/-- As long as there is room it is stored. -/
theorem openRoot_stored (ho : Opens env rs.length c r) (h : rs.length < 64) :
    openRoot env c (Loop.of rs) = some (.ok (Loop.of (rs ++ [r]))) := by
  rw [openRoot_opens ho, dAddReplica_of h]
  simp [Loop.of, mapIdx_concat]

/-- The 65th is written past the slots. -/
theorem openRoot_full (ho : Opens env rs.length c r) (h : rs.length = 64) :
    openRoot env c (Loop.of rs) = none := by
  rw [openRoot_opens ho, dAddReplica_full h]
  rfl

theorem openRoot_fails (hf : Fails env rs.length c) :
    ∃ err < 0, openRoot env c (Loop.of rs) = some (.error err) := by
  obtain ⟨hlen, ⟨err, hk⟩ | ⟨⟨r, hk⟩, hs⟩⟩ := hf
  · refine ⟨err, env.kernPath_neg hk, ?_⟩
    simp only [openRoot, if_neg (not_le.mpr hlen), of_count, hk]
  · refine ⟨enomem, by decide, ?_⟩
    simp only [openRoot, if_neg (not_le.mpr hlen), of_count, hk, hs]
    rfl

theorem openRoot_long (h : 4096 ≤ c.length) (l : Loop) : openRoot env c l = none := if_pos h

/-- A component is too long, opens or fails. -/
theorem component_cases (env : Surroundings) (i : Nat) (c : List Char) :
    4096 ≤ c.length ∨ (∃ r, Opens env i c r) ∨ Fails env i c := by
  by_cases hlen : c.length < 4096
  · right
    cases hk : env.kernPath i c with
    | error err => exact .inr ⟨hlen, .inl ⟨err, hk⟩⟩
    | ok r =>
      cases hs : env.replicaSbi i with
      | true => exact .inl ⟨r, hlen, hk, hs⟩
      | false => exact .inr ⟨hlen, .inr ⟨⟨r, hk⟩, hs⟩⟩
  · exact .inl (not_lt.mp hlen)

theorem not_opens_of_fails (hf : Fails env k c) : ¬ Opens env k c r := by
  rintro ⟨-, hk, hs⟩
  obtain ⟨-, ⟨err, hk'⟩ | ⟨-, hs'⟩⟩ := hf
  · cases hk.symm.trans hk'
  · cases hs.symm.trans hs'

/-! ## Ending in time, component by component -/

theorem inTime_nil : InTime env k [] ↔ k ≤ 64 ∧ 0 < k ∧ env.sbiArray = true := by
  constructor
  · rintro ⟨n, hn, -, ⟨c, hc, -⟩ | ⟨rfl, hpos, hs⟩⟩
    · cases hc
    · exact ⟨hn, hpos, hs⟩
  · rintro ⟨hk, hpos, hs⟩
    exact ⟨0, hk, nofun, .inr ⟨rfl, hpos, hs⟩⟩

theorem inTime_cons : InTime env k (c :: cs) ↔ k ≤ 64 ∧ (Fails env k c ∨ ((∃ r, Opens env k c r)
        ∧ InTime env (k + 1) cs)) := by
  constructor
  · rintro ⟨n, hn, hopen, hend⟩
    refine ⟨by omega, ?_⟩
    cases n with
    | zero =>
      rcases hend with ⟨c', hc, hf⟩ | ⟨hl, -⟩
      · obtain rfl : c = c' := Option.some.inj hc
        exact .inl hf
      · cases hl
    | succ n =>
      obtain ⟨c', r, hc, ho⟩ := hopen 0 (Nat.succ_pos n)
      obtain rfl : c = c' := Option.some.inj hc
      refine .inr ⟨⟨r, ho⟩, n, by omega, ?_, ?_⟩
      · intro i hi
        have hi' := hopen (i + 1) (Nat.succ_lt_succ hi)
        rwa [List.getElem?_cons_succ, ← add_assoc, Nat.add_right_comm] at hi'
      · rw [List.getElem?_cons_succ, ← add_assoc, Nat.add_right_comm, length_cons] at hend
        rcases hend with hf | ⟨hl, hpos, hs⟩
        · exact .inl hf
        · exact .inr ⟨Nat.succ.inj hl, hpos, hs⟩
  · rintro ⟨hk, hf | ⟨⟨r, ho⟩, n, hn, hopen, hend⟩⟩
    · exact ⟨0, hk, nofun, .inl ⟨c, rfl, hf⟩⟩
    · refine ⟨n + 1, by omega, ?_, ?_⟩
      · intro i hi
        cases i with
        | zero => exact ⟨c, r, rfl, ho⟩
        | succ i =>
          have hi' := hopen i (Nat.lt_of_succ_lt_succ hi)
          rwa [List.getElem?_cons_succ, ← add_assoc, Nat.add_right_comm]
      · rw [List.getElem?_cons_succ, ← add_assoc, Nat.add_right_comm, length_cons]
        rcases hend with hf | ⟨hl, hpos, hs⟩
        · exact .inl hf
        · exact .inr ⟨congrArg (· + 1) hl, hpos, hs⟩

/-! ## The whole loop -/

/-- The components `ds` have the roots `rs`. -/
structure Roots (env : Surroundings) (ds : List (List Char)) (rs : List Nat) :
    Prop where
  length : ds.length = rs.length
  entry : ∀ {i c}, ds[i]? = some c → ∃ r, rs[i]? = some r ∧ env.kernPath i c = .ok r

theorem Roots.snoc (h : Roots env ds rs) (ho : Opens env rs.length c r) :
    Roots env (ds ++ [c]) (rs ++ [r]) := by
  refine ⟨by simp [h.length], ?_⟩
  intro i c' hc
  by_cases hi : i < ds.length
  · rw [List.getElem?_append_left hi] at hc
    rw [List.getElem?_append_left (h.length ▸ hi)]
    exact h.entry hc
  · -- the component that was added
    rw [List.getElem?_append_right (not_lt.mp hi)] at hc
    obtain ⟨hlt, rfl⟩ := List.getElem?_eq_some_iff.mp hc
    obtain rfl : i = rs.length := by
      simp only [length_singleton] at hlt
      have := h.length
      omega
    refine ⟨r, by simp, ?_⟩
    simpa using ho.2.1

variable (cs) in
/-- The loop stores the roots of all components, leaves with an error in time, or
    writes where it must not. -/
theorem optsList_cases (h : Roots env ds rs) (h64 : rs.length ≤ 64) :
    (∃ rs', optsList env cs (Loop.of rs) = some (.ok (Loop.of rs'))
        ∧ Roots env (ds ++ cs) rs' ∧ rs'.length ≤ 64
        ∧ (InTime env rs.length cs ↔ 0 < rs'.length ∧ env.sbiArray = true))
      ∨ (∃ err < 0, optsList env cs (Loop.of rs) = some (.error err) ∧ InTime env rs.length cs)
      ∨ (optsList env cs (Loop.of rs) = none ∧ ¬ InTime env rs.length cs) := by
  induction cs generalizing ds rs with
  | nil =>
    refine .inl ⟨rs, rfl, by rwa [append_nil], h64, ?_⟩
    rw [inTime_nil]
    exact and_iff_right h64
  | cons c cs ih =>
    rw [optsList, inTime_cons]
    rcases component_cases env rs.length c with hlong | ⟨r, ho⟩ | hf
    · refine .inr (.inr ⟨by rw [openRoot_long hlong], ?_⟩)
      rintro ⟨-, ⟨hlen, -⟩ | ⟨⟨r, hlen, -⟩, -⟩⟩
      · omega
      · omega
    · have hcond : (rs.length ≤ 64 ∧ (Fails env rs.length c
          ∨ ((∃ r, Opens env rs.length c r) ∧ InTime env (rs.length + 1) cs)))
          ↔ InTime env (rs.length + 1) cs := by
        constructor
        · rintro ⟨-, hf | ⟨-, hi⟩⟩
          · exact absurd ho (not_opens_of_fails hf)
          · exact hi
        · intro hi
          exact ⟨h64, .inr ⟨⟨r, ho⟩, hi⟩⟩
      rw [hcond]
      rcases Nat.lt_or_eq_of_le h64 with hlt | heq
      · have hih := ih (h.snoc ho) (by rw [length_append]; exact hlt)
        rw [append_assoc, length_append] at hih
        rw [openRoot_stored ho hlt]
        exact hih
      · refine .inr (.inr ⟨by rw [openRoot_full ho heq], ?_⟩)
        rintro ⟨n, hn, -⟩
        omega
    · obtain ⟨err, hneg, he⟩ := openRoot_fails hf
      refine .inr (.inl ⟨err, hneg, ?_, h64, .inl hf⟩)
      rw [he]

/-! ## `sbi_array` -/

variable (env) in
/-- `check_normal_dir` of a root that is in its slot. -/
theorem checkNormalDir_of (hr : rs[k]? = some r) (h64 : k < 64) (root : SfsDentry) :
    ∃ err root', 0 ≤ err ∧ checkNormalDir env (Loop.of rs).replicas k root = some (err, root') := by
  rw [checkNormalDir, getElem?_replicas hr]
  cases hn : env.normal r with
  | false => exact ⟨0, root, Int.le_refl 0, by simp [hn]⟩
  | true =>
    simp only [hn, if_true, if_pos h64]
    exact ⟨1, _, by decide, rfl⟩

/-- The entries for the roots `rs`. -/
def entries (rs : List Nat) : List (Option ReplicaSbi) :=
  rs.mapIdx fun i r => some ⟨i, r⟩

/-- The array is filled from where it is filled to. -/
theorem fillArray_spec (pre suf : List Nat) (h64 : (pre ++ suf).length ≤ 64) {m : Mount}
    (herr : 0 ≤ m.err) (hm : m.replicas = (Loop.of (pre ++ suf)).replicas)
    (ha : m.sbiArray = entries pre ++ List.replicate suf.length none) :
    ∃ m', fillArray env (suf.mapIdx fun j r => ⟨j + pre.length, r⟩) pre.length m = some m'
      ∧ 0 ≤ m'.err ∧ m'.replicaCount = m.replicaCount
      ∧ m'.replicas = m.replicas ∧ m'.sbiArray = entries (pre ++ suf) := by
  induction suf generalizing pre m with
  | nil =>
    refine ⟨m, rfl, herr, rfl, rfl, ?_⟩
    rw [ha, append_nil, length_nil, replicate_zero, append_nil]
  | cons r suf ih =>
    have hall : pre ++ r :: suf = (pre ++ [r]) ++ suf := by simp
    have hlen : pre.length < m.sbiArray.length := by
      rw [ha]
      simp [entries]
    obtain ⟨err, root, hpos, hcheck⟩ := checkNormalDir_of env
      (show (pre ++ r :: suf)[pre.length]? = some r by simp)
      (by rw [length_append, length_cons] at h64; omega) m.root
    have hset : m.sbiArray.set pre.length (some ⟨pre.length, r⟩)
        = entries (pre ++ [r]) ++ List.replicate suf.length none := by
      rw [ha, set_append_right _ _ (by simp [entries])]
      simp [entries, mapIdx_concat, replicate_succ]
    obtain ⟨m', hrun, he, hc, hr, hs⟩ := ih (pre ++ [r])
      (m := { m with
        err := err
        sbiArray := m.sbiArray.set pre.length (some ⟨pre.length, r⟩)
        root := root })
      (hall ▸ h64) hpos (hall ▸ hm) hset
    refine ⟨m', ?_, he, hc, hr, hall ▸ hs⟩
    rw [← hm] at hcheck
    rw [mapIdx_cons, fillArray, if_pos hlen, hcheck, zero_add]
    show fillArray env _ (pre.length + 1) _ = some m'
    rw [← hrun, length_append, length_singleton]
    simp only [add_assoc, add_comm 1]

/-- What follows the loop, when the roots `rs` were stored: `sbi_array` with an
    entry for each, or an access through the array that could not be had. -/
theorem finish_of (env : Surroundings) (h64 : rs.length ≤ 64) :
    if rs.length = 0 ∨ env.sbiArray = true then
      ∃ m, fillArray env (Loop.of rs).sbis 0 ⟨0, rs.length, (Loop.of rs).replicas,
            if env.sbiArray then List.replicate rs.length none else [],
            ⟨0, 0, 0⟩⟩ = some m
        ∧ 0 ≤ m.err ∧ m.replicaCount = rs.length
        ∧ m.replicas = (Loop.of rs).replicas ∧ m.sbiArray = entries rs
    else
      fillArray env (Loop.of rs).sbis 0 ⟨0, rs.length, (Loop.of rs).replicas,
        if env.sbiArray then List.replicate rs.length none else [],
        ⟨0, 0, 0⟩⟩ = none := by
  split
  · next h =>
    have harray : (if env.sbiArray = true then
        List.replicate rs.length (none : Option ReplicaSbi) else [])
        = entries [] ++ List.replicate rs.length none := by
      rcases h with h0 | hs
      · simp [h0, entries]
      · simp [hs, entries]
    rw [harray]
    exact fillArray_spec [] rs h64 (Int.le_refl 0) rfl rfl
  · next h =>
    rw [not_or] at h
    rw [if_neg h.2]
    cases rs with
    | nil => exact absurd rfl h.1
    | cons r rs =>
      rw [Loop.of, mapIdx_cons, fillArray]
      rfl

/-! ## The parse -/

theorem named_sound {m : Mount} (h : Roots env (named str) rs) (h0 : 0 < rs.length)
    (h64 : rs.length ≤ 64) (hc : m.replicaCount = rs.length)
    (hr : m.replicas = (Loop.of rs).replicas) (hs : m.sbiArray = entries rs) :
    m.Sound env str where
  pos := hc ▸ h0
  le := hc ▸ h64
  named := h.length.trans hc.symm
  replicas := by
    rw [hr, Loop.of, length_append, length_map, length_replicate]
    omega
  sbiArray := by rw [hs, hc, entries, length_mapIdx]
  entry {i c} hi := by
    obtain ⟨r, hri, hk⟩ := h.entry hi
    refine ⟨r, hk, ?_, ?_⟩
    · rw [hr]
      exact getElem?_replicas hri
    · rw [hs, entries, List.getElem?_mapIdx, hri]
      rfl

/-- After the loop: the file system is sound exactly when there are roots and an
    array for them. -/
theorem parseSafe_of_loop (hm : env.masterSbi = true) (hd : env.rootDentry = true)
    (hloop : optsLoop env str ⟨0, List.replicate 64 none, []⟩ = some (.ok (Loop.of rs)))
    (h : Roots env (named str) rs) (h64 : rs.length ≤ 64) :
    ParseSafe env str ↔ 0 < rs.length ∧ env.sbiArray = true := by
  have hfin := finish_of env h64
  rw [ParseSafe, sfsOptsParse, if_neg (by simp [hm]), if_neg (by simp [hd]), hloop]
  show (∃ m, fillArray env (Loop.of rs).sbis 0 _ = some m ∧ _) ↔ _
  by_cases hcase : rs.length = 0 ∨ env.sbiArray = true
  · rw [if_pos hcase] at hfin
    obtain ⟨m, hrun, herr, hc, hr, hs⟩ := hfin
    constructor
    · rintro ⟨m', hrun', hm'⟩
      obtain rfl : m = m' := Option.mem_unique hrun hrun'
      rcases hm' with hneg | ⟨hsound, -⟩
      · exact absurd hneg (Int.not_lt.mpr herr)
      · have hpos : 0 < rs.length := hc ▸ hsound.pos
        exact ⟨hpos, hcase.resolve_left (ne_of_gt hpos)⟩
    · rintro ⟨hpos, -⟩
      have hsound := named_sound h hpos h64 hc hr hs
      exact ⟨m, hrun, .inr ⟨hsound, noTrap_iff.mpr ⟨hsound.pos, hsound.le⟩⟩⟩
  · rw [if_neg hcase] at hfin
    constructor
    · rintro ⟨m', hrun', -⟩
      cases hfin.symm.trans hrun'
    · rintro ⟨-, hs⟩
      exact absurd (.inr hs) hcase

/-- With memory for the master and for the root all depends on the loop. -/
theorem parseSafe_iff_inTime (hm : env.masterSbi = true) (hd : env.rootDentry = true) :
    ParseSafe env str ↔ InTime env 0 (named str) := by
  have hstart : Roots env [] [] := ⟨rfl, nofun⟩
  have hloop : optsLoop env str ⟨0, List.replicate 64 none, []⟩
      = optsList env (named str) (Loop.of []) := optsLoop_eq ..
  rcases optsList_cases (named str) hstart (Nat.zero_le 64) with
    ⟨rs, hrun, hroots, h64, hi⟩ | ⟨err, hneg, hrun, hi⟩ | ⟨hrun, hi⟩
  · exact (parseSafe_of_loop hm hd (hloop.trans hrun) hroots h64).trans hi.symm
  · refine ⟨fun _ => hi, fun _ => ⟨failed err, ?_, .inl hneg⟩⟩
    rw [sfsOptsParse, if_neg (by simp [hm]), if_neg (by simp [hd]), hloop.trans hrun]
  · refine ⟨?_, fun h => absurd h hi⟩
    rintro ⟨m, hparse, -⟩
    rw [sfsOptsParse, if_neg (by simp [hm]), if_neg (by simp [hd]), hloop.trans hrun] at hparse
    cases hparse

/-- Parsing is safe exactly when it fails early for want of memory, or the loop
    over the named components ends in time. -/
theorem parseSafe_iff (env : Surroundings) (str : Option (List Char)) :
    ParseSafe env str ↔ env.masterSbi = false ∨ env.rootDentry = false
        ∨ InTime env 0 (named str) := by
  cases hm : env.masterSbi with
  | false =>
    refine ⟨fun _ => Or.inl rfl, fun _ => ⟨failed enomem, ?_, Or.inl ?_⟩⟩
    · rw [sfsOptsParse, if_pos hm]
    · decide
  | true =>
    cases hd : env.rootDentry with
    | false =>
      refine ⟨fun _ => Or.inr (Or.inl rfl), fun _ =>
        ⟨failed enomem, ?_, Or.inl ?_⟩⟩
      · rw [sfsOptsParse, if_neg (by simp [hm]), if_pos hd]
      · decide
    | true =>
      rw [or_iff_right nofun, or_iff_right nofun]
      exact parseSafe_iff_inTime hm hd

end Parse

/-! ## Mounts that are not safe -/

/-- Every component is a directory, with enough memory for all. -/
def allThere : Surroundings where
  kernPath _ _ := .ok 0
  kernPath_neg h := nomatch h
  masterSbi := true
  rootDentry := true
  replicaSbi _ := true
  sbiArray := true
  normal _ := false

theorem allThere_not_fails (i : Nat) (c : List Char) : ¬ Fails allThere i c := by
  rintro ⟨-, ⟨err, hk⟩ | ⟨-, hs⟩⟩
  · cases hk
  · cases hs

/-- The option string `a:a:…:a:` with 65 components before the empty one. -/
def many : List Char := (List.replicate 65 ['a', ':']).flatten

/-- The mount without an option string. -/
theorem sfsOptsParse_none :
    sfsOptsParse allThere none = some ⟨0, 0, List.replicate 64 none, [], ⟨0, 0, 0⟩⟩ := by
  have hloop : optsLoop allThere none ⟨0, List.replicate 64 none, []⟩
      = some (.ok ⟨0, List.replicate 64 none, []⟩) := optsLoop_end _ rfl
  rw [sfsOptsParse, if_neg nofun, if_neg nofun, hloop]
  rfl

/-- Without an option string the mount succeeds with no partition, and the first
    placement divides by zero; with 65 times the same directory the last root is
    stored behind the slots. -/
theorem parseSafe_fails : (∃ m, sfsOptsParse allThere none = some m ∧ m.err = 0
        ∧ dispatch m.replicaCount 0 = .error .divide)
      ∧ ¬ ParseSafe allThere none ∧ ¬ ParseSafe allThere (some many) := by
  refine ⟨⟨_, sfsOptsParse_none, rfl, rfl⟩, ?_⟩
  rw [parseSafe_iff_inTime rfl rfl, parseSafe_iff_inTime rfl rfl]
  constructor
  · intro h
    exact absurd (inTime_nil.mp h).2.1 (Nat.lt_irrefl 0)
  · rintro ⟨n, hn, -, ⟨c, -, hf⟩ | ⟨hlen, -⟩⟩
    · exact allThere_not_fails _ c hf
    · have h65 : (named (some many)).length = 65 := by decide +kernel
      omega

end SfsMount
