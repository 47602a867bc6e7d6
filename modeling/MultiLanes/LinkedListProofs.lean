import Mathlib.Data.List.Chain
import Mathlib.Data.List.Nodup
import Mathlib.Logic.Function.Basic

/-! # Linked lists in memory

Two kinds of doubly linked lists, as memory holds them.  A ring is closed through its
head, and every cell names its neighbours.  A hash table has chains that end in a null
pointer; a node of a chain names its successor and the place that names itself, which is
the bucket or the field of its predecessor.

`Ring` and `Table` say which lists of nodes the memory holds; adding and deleting are
stated against them.  An operation that would follow a pointer to nowhere has no result.
-/

namespace LinkedList

open Function List

/-- A pointer: null, the poison left in deleted nodes, or to a cell. -/
inductive Ptr (α : Type) where
  | null
  | poison
  | ref (a : α)
deriving DecidableEq, Repr

/-- A place that neither of two stores is to. -/
theorem update_update_of_ne {α β : Type} [DecidableEq α] {f : α → β}
    {a x y : α} {v w : β} (hx : a ≠ x) (hy : a ≠ y) :
    update (update f y v) x w a = f a :=
  (update_of_ne hx ..).trans (update_of_ne hy ..)

/-! ## Rings -/

section Rings

/-- The two links of every cell. -/
structure Links (α : Type) where
  next : α → Ptr α
  prev : α → Ptr α

variable {α : Type} {m m' : Links α} {h x : α} {l l₁ l₂ : List α}

/-- The two cells name each other. -/
def Linked (m : Links α) (a b : α) : Prop :=
  m.next a = .ref b ∧ m.prev b = .ref a

/-- The ring through `h` and the cells of `l`, in this order. -/
structure Ring (m : Links α) (h : α) (l : List α) : Prop where
  nodup : (h :: l).Nodup
  chain : (h :: (l ++ [h])).IsChain (Linked m)

/-- The links of a chain are the `next` of all but its last cell and the `prev`
    of all but its first. -/
theorem chain_congr (hc : l.IsChain (Linked m)) (hnext : ∀ a ∈ l.dropLast, m'.next a = m.next a)
    (hprev : ∀ b ∈ l.tail, m'.prev b = m.prev b) :
    l.IsChain (Linked m') := by
  induction hc with
  | nil => exact .nil
  | singleton a => exact .singleton a
  | cons_cons hab hc ih =>
    refine .cons_cons ⟨?_, ?_⟩ (ih (fun c hc' => ?_) fun c hc' => ?_)
    · rw [hnext _ (.head _)]
      exact hab.1
    · rw [hprev _ (.head _)]
      exact hab.2
    · exact hnext c (.tail _ hc')
    · exact hprev c (.tail _ hc')

theorem Ring.congr (hr : Ring m h l) (hnext : ∀ a ∈ h :: l, m'.next a = m.next a)
    (hprev : ∀ a ∈ h :: l, m'.prev a = m.prev a) : Ring m' h l := by
  refine ⟨hr.nodup, chain_congr hr.chain (fun a ha => hnext a ?_) fun a ha => hprev a ?_⟩
  · rwa [← cons_append, dropLast_concat] at ha
  · exact mem_cons.mpr ((mem_append.mp ha).symm.imp mem_singleton.mp id)

/-- What the head points at. -/
theorem Ring.next_head (hr : Ring m h l) : m.next h = .ref (l.head?.getD h) := by
  have hc := hr.chain
  cases l with
  | nil => exact (isChain_cons_cons.mp hc).1.1
  | cons n l => exact (isChain_cons_cons.mp hc).1.1

/-- The first cell and what it points at. -/
theorem Ring.next_first (hr : Ring m h (x :: l)) : Linked m x (l.head?.getD h) := by
  have hc := (isChain_cons_cons.mp hr.chain).2
  cases l with
  | nil => exact (isChain_cons_cons.mp hc).1
  | cons n l => exact (isChain_cons_cons.mp hc).1

/-- An empty ring is the head alone. -/
theorem Ring.linked_self (hr : Ring m h []) : Linked m h h :=
  (isChain_cons_cons.mp hr.chain).1

/-- What the head points back at. -/
theorem Ring.prev_head (hr : Ring m h (l ++ [x])) : m.prev h = .ref x := by
  have hc := hr.chain
  rw [append_assoc, ← cons_append] at hc
  exact (isChain_append_cons_cons.mp hc).2.1.2

variable [DecidableEq α]

/-- A cell that is linked to itself. -/
def Links.init (m : Links α) (x : α) : Links α where
  next := update m.next x (.ref x)
  prev := update m.prev x (.ref x)

/-- Put `x` behind the head. -/
def Links.add (m : Links α) (x h : α) : Option (Links α) :=
  match m.next h with
  | .ref n => some
      { next := update (update m.next x (.ref n)) h (.ref x)
        prev := update (update m.prev n (.ref x)) x (.ref h) }
  | _ => none

/-- Link the neighbours of `x` to each other and poison its own links. -/
def Links.del (m : Links α) (x : α) : Option (Links α) :=
  match m.prev x, m.next x with
  | .ref p, .ref n => some
      { next := update (update m.next p (.ref n)) x .poison
        prev := update (update m.prev n (.ref p)) x .poison }
  | _, _ => none

/-- A cell outside the ring does not matter. -/
theorem Ring.init (hr : Ring m h l) (hx : x ∉ h :: l) : Ring (m.init x) h l := by
  have hne : ∀ a ∈ h :: l, a ≠ x := by
    rintro a ha rfl
    exact hx ha
  exact hr.congr (fun a ha => update_of_ne (hne a ha) ..) fun a ha => update_of_ne (hne a ha) ..

theorem ring_init : Ring (m.init h) h [] := by
  refine ⟨nodup_singleton h, .cons_cons ⟨?_, ?_⟩ (.singleton h)⟩
  · exact update_self ..
  · exact update_self ..

theorem Ring.add (hr : Ring m h l) (hx : x ∉ h :: l) :
    ∃ m', m.add x h = some m' ∧ Ring m' h (x :: l) := by
  obtain ⟨n, rest, hrest⟩ : ∃ n rest, l ++ [h] = n :: rest :=
    exists_cons_of_ne_nil (by simp)
  have hc := hr.chain
  rw [hrest, isChain_cons_cons] at hc
  obtain ⟨⟨hnext, hprev⟩, hchain⟩ := hc
  -- the cells that are named once in each direction
  have hnodup : (n :: rest).Nodup := by
    rw [← hrest]
    exact nodup_append_comm.mp hr.nodup
  have hl : (n :: rest).dropLast = l := by rw [← hrest, dropLast_concat]
  have hmem : ∀ a, a ∈ n :: rest ↔ a ∈ h :: l := by
    intro a
    rw [← hrest]
    simp [or_comm]
  have hxn : n ≠ x := by
    rintro rfl
    exact hx ((hmem n).mp (.head _))
  have hxh : x ≠ h := fun he => hx (he ▸ (.head _) ..)
  have hnew : (h :: x :: l).Nodup :=
    (List.Perm.swap x h l).symm.nodup_iff.mp (nodup_cons.mpr ⟨hx, hr.nodup⟩)
  refine ⟨_, by rw [Links.add, hnext], hnew, ?_⟩
  rw [cons_append, hrest]
  refine .cons_cons ⟨update_self .., update_self ..⟩
    (.cons_cons ⟨?_, ?_⟩ (chain_congr hchain (fun a ha => ?_) fun b hb => ?_))
  · exact (update_of_ne hxh ..).trans (update_self ..)
  · exact (update_of_ne hxn ..).trans (update_self ..)
  · rw [hl] at ha
    have hne : a ≠ h ∧ a ≠ x := by grind
    exact update_update_of_ne hne.1 hne.2
  · have hb' : b ∈ rest := hb
    have hne : b ≠ x ∧ b ≠ n := by grind
    exact update_update_of_ne hne.1 hne.2

theorem Ring.del (hr : Ring m h (l₁ ++ x :: l₂)) :
    ∃ m', m.del x = some m' ∧ Ring m' h (l₁ ++ l₂) := by
  -- the neighbours of `x`
  obtain ⟨A, p, hA⟩ : ∃ A p, h :: l₁ = A ++ [p] :=
    ⟨_, _, (dropLast_append_getLast (cons_ne_nil h l₁)).symm⟩
  obtain ⟨n, B, hB⟩ : ∃ n B, l₂ ++ [h] = n :: B :=
    exists_cons_of_ne_nil (by simp)
  have hc := hr.chain
  have hsplit : h :: ((l₁ ++ x :: l₂) ++ [h]) = A ++ p :: x :: n :: B := by
    rw [append_assoc, cons_append, hB, ← cons_append, hA, append_assoc]
    rfl
  rw [hsplit, isChain_append_cons_cons, isChain_cons_cons] at hc
  obtain ⟨hleft, hpx, hxn, hright⟩ := hc
  have hnodup : (A ++ p :: x :: l₂).Nodup := by
    have hn := hr.nodup
    rwa [← cons_append, hA, append_assoc] at hn
  have hnodup' : (l₁ ++ x :: n :: B).Nodup := by
    have hn : ((l₁ ++ x :: l₂) ++ [h]).Nodup :=
      nodup_append_comm.mp hr.nodup
    rwa [append_assoc, cons_append, hB] at hn
  have hp : ∀ a ∈ A ++ l₂, a ≠ x ∧ a ≠ p := by grind
  have hn : ∀ b ∈ l₁ ++ B, b ≠ x ∧ b ≠ n := by grind
  have hxp : p ≠ x := by grind
  have hnx : n ≠ x := by grind
  refine ⟨_, by rw [Links.del, hpx.2, hxn.1], ?_, ?_⟩
  · exact (List.Sublist.cons_cons h (List.Sublist.append_left
      (sublist_cons_self x l₂) l₁)).nodup hr.nodup
  -- the chain before `x` and the chain after it are as they were
  rw [append_assoc, ← cons_append, hA, hB, append_assoc]
  refine isChain_append_cons_cons.mpr
    ⟨chain_congr hleft (fun a ha => ?_) (fun b hb => ?_), ⟨?_, ?_⟩,
      chain_congr hright (fun a ha => ?_) fun b hb => ?_⟩
  · rw [dropLast_concat] at ha
    have hne := hp a (mem_append_left _ ha)
    exact update_update_of_ne hne.1 hne.2
  · rw [← hA] at hb
    have hne := hn b (mem_append_left _ hb)
    exact update_update_of_ne hne.1 hne.2
  · exact (update_of_ne hxp ..).trans (update_self ..)
  · exact (update_of_ne hnx ..).trans (update_self ..)
  · rw [← hB, dropLast_concat] at ha
    have hne := hp a (mem_append_right _ ha)
    exact update_update_of_ne hne.1 hne.2
  · have hne := hn b (mem_append_right _ hb)
    exact update_update_of_ne hne.1 hne.2

end Rings

/-! ## Hash chains -/

section Chains

/-- A place that holds a pointer to a node: a bucket, or the successor field of a node. -/
inductive Slot (β α : Type) where
  | first (k : β)
  | next (a : α)
deriving DecidableEq, Repr

/-- The buckets, and the two links of every node. -/
structure HLinks (β α : Type) where
  first : β → Ptr α
  next : α → Ptr α
  pprev : α → Ptr (Slot β α)

variable {α β : Type} {t t' : HLinks β α} {s s' : Slot β α} {k : β} {x : α}
  {l l' l₁ l₂ : List α}

def HLinks.read (t : HLinks β α) : Slot β α → Ptr α
  | .first k => t.first k
  | .next a => t.next a

/-- From the slot on there are the nodes of the list. -/
def HChain (t : HLinks β α) : Slot β α → List α → Prop
  | s, [] => t.read s = .null
  | s, x :: l => t.read s = .ref x ∧ t.pprev x = .ref s ∧ HChain t (.next x) l

theorem HChain.congr (hc : HChain t s l) (hs : t'.read s = t.read s)
    (hnext : ∀ a ∈ l, t'.read (.next a) = t.read (.next a))
    (hpprev : ∀ a ∈ l, t'.pprev a = t.pprev a) : HChain t' s l := by
  induction l generalizing s with
  | nil => exact hs.trans hc
  | cons a l ih =>
    obtain ⟨hread, hback, hrest⟩ := hc
    refine ⟨hs.trans hread, ?_, ih hrest ?_ ?_ ?_⟩
    · rw [hpprev a (.head _), hback]
    · exact hnext a (.head _)
    · exact fun b hb => hnext b (.tail _ hb)
    · exact fun b hb => hpprev b (.tail _ hb)

/-- Only these slots, and the back links of these nodes, are changed. -/
structure Around (S : Slot β α → Prop) (P : α → Prop) (t t' : HLinks β α) :
    Prop where
  read : ∀ s, ¬ S s → t'.read s = t.read s
  pprev : ∀ b, ¬ P b → t'.pprev b = t.pprev b

variable {S : Slot β α → Prop} {P : α → Prop}

theorem Around.trans {t'' : HLinks β α} (h : Around S P t t')
    (h' : Around S P t' t'') : Around S P t t'' where
  read s hs := (h'.read s hs).trans (h.read s hs)
  pprev b hb := (h'.pprev b hb).trans (h.pprev b hb)

theorem Around.mono {S' : Slot β α → Prop} {P' : α → Prop}
    (h : Around S P t t') (hS : ∀ s, S s → S' s) (hP : ∀ b, P b → P' b) :
    Around S' P' t t' where
  read s hs := h.read s fun hs' => hs (hS s hs')
  pprev b hb := h.pprev b fun hb' => hb (hP b hb')

/-- A chain elsewhere is as it was. -/
theorem Around.chain (h : Around S P t t') (hc : HChain t s l) (hs : ¬ S s)
    (hnext : ∀ a ∈ l, ¬ S (.next a)) (hP : ∀ a ∈ l, ¬ P a) : HChain t' s l :=
  hc.congr (h.read s hs) (fun a ha => h.read _ (hnext a ha)) fun a ha => h.pprev a (hP a ha)

/-- The slots of a chain. -/
def Along (s : Slot β α) (l : List α) (s' : Slot β α) : Prop :=
  s' = s ∨ ∃ b ∈ l, s' = .next b

theorem not_along_first {j : β} (h : j ≠ k) : ¬ Along (.first k) l (.first j) := by
  rintro (he | ⟨b, -, he⟩)
  · cases he
    exact h rfl
  · cases he

theorem not_along_next (hx : x ∉ l) : ¬ Along (.first k) l (.next x) := by
  rintro (he | ⟨b, hb, he⟩)
  · cases he
  · cases he
    exact hx hb

variable [DecidableEq α] [DecidableEq β]

def HLinks.write (t : HLinks β α) (s : Slot β α) (v : Ptr α) : HLinks β α :=
  match s with
  | .first k => { t with first := update t.first k v }
  | .next a => { t with next := update t.next a v }

/-- Let the node, if there is one, name the slot that names it. -/
def HLinks.back (t : HLinks β α) (s : Slot β α) : Ptr α → HLinks β α
  | .ref n => { t with pprev := update t.pprev n (.ref s) }
  | _ => t

/-- Set both links of a node. -/
def HLinks.set (t : HLinks β α) (x : α) (v : Ptr α) (w : Ptr (Slot β α)) : HLinks β α :=
  { t with
    next := update t.next x v
    pprev := update t.pprev x w }

/-- A node on no chain. -/
def HLinks.initNode (t : HLinks β α) (x : α) : HLinks β α :=
  t.set x .null .null

/-- Put `x` in front of the bucket's chain. -/
def HLinks.addHead (t : HLinks β α) (x : α) (k : β) : Option (HLinks β α) :=
  match t.first k with
  | .poison => none
  | f => some (((t.back (.next x) f).write (.first k) (.ref x)).set x f
      (.ref (.first k)))

/-- Let the slot before `x` name the node after it, and that node the slot. -/
def HLinks.del (t : HLinks β α) (x : α) : Option (HLinks β α) :=
  match t.pprev x, t.next x with
  | .ref _, .poison => none
  | .ref s, n => some (((t.write s n).back s n).set x .poison .poison)
  | _, _ => none

/-! Each of the stores changes one place, or two. -/

theorem read_write (v : Ptr α) : (t.write s v).read s' = if s' = s then v else t.read s' := by
  cases s with
  | first k =>
    cases s' with
    | first j => simp [HLinks.write, HLinks.read, update_apply]
    | next b => rfl
  | next a =>
    cases s' with
    | first j => rfl
    | next b => simp [HLinks.write, HLinks.read, update_apply]

theorem pprev_write (v : Ptr α) : (t.write s v).pprev = t.pprev := by
  cases s <;> rfl

omit [DecidableEq β] in
theorem read_back (n : Ptr α) : (t.back s n).read s' = t.read s' := by
  cases n <;> cases s' <;> rfl

omit [DecidableEq β] in
theorem pprev_back (n : Ptr α) (b : α) :
    (t.back s n).pprev b = if n = .ref b then .ref s else t.pprev b := by
  cases n with
  | null => rfl
  | poison => rfl
  | ref a => simp [HLinks.back, update_apply, eq_comm]

theorem read_set (v : Ptr α) (w : Ptr (Slot β α)) :
    (t.set x v w).read s' = if s' = .next x then v else t.read s' := by
  cases s' with
  | first j => rfl
  | next b => simp [HLinks.set, HLinks.read, update_apply]

omit [DecidableEq β] in
theorem pprev_set (v : Ptr α) (w : Ptr (Slot β α)) (b : α) :
    (t.set x v w).pprev b = if b = x then w else t.pprev b :=
  update_apply ..

theorem around_write (v : Ptr α) (hs : S s) : Around S P t (t.write s v) where
  read s' hs' := by
    have hne : s' ≠ s := fun he => hs' (he ▸ hs)
    rw [read_write, if_neg hne]
  pprev b _ := by rw [pprev_write]

omit [DecidableEq β] in
theorem around_back (n : Ptr α) (hn : ∀ b, n = .ref b → P b) : Around S P t (t.back s n) where
  read s' _ := read_back n
  pprev b hb := by rw [pprev_back, if_neg fun he => hb (hn b he)]

theorem around_set {v : Ptr α} {w : Ptr (Slot β α)} (hs : S (.next x))
    (hx : P x) : Around S P t (t.set x v w) where
  read s' hs' := by
    have hne : s' ≠ .next x := fun he => hs' (he ▸ hs)
    rw [read_set, if_neg hne]
  pprev b hb := by
    have hbx : b ≠ x := fun he => hb (he ▸ hx)
    rw [pprev_set, if_neg hbx]

/-! ### One chain -/

omit [DecidableEq α] [DecidableEq β] in
theorem Around.along
    (h : Around (fun s' => s' = s ∨ s' = .next x) (fun b => b = x ∨ l.head? = some b) t t') :
    Around (Along s (x :: l)) (· ∈ x :: l) t t' := by
  refine h.mono ?_ ?_
  · rintro s' (rfl | rfl)
    · exact .inl rfl
    · exact .inr ⟨x, mem_cons_self .., rfl⟩
  · rintro b (rfl | hb)
    · exact .head _
    · exact .tail _ (mem_of_mem_head? hb)

/-- Deleting the node that the slot names: the node behind it, if there is one,
    takes its place. -/
theorem HChain.del_first (hc : HChain t s (x :: l))
    (hs : ∀ b ∈ x :: l, s ≠ .next b) (hnodup : (x :: l).Nodup) :
    ∃ t', t.del x = some t' ∧ HChain t' s l ∧ Around (fun s' => s' = s ∨ s' = .next x)
          (fun b => b = x ∨ l.head? = some b) t t' := by
  obtain ⟨-, hback, hrest⟩ := hc
  have hsx : s ≠ .next x := hs x (.head _)
  have haround : ∀ n : Ptr α, (∀ b, n = .ref b → l.head? = some b) →
      Around (fun s' => s' = s ∨ s' = .next x)
        (fun b => b = x ∨ l.head? = some b) t
        (((t.write s n).back s n).set x .poison .poison) :=
    fun n hn => (around_write n (.inl rfl)).trans ((around_back n fun b he => .inr (hn b he)).trans
        (around_set (.inr rfl) (.inl rfl)))
  cases l with
  | nil =>
    have hnext : t.next x = .null := hrest
    refine ⟨_, by rw [HLinks.del, hback, hnext], ?_, haround .null nofun⟩
    show HLinks.read _ s = .null
    rw [read_set, read_back, read_write, if_neg hsx, if_pos rfl]
  | cons n l =>
    obtain ⟨hnext, -, hrest⟩ := hrest
    have hnext : t.next x = .ref n := hnext
    have hnx : n ≠ x := by grind
    have hwhere := haround (.ref n) fun b he => by cases he; rfl
    refine ⟨_, by rw [HLinks.del, hback, hnext], ⟨?_, ?_, ?_⟩, hwhere⟩
    · rw [read_set, read_back, read_write, if_neg hsx, if_pos rfl]
    · rw [pprev_set, if_neg hnx, pprev_back, if_pos rfl]
    · -- the nodes behind it are not touched
      refine hwhere.chain hrest ?_ (fun a ha => ?_) fun a ha => ?_ <;> grind

/-- Deleting any node of the chain. -/
theorem HChain.del (hc : HChain t s (l₁ ++ x :: l₂))
    (hs : ∀ b ∈ l₁ ++ x :: l₂, s ≠ .next b) (hnodup : (l₁ ++ x :: l₂).Nodup) :
    ∃ t', t.del x = some t' ∧ HChain t' s (l₁ ++ l₂)
      ∧ Around (Along s (l₁ ++ x :: l₂)) (· ∈ l₁ ++ x :: l₂) t t' := by
  induction l₁ generalizing s with
  | nil =>
    obtain ⟨t', hdel, hchain, haround⟩ := hc.del_first hs hnodup
    exact ⟨t', hdel, hchain, haround.along⟩
  | cons a l₁ ih =>
    obtain ⟨hread, hback, hrest⟩ := hc
    obtain ⟨ha, hnodup⟩ := nodup_cons.mp hnodup
    obtain ⟨t', hdel, hchain, haround⟩ := ih hrest (by grind) hnodup
    -- the slot before and the node itself are out of reach
    have hsa : ¬ Along (.next a) (l₁ ++ x :: l₂) s := by
      rintro (rfl | ⟨b, hb, rfl⟩)
      · exact hs a (.head _) rfl
      · exact hs b (.tail _ hb) rfl
    refine ⟨t', hdel, ⟨?_, ?_, hchain⟩, haround.mono ?_ ?_⟩
    · rw [haround.read s hsa, hread]
    · rw [haround.pprev a ha, hback]
    · rintro s' (rfl | ⟨b, hb, rfl⟩)
      · exact .inr ⟨a, mem_cons_self .., rfl⟩
      · exact .inr ⟨b, mem_cons_of_mem _ hb, rfl⟩
    · exact fun b hb => .tail _ hb

/-- Adding a node in front: the chain is behind it. -/
theorem HChain.addHead (hc : HChain t (.first k) l) (hx : x ∉ l) (hnodup : l.Nodup) :
    ∃ t', t.addHead x k = some t' ∧ HChain t' (.first k) (x :: l)
      ∧ Around (Along (.first k) (x :: l)) (· ∈ x :: l) t t' := by
  have haround : ∀ f : Ptr α, (∀ b, f = .ref b → l.head? = some b) →
      Around (fun s' => s' = .first k ∨ s' = .next x)
        (fun b => b = x ∨ l.head? = some b) t
        (((t.back (.next x) f).write (.first k) (.ref x)).set x f
          (.ref (.first k))) :=
    fun f hf => (around_back f fun b he => .inr (hf b he)).trans
      ((around_write (.ref x) (.inl rfl)).trans (around_set (.inr rfl) (.inl rfl)))
  cases l with
  | nil =>
    have hfirst : t.first k = .null := hc
    refine ⟨_, by rw [HLinks.addHead, hfirst], ⟨?_, ?_, ?_⟩, (haround .null nofun).along⟩
    · rw [read_set, if_neg nofun, read_write, if_pos rfl]
    · rw [pprev_set, if_pos rfl]
    · show HLinks.read _ (.next x) = .null
      rw [read_set, if_pos rfl]
  | cons f l =>
    obtain ⟨hfirst, -, hrest⟩ := hc
    have hfirst : t.first k = .ref f := hfirst
    have hfx : f ≠ x := by grind
    have hwhere := haround (.ref f) fun b he => by cases he; rfl
    refine ⟨_, by rw [HLinks.addHead, hfirst], ⟨?_, ?_, ?_, ?_, ?_⟩, hwhere.along⟩
    · rw [read_set, if_neg nofun, read_write, if_pos rfl]
    · rw [pprev_set, if_pos rfl]
    · rw [read_set, if_pos rfl]
    · rw [pprev_set, if_neg hfx, pprev_write, pprev_back, if_pos rfl]
    · -- behind the first node nothing is touched
      refine hwhere.chain hrest ?_ (fun a ha => ?_) fun a ha => ?_ <;> grind

/-! ### The table -/

/-- The buckets hold these chains, and no node is on two of them. -/
structure Table (t : HLinks β α) (L : β → List α) : Prop where
  chain : ∀ k, HChain t (.first k) (L k)
  nodup : ∀ k, (L k).Nodup
  apart : ∀ {j k a}, a ∈ L j → a ∈ L k → j = k

variable {L : β → List α}

theorem Table.initNode (h : Table t L) (hx : ∀ k, x ∉ L k) : Table (t.initNode x) L := by
  have haround : Around (· = .next x) (· = x) t (t.initNode x) :=
    around_set rfl rfl
  refine ⟨fun k => haround.chain (h.chain k) nofun (fun a ha => ?_)
    fun a ha => ?_, h.nodup, h.apart⟩
  · rintro ⟨⟩
    exact hx k ha
  · rintro rfl
    exact hx k ha

omit [DecidableEq α] [DecidableEq β] in
/-- The other chains, when one is changed. -/
theorem Table.chain_of_ne {j : β} (h : Table t L) (hj : j ≠ k) (hdis : ∀ a ∈ L j, a ∉ l)
    (haround : Around (Along (.first k) l) (· ∈ l) t t') :
    HChain t' (.first j) (L j) :=
  haround.chain (h.chain j) (not_along_first hj) (fun a ha => not_along_next (hdis a ha)) hdis

theorem Table.addHead (h : Table t L) (hx : ∀ k, x ∉ L k) (k : β) :
    ∃ t', t.addHead x k = some t' ∧ Table t' (update L k (x :: L k)) := by
  obtain ⟨t', hadd, hchain, haround⟩ :=
    (h.chain k).addHead (hx k) (h.nodup k)
  -- in the new table, the nodes of a bucket are those it had and maybe `x`
  have hmem : ∀ {j a}, a ∈ update L k (x :: L k) j → a ∈ L j ∨ (a = x ∧ j = k) := by
    intro j a ha
    by_cases hj : j = k
    · subst hj
      rw [update_self] at ha
      exact (mem_cons.mp ha).symm.imp_right fun he => ⟨he, rfl⟩
    · rw [update_of_ne hj] at ha
      exact .inl ha
  refine ⟨t', hadd, fun j => ?_, fun j => ?_, fun {i j a} hi hj => ?_⟩
  · by_cases hj : j = k
    · subst hj
      rwa [update_self]
    · rw [update_of_ne hj]
      refine h.chain_of_ne hj (fun a ha hak => ?_) haround
      rcases mem_cons.mp hak with rfl | hak
      · exact hx j ha
      · exact hj (h.apart ha hak)
  · by_cases hj : j = k
    · subst hj
      rw [update_self]
      exact nodup_cons.mpr ⟨hx j, h.nodup j⟩
    · rw [update_of_ne hj]
      exact h.nodup j
  · rcases hmem hi with hold | ⟨rfl, rfl⟩
    · rcases hmem hj with hold' | ⟨rfl, rfl⟩
      · exact h.apart hold hold'
      · exact absurd hold (hx i)
    · rcases hmem hj with hold' | ⟨-, rfl⟩
      · exact absurd hold' (hx j)
      · rfl

theorem Table.del (h : Table t L) (hx : x ∈ L k) :
    ∃ t', t.del x = some t' ∧ Table t' (fun j => (L j).filter (· ≠ x)) := by
  obtain ⟨l₁, l₂, hl⟩ := append_of_mem hx
  have hchain := h.chain k
  have hnodup := h.nodup k
  rw [hl] at hchain hnodup
  obtain ⟨t', hdel, hchain, haround⟩ := hchain.del nofun hnodup
  refine ⟨t', hdel, fun j => ?_, fun j => (h.nodup j).filter _,
    fun hi hj => h.apart (mem_of_mem_filter hi) (mem_of_mem_filter hj)⟩
  by_cases hj : j = k
  · subst hj
    have hrest : (L j).filter (· ≠ x) = l₁ ++ l₂ := by
      rw [hl, filter_append, filter_cons, if_neg (by simp)]
      congr 1 <;> refine filter_eq_self.mpr fun a ha => ?_ <;> grind
    rw [hrest]
    exact hchain
  · have hrest : (L j).filter (· ≠ x) = L j := by
      refine filter_eq_self.mpr fun a ha => decide_eq_true ?_
      rintro rfl
      exact hj (h.apart ha hx)
    rw [hrest]
    rw [← hl] at haround
    exact h.chain_of_ne hj (fun a ha hak => hj (h.apart ha hak)) haround

end Chains

end LinkedList
