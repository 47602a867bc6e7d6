import Mathlib.Data.List.Nodup

/-! # Keyed tables — objects on hash lists

Objects with a key are kept on lists, which are grouped in tables: a list is named by
its table and its bucket.  Where an object belongs is said by a LAYOUT, a function of
its key, that may change while objects are on the lists.

An object is found by its key on the list where the layout now puts it.  So the objects
on the lists are found exactly as long as they are where they belong and no two have one
key (`Placed`); a change of the layout keeps that only if it leaves every key alone that
is in use (`Placed.relayout`). -/

namespace KeyedTable

/-- An object: its address and its key. -/
structure Entry (K : Type) where
  addr : Nat
  key : K
deriving DecidableEq, Repr

/-- The lists, by table and bucket. -/
abbrev Tables (K : Type) : Type := Nat → Nat → List (Entry K)

/-- Table and bucket of a key. -/
abbrev Layout (K : Type) : Type := K → Nat × Nat

variable {K : Type}

/-- An object is put at the head of a list. -/
def add (T : Tables K) (at_ : Nat × Nat) (x : Entry K) : Tables K :=
  fun t b => if t = at_.1 ∧ b = at_.2 then x :: T t b else T t b

/-- The object at an address is taken off its list. -/
def del (T : Tables K) (addr : Nat) : Tables K :=
  fun t b => (T t b).filter (fun x => x.addr ≠ addr)

/-- The object is on a list. -/
def Hashed (T : Tables K) (x : Entry K) : Prop := ∃ t b, x ∈ T t b

/-- Every object is where it belongs, and no two on a list have one key. -/
structure Placed (L : Layout K) (T : Tables K) : Prop where
  place : ∀ {t b x}, x ∈ T t b → L x.key = (t, b)
  once : ∀ t b, ((T t b).map Entry.key).Nodup

section Lists

variable {T : Tables K} {L L' : Layout K} {x y : Entry K} {at_ : Nat × Nat} {addr t b : Nat}

theorem mem_add : y ∈ add T at_ x t b ↔ (y = x ∧ t = at_.1 ∧ b = at_.2) ∨ y ∈ T t b := by
  unfold add
  split
  · next h => simp [h]
  · next h => simp [h]

theorem mem_del : y ∈ del T addr t b ↔ y ∈ T t b ∧ y.addr ≠ addr := by
  simp [del]

theorem Placed.del (h : Placed L T) (addr : Nat) : Placed L (del T addr) := by
  constructor
  · intro t b x hx
    exact h.place (mem_del.mp hx).1
  · intro t b
    exact (h.once t b).sublist (List.filter_sublist.map _)

/-- The layout may change for keys that are not in use. -/
theorem Placed.relayout (h : Placed L T)
    (hsame : ∀ x, Hashed T x → L' x.key = L x.key) : Placed L' T := by
  constructor
  · intro t b x hx
    rw [hsame x ⟨t, b, hx⟩]
    exact h.place hx
  · exact h.once

end Lists

/-! ## Finding -/

variable [DecidableEq K] {T : Tables K} {L : Layout K} {x y : Entry K} {k : K}
  {at_ : Nat × Nat}

/-- The first object on a list that has the key. -/
def find (T : Tables K) (at_ : Nat × Nat) (k : K) : Option (Entry K) :=
  (T at_.1 at_.2).find? (fun x => x.key = k)

theorem find_eq_none_iff : find T at_ k = none ↔ ∀ x ∈ T at_.1 at_.2, x.key ≠ k := by
  simp [find, List.find?_eq_none]

/-- An object on a list is found by its key. -/
theorem Placed.find (h : Placed L T) (hx : Hashed T x) :
    KeyedTable.find T (L x.key) x.key = some x := by
  obtain ⟨t, b, hx⟩ := hx
  rw [h.place hx]
  cases hf : KeyedTable.find T (t, b) x.key with
  | none => exact absurd rfl (find_eq_none_iff.mp hf x hx)
  | some y =>
    have hkey : y.key = x.key := by simpa using List.find?_some hf
    have hy : y ∈ T t b := List.mem_of_find?_eq_some hf
    rw [List.inj_on_of_nodup_map (h.once t b) hy hx hkey]

/-- A key has one object. -/
theorem Placed.unique (h : Placed L T) (hx : Hashed T x) (hy : Hashed T y)
    (hkey : x.key = y.key) : x = y := by
  have hfx := h.find hx
  rw [hkey, h.find hy] at hfx
  exact (Option.some.inj hfx).symm

/-- An object whose key is not found is put where it belongs. -/
theorem Placed.add (h : Placed L T) (hnone : KeyedTable.find T (L x.key) x.key = none) :
    Placed L (add T (L x.key) x) := by
  constructor
  · intro t b y hy
    rcases mem_add.mp hy with ⟨rfl, ht, hb⟩ | hy
    · rw [ht, hb]
    · exact h.place hy
  · intro t b
    unfold KeyedTable.add
    split
    · next hat =>
      obtain ⟨rfl, rfl⟩ := hat
      rw [List.map_cons, List.nodup_cons]
      refine ⟨?_, h.once _ _⟩
      intro hmem
      obtain ⟨y, hy, hkey⟩ := List.mem_map.mp hmem
      exact find_eq_none_iff.mp hnone y hy hkey
    · exact h.once t b

end KeyedTable
