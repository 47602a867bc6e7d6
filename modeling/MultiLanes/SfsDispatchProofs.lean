import MultiLanes.SfsBranchProofs
import MultiLanes.MountOptionsProofs
import Mathlib.Logic.Function.Iterate

/-! # SFS — the choice of a partition

A new file goes to a partition in which its directory is not yet normal, by the counter
of the mount, until the directory is normal in `spanThreshold` partitions; from then on
to one in which it is, by a counter of the directory. Both loops end: they meet what
they look for when the counter has gone round.

`MountOptionsProofs` has the same functions with the map as the 64 bits it is: what they
give there, the code here does (`calm_of_localDispatch`, `Pictures.check`). -/

namespace Sfs

open InteractProg List

variable {N : Nat} {s : Sys} {Z : Path} {dz : SfsDentry} {p : Nat}

/-! ## `select_normal_dir_rr` -/

theorem nextNormal_some {map : Nat → Bool} {fuel c k : Nat} (hc : c < N)
    (hk : k < fuel) (hmap : map ((c + k) % N) = true) :
    ∃ r, nextNormal N map fuel c = some r ∧ r < N ∧ map r = true := by
  induction fuel generalizing c k with
  | zero => cases hk
  | succ fuel ih =>
    rw [nextNormal]
    split
    · next hc' => exact ⟨c, rfl, hc, hc'⟩
    · next hc' =>
      cases k with
      | zero =>
        rw [Nat.add_zero, Nat.mod_eq_of_lt hc] at hmap
        exact absurd hmap hc'
      | succ k =>
        refine ih (Nat.mod_lt _ (Nat.zero_lt_of_lt hc)) (Nat.lt_of_succ_lt_succ hk) ?_
        rw [Nat.mod_add_mod, Nat.add_assoc, Nat.add_comm 1 k]
        exact hmap

/-- A round from `c` on comes to `p`. -/
theorem exists_round {c : Nat} (hc : c < N) (hp : p < N) : ∃ k, k < N ∧ (c + k) % N = p := by
  by_cases hcp : c ≤ p
  · refine ⟨p - c, by omega, ?_⟩
    rw [Nat.add_sub_cancel' hcp, Nat.mod_eq_of_lt hp]
  · refine ⟨p + N - c, by omega, ?_⟩
    rw [Nat.add_sub_cancel' (by omega), Nat.add_mod_right, Nat.mod_eq_of_lt hp]

/-- The normal partition that the counter comes to first. -/
def SfsDentry.nextNormal (dz : SfsDentry) (N : Nat) : Option Nat :=
  Sfs.nextNormal N dz.normalDirMap N dz.localCounter

/-- A normal partition is found, and the counter goes on. -/
theorem calm_takeNormal (hz : s.mem Z = some dz) (hc : dz.localCounter < N)
    (hp : p < N) (hmap : dz.normalDirMap p = true) :
    ∃ r, r < N ∧ dz.normalDirMap r = true ∧ dz.nextNormal N = some r
      ∧ Calm (takeNormal N Z) s r (s.setD Z { dz with localCounter := (r + 1) % N }) := by
  obtain ⟨k, hk, hround⟩ := exists_round hc hp
  have hmap' : dz.normalDirMap ((dz.localCounter + k) % N) = true := by
    rw [hround]
    exact hmap
  obtain ⟨r, hr, hrN, hrmap⟩ := nextNormal_some hc hk hmap'
  refine ⟨r, hrN, hrmap, hr, rfl, fun e I G Q => ?_⟩
  simp [takeNormal, hz, hr]

theorem Reflects.withCounter {d : Disk} {c : Nat} (h : Reflects N d Z dz)
    (hc : c < N) : Reflects N d Z { dz with localCounter := c } :=
  ⟨h.positive, h.sound, h.full, h.map, h.count, hc⟩

theorem countP_pos_of {f : Nat → Bool} (h : 0 < (range N).countP f) :
    ∃ p, p < N ∧ f p = true := by
  obtain ⟨p, hp, hf⟩ := countP_pos_iff.mp h
  exact ⟨p, mem_range.mp hp, hf⟩

/-- The choice of a normal partition, by the dentry alone. -/
theorem calm_selectNormal (hz : s.mem Z = some dz) (hc : dz.localCounter < N)
    (hcount : dz.normalDirCount = (range N).countP dz.normalDirMap)
    (hne : dz.normalDirCount ≠ 0) :
    ∃ r, r < N ∧ dz.normalDirMap r = true ∧ dz.nextNormal N = some r
      ∧ Calm (selectNormalDirRr N Z) s (some r)
        (s.setD Z { dz with localCounter := (r + 1) % N }) := by
  have hpos : 0 < (range N).countP dz.normalDirMap := by
    rw [← hcount]
    exact Nat.pos_of_ne_zero hne
  obtain ⟨p, hp, hmap⟩ := countP_pos_of hpos
  obtain ⟨r, hrN, hr, hnext, hcalm⟩ := calm_takeNormal hz hc hp hmap
  refine ⟨r, hrN, hr, hnext, .bind (calm_sfsD hz) ?_⟩
  rw [if_neg hne]
  exact hcalm.bind .ret

theorem calm_selectNormalDirRr (hz : s.mem Z = some dz)
    (hR : Reflects N s.disk Z dz) (hcount : 0 < dz.normalDirCount) :
    ∃ r, r < N ∧ s.disk.node Z r = some (.dir true)
      ∧ dz.nextNormal N = some r ∧ Calm (selectNormalDirRr N Z) s (some r)
        (s.setD Z { dz with localCounter := (r + 1) % N }) := by
  obtain ⟨r, hrN, hr, hnext, hcalm⟩ := calm_selectNormal hz hR.counter hR.count (ne_of_gt hcount)
  exact ⟨r, hrN, (hR.map r).mp hr, hnext, hcalm⟩

/-! ## `local_dispatch` -/

/-- The counter after one call of `dispatch`. -/
def nextDispatch (l : Nat) : Nat := if l + 1 > 1024 then 0 else l + 1

theorem calm_dispatch (hN : N ≠ 1) : Calm (dispatch N) s (s.lastDispatch % N)
      { s with lastDispatch := nextDispatch s.lastDispatch } := by
  refine ⟨rfl, fun e I G Q => ?_⟩
  by_cases h : s.lastDispatch + 1 > 1024
  · simp [dispatch, hN, onlyIf, nextDispatch, h]
  · simp [dispatch, hN, onlyIf, nextDispatch, h]

theorem nextDispatch_le {l : Nat} : nextDispatch l ≤ 1024 := by
  unfold nextDispatch
  split <;> omega

/-- The loop ends when the counter of the mount comes by a free partition. -/
theorem calm_dispatchFree (hN : 1 < N) {m : Nat → Bool} {n k : Nat} (hk : k < n)
    (hmap : m ((nextDispatch^[k] s.lastDispatch) % N) = false) :
    ∃ r l, r < N ∧ m r = false ∧ l ≤ 1024
      ∧ Calm (dispatchFree N m n) s r { s with lastDispatch := l } := by
  induction n generalizing s k with
  | zero => cases hk
  | succ n ih =>
    have hcalm := calm_dispatch (s := s) (ne_of_gt hN)
    cases hm : m (s.lastDispatch % N) with
    | false =>
      refine ⟨_, nextDispatch s.lastDispatch, Nat.mod_lt _ (by omega), hm,
        nextDispatch_le, hcalm.bind ?_⟩
      rw [hm]
      exact .ret
    | true =>
      cases k with
      | zero => cases hm.symm.trans hmap
      | succ k =>
        rw [Function.iterate_succ_apply] at hmap
        obtain ⟨r, l, hr, hrmap, hl', hrest⟩ := ih
          (s := { s with lastDispatch := nextDispatch s.lastDispatch })
          (Nat.lt_of_succ_lt_succ hk) hmap
        refine ⟨r, l, hr, hrmap, hl', hcalm.bind ?_⟩
        rw [hm]
        exact hrest

theorem iterate_nextDispatch {l k : Nat} (h : l + k ≤ 1024) : nextDispatch^[k] l = l + k := by
  induction k with
  | zero => rfl
  | succ k ih =>
    rw [Function.iterate_succ_apply', ih (by omega), nextDispatch, if_neg (by omega), Nat.add_assoc]

/-- The counter comes by every number up to 1024, wherever it is. -/
theorem exists_nextDispatch {l : Nat} (hp : p ≤ 1024) :
    ∃ k, k ≤ 1025 + p ∧ nextDispatch^[k] l = p := by
  by_cases hlp : l ≤ p
  · refine ⟨p - l, by omega, ?_⟩
    rw [iterate_nextDispatch (by omega), Nat.add_sub_cancel' hlp]
  · -- up to 1024, back to 0, and up to `p`
    refine ⟨p + (1024 - l + 1), by omega, ?_⟩
    have htop : nextDispatch (nextDispatch^[1024 - l] l) = 0 := by
      by_cases hl : l ≤ 1024
      · rw [iterate_nextDispatch (by omega), Nat.add_sub_cancel' hl]
        rfl
      · rw [Nat.sub_eq_zero_of_le (by omega)]
        exact if_pos (by show l + 1 > 1024; omega)
    rw [Function.iterate_add_apply, Function.iterate_succ_apply', htop,
      iterate_nextDispatch (by omega), Nat.zero_add]

theorem exists_free {f : Nat → Bool} (h : (range N).countP f < N) :
    ∃ p, p < N ∧ f p = false := by
  by_contra hno
  have hall : (range N).countP f = (range N).length :=
    countP_eq_length.mpr (fun p hp => by
      by_contra hf
      exact hno ⟨p, mem_range.mp hp, by simpa using hf⟩)
  rw [length_range] at hall
  omega

theorem spanThreshold_pos (hN : 0 < N) : 0 < spanThreshold N :=
  Nat.lt_min.mpr ⟨by decide, hN⟩

/-- A free partition is found below the threshold. -/
theorem calm_free (hN' : N ≤ 1025) {m : Nat → Bool} (hfree : (range N).countP m < N) :
    ∃ r l, r < N ∧ m r = false ∧ (l = s.lastDispatch ∨ l ≤ 1024)
      ∧ Calm (dispatchFree N m (1025 + N)) s r { s with lastDispatch := l } := by
  obtain ⟨p, hp, hmap⟩ := exists_free hfree
  by_cases h1 : N = 1
  · subst h1
    obtain rfl : p = 0 := by omega
    refine ⟨0, s.lastDispatch, hp, hmap, .inl rfl, rfl, fun e I G Q => ?_⟩
    rw [dispatchFree]
    simp [dispatch, hmap]
  · obtain ⟨k, hk, hround⟩ := exists_nextDispatch (l := s.lastDispatch) (p := p) (by omega)
    obtain ⟨r, l, hr, hrmap, hl, hcalm⟩ := calm_dispatchFree (N := N) (m := m)
      (n := 1025 + N) (k := k) (by omega) (by omega)
      (by rw [hround, Nat.mod_eq_of_lt hp]; exact hmap)
    exact ⟨r, l, hr, hrmap, .inr hl, hcalm⟩

/-- The choice of `local_dispatch`, by the dentry alone. -/
theorem calm_choose (hN : 0 < N) (hN' : N ≤ 1025) (hz : s.mem Z = some dz)
    (hc : dz.localCounter < N)
    (hcount : dz.normalDirCount = (range N).countP dz.normalDirMap) :
    ∃ r l c, r < N ∧ (l = s.lastDispatch ∨ l ≤ 1024) ∧ c < N
      ∧ (if dz.normalDirCount < spanThreshold N then dz.normalDirMap r = false
        else dz.normalDirMap r = true)
      ∧ Calm (localDispatch N Z) s r
        { s.setD Z { dz with localCounter := c } with lastDispatch := l } := by
  by_cases hlt : dz.normalDirCount < spanThreshold N
  · have hfree : (range N).countP dz.normalDirMap < N := by
      rw [← hcount]
      exact lt_of_lt_of_le hlt (Nat.min_le_right ..)
    obtain ⟨r, l, hr, hrmap, hl, hcalm⟩ := calm_free (s := s) hN' hfree
    refine ⟨r, l, dz.localCounter, hr, hl, hc, by rw [if_pos hlt]; exact hrmap, ?_⟩
    have hsame : s.setD Z { dz with localCounter := dz.localCounter } = s :=
      (eq_one hz).symm
    rw [hsame]
    refine .bind (calm_sfsD hz) ?_
    rw [if_pos hlt]
    exact hcalm
  · have hpos : 0 < (range N).countP dz.normalDirMap := by
      rw [← hcount]
      exact lt_of_lt_of_le (spanThreshold_pos hN) (not_lt.mp hlt)
    obtain ⟨p, hp, hmap⟩ := countP_pos_of hpos
    obtain ⟨r, hr, hrmap, -, hcalm⟩ := calm_takeNormal hz hc hp hmap
    refine ⟨r, s.lastDispatch, (r + 1) % N, hr, .inl rfl, Nat.mod_lt _ hN,
      by rw [if_neg hlt]; exact hrmap, .bind (calm_sfsD hz) ?_⟩
    rw [if_neg hlt]
    exact hcalm

/-- A partition is chosen: one that may become normal, or one that is. -/
theorem calm_localDispatch (hN : 0 < N) (hN' : N ≤ 1025) (hl : s.lastDispatch ≤ 1024)
    (hz : s.mem Z = some dz) (hR : Reflects N s.disk Z dz) :
    ∃ r l dz', r < N ∧ l ≤ 1024 ∧ Reflects N s.disk Z dz'
      ∧ (dz.normalDirCount < spanThreshold N ∨ dz.normalDirMap r = true)
      ∧ Calm (localDispatch N Z) s r { s.setD Z dz' with lastDispatch := l } := by
  obtain ⟨r, l, c, hr, hl', hc, hchoice, hcalm⟩ :=
    calm_choose hN hN' hz hR.counter hR.count
  refine ⟨r, l, _, hr, ?_, hR.withCounter hc, ?_, hcalm⟩
  · rcases hl' with rfl | hl'
    · exact hl
    · exact hl'
  · split at hchoice
    · next hlt => exact .inl hlt
    · exact .inr hchoice

/-! ## The placements with 64 bits -/

/-- A dentry as the placements with 64 bits see it. -/
structure Pictures (d : SfsMount.SfsDentry) (dz : SfsDentry) : Prop where
  count : d.normalDirCount = dz.normalDirCount
  map : ∀ p, p < 64 → d.normalDirMap.getLsbD p = dz.normalDirMap p
  counter : d.localCounter = dz.localCounter

section Bits

variable {d d' : SfsMount.SfsDentry} {fuel n r l : Nat} {b : Bool}

theorem Pictures.testBitmap (h : Pictures d dz)
    (hb : SfsMount.testBitmap d.normalDirMap p = .ok b) : dz.normalDirMap p = b := by
  rw [SfsMount.testBitmap] at hb
  split at hb
  · next hp =>
    rw [← h.map p hp]
    exact Except.ok.inj hb
  · cases hb

theorem ok_of_bind {α β : Type} {x : Except SfsMount.Stop α} {f : α → Except SfsMount.Stop β}
    {b : β} (h : x >>= f = .ok b) : ∃ a, x = .ok a ∧ f a = .ok b := by
  cases x with
  | error e => cases h
  | ok a => exact ⟨a, rfl, h⟩

theorem modulo_ok {a c : Nat} (h : SfsMount.modulo a c = .ok r) : r = a % c := by
  rw [SfsMount.modulo] at h
  split at h
  · cases h
  · exact (Except.ok.inj h).symm

/-- The counter stays below `2 ^ 32`, so that nothing wraps. -/
theorem calm_of_dispatch (hl : s.lastDispatch ≤ 1024)
    (h : SfsMount.dispatch N s.lastDispatch = .ok (r, l)) :
    l ≤ 1024 ∧ Calm (dispatch N) s r { s with lastDispatch := l } := by
  by_cases hN : N = 1
  · rw [SfsMount.dispatch, if_pos hN] at h
    cases h
    refine ⟨hl, ?_⟩
    rw [dispatch, if_pos hN]
    exact .ret
  · rw [SfsMount.dispatch, if_neg hN] at h
    obtain ⟨ret, hret, h⟩ := ok_of_bind h
    cases h
    have hback : ((s.lastDispatch + 1) % 2 ^ 32 + (2 ^ 32 - 1)) % 2 ^ 32 = s.lastDispatch := by
      omega
    have hnext : nextDispatch s.lastDispatch
        = if (s.lastDispatch + 1) % 2 ^ 32 > 1024 then 0 else (s.lastDispatch + 1) % 2 ^ 32 := by
      rw [Nat.mod_eq_of_lt (by omega), nextDispatch]
    rw [← hnext, modulo_ok hret, hback]
    exact ⟨nextDispatch_le, calm_dispatch hN⟩

theorem calm_of_dispatchFree (hd : Pictures d dz) (hl : s.lastDispatch ≤ 1024) (hn : fuel ≤ n)
    (h : SfsMount.dispatchFree N d.normalDirMap fuel s.lastDispatch = .ok (r, l)) :
    Calm (dispatchFree N dz.normalDirMap n) s r { s with lastDispatch := l } := by
  induction fuel generalizing s n with
  | zero => cases h
  | succ fuel ih =>
    obtain ⟨n, rfl⟩ := Nat.exists_eq_add_of_le' (Nat.one_le_of_lt hn)
    obtain ⟨⟨ret, last⟩, hdis, h⟩ := ok_of_bind h
    obtain ⟨taken, htaken, h⟩ := ok_of_bind h
    obtain ⟨hl', hcalm⟩ := calm_of_dispatch hl hdis
    refine hcalm.bind ?_
    rw [hd.testBitmap htaken]
    cases taken with
    | true => exact ih (s := { s with lastDispatch := last }) hl' (Nat.le_of_succ_le_succ hn) h
    | false =>
      cases h
      exact .ret

theorem nextNormal_of (hd : Pictures d dz) (hn : fuel ≤ n) {c : Nat}
    (h : SfsMount.nextNormal N d.normalDirMap fuel c = .ok r) :
    nextNormal N dz.normalDirMap n c = some r := by
  induction fuel generalizing n c with
  | zero => cases h
  | succ fuel ih =>
    obtain ⟨n, rfl⟩ := Nat.exists_eq_add_of_le' (Nat.one_le_of_lt hn)
    obtain ⟨normal, hnormal, h⟩ := ok_of_bind h
    rw [nextNormal, hd.testBitmap hnormal]
    cases normal with
    | true => exact congrArg some (Except.ok.inj h)
    | false =>
      obtain ⟨c', hc', h⟩ := ok_of_bind h
      rw [← modulo_ok hc']
      exact ih (Nat.le_of_succ_le_succ hn) h

section

variable (hz : s.mem Z = some dz) (hd : Pictures d dz) (hN : fuel ≤ N)
include hz hd hN

theorem calm_of_takeNormal (h : SfsMount.takeNormal N fuel d = .ok (r, d')) :
    Calm (takeNormal N Z) s r (s.setD Z { dz with localCounter := d'.localCounter })
      ∧ Pictures d' { dz with localCounter := d'.localCounter } := by
  obtain ⟨ret, hret, h⟩ := ok_of_bind h
  obtain ⟨next, hnext, h⟩ := ok_of_bind h
  cases h
  have hr := nextNormal_of hd hN hret
  rw [hd.counter] at hr
  refine ⟨⟨rfl, fun e I G Q => ?_⟩, hd.count, hd.map, rfl⟩
  simp [takeNormal, hz, hr, modulo_ok hnext]

/-- A placement that the arithmetic with 64 bits gives is the one that the code makes. -/
theorem calm_of_localDispatch (hl : s.lastDispatch ≤ 1024)
    (h : SfsMount.localDispatch N fuel d s.lastDispatch = .ok (r, d', l)) :
    Calm (localDispatch N Z) s r
        { s.setD Z { dz with localCounter := d'.localCounter } with lastDispatch := l }
      ∧ Pictures d' { dz with localCounter := d'.localCounter } := by
  rw [SfsMount.localDispatch, hd.count] at h
  change (if dz.normalDirCount < spanThreshold N then _ else _) = _ at h
  split at h
  · next hlt =>
    obtain ⟨⟨ret, last⟩, hfree, h⟩ := ok_of_bind h
    cases h
    have hcalm := calm_of_dispatchFree (n := 1025 + N) hd hl (by omega) hfree
    rw [hd.counter]
    refine ⟨.bind (calm_sfsD hz) ?_, hd⟩
    have hsame : s.setD Z dz = s := (eq_one hz).symm
    rw [if_pos hlt, hsame]
    exact hcalm
  · next hge =>
    obtain ⟨⟨ret, taken⟩, htake, h⟩ := ok_of_bind h
    cases h
    obtain ⟨hcalm, hd'⟩ := calm_of_takeNormal hz hd hN htake
    refine ⟨.bind (calm_sfsD hz) ?_, hd'⟩
    rw [if_neg hge]
    exact hcalm

theorem calm_of_selectNormalDirRr {r : Option Nat}
    (h : SfsMount.selectNormalDirRr N fuel d = .ok (r, d')) :
    Calm (selectNormalDirRr N Z) s r (s.setD Z { dz with localCounter := d'.localCounter })
      ∧ Pictures d' { dz with localCounter := d'.localCounter } := by
  rw [SfsMount.selectNormalDirRr, hd.count] at h
  split at h
  · next h0 =>
    cases h
    have hsame : s.setD Z dz = s := (eq_one hz).symm
    rw [hd.counter]
    refine ⟨.bind (calm_sfsD hz) ?_, hd⟩
    rw [if_pos h0, hsame]
    exact .ret
  · next hne =>
    obtain ⟨⟨ret, taken⟩, htake, h⟩ := ok_of_bind h
    cases h
    obtain ⟨hcalm, hd'⟩ := calm_of_takeNormal hz hd hN htake
    refine ⟨.bind (calm_sfsD hz) ?_, hd'⟩
    rw [if_neg hne]
    exact hcalm.bind .ret

end

/-- `check_normal_dir` with a map of 64 bits returns the same and leaves the same. -/
theorem Pictures.check {env : SfsMount.Surroundings} {rs : List (Option Nat)} {err : Int}
    {disk : Disk} (h : Pictures d dz) (hr : rs[p]? = some (some r))
    (hn : env.normal r = true ↔ disk.node Z p = some (.dir true))
    (hrun : SfsMount.checkNormalDir env rs p d = some (err, d')) :
    err = disk.normalAnswer Z p ∧ Pictures d' (dz.check disk Z p) := by
  simp only [SfsMount.checkNormalDir, hr, hn] at hrun
  rw [Disk.normalAnswer, SfsDentry.check]
  split at hrun
  · next hnormal =>
    rw [if_pos hnormal, if_pos hnormal]
    split at hrun
    · cases hrun
      refine ⟨rfl, congrArg (· + 1) h.count, fun q hq => ?_, h.counter⟩
      by_cases hqp : q = p
      · subst hqp
        simp [SfsDentry.addNormal, hq]
      · have hbit : (1#64 <<< p).getLsbD q = false := by
          simp
          omega
        simp [SfsDentry.addNormal, hqp, hbit, h.map q hq]
    · cases hrun
  · next hnot =>
    rw [if_neg hnot, if_neg hnot]
    cases hrun
    exact ⟨rfl, h⟩

end Bits

end Sfs
