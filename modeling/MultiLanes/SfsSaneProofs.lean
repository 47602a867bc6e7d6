import MultiLanes.SfsDispatchProofs
import MultiLanes.SfsDirProofs

/-! # SFS — a name space that stays sane whatever is refused

`Sane` is what holds of a mount between two calls when every partition may refuse every
change: directories and files are told apart by their names, a directory is in a normal
partition of its parent, a file is in one partition and has no links, and the dentries
that are cached show the disks.

A call on one name is followed once, with `Minds`: its parts that change no disk run
alike in all surroundings (`goes_still_bind`), and a change is done or refused
(`goes_change`).  So it is known as well that a lookup, a create and a mkdir ask for
nothing but directories, marks and files (`SfsReq.Builds`). -/

namespace Sfs

open InteractProg Function Option

/-! ## What is asked of the partitions -/

/-- The requests that change no disk, or make directories and files. -/
def SfsReq.Builds : SfsReq → Prop
  | .mkdir _ _ | .setNormal _ _ | .create _ _ => True
  | q => q.durable = false

theorem builds_of_quiet {q : SfsReq} (h : q.durable = false) : q.Builds := by
  cases q <;> first | exact h | cases h

section Rules

variable {E : Surroundings} {α β : Type} {s t : Sys} {a : α} {x : Path}
  {p : Nat} {Q : α → Sys → Prop} {R : β → Sys → Prop}

/-- The runs of SFS code in surroundings that may refuse. -/
abbrev Goes (E : Surroundings) (c : Code α) (s : Sys) (Q : α → Sys → Prop) :
    Prop := Minds (S := SfsSig) E.env SfsReq.Builds c s Q

theorem goes_still {c : Code α} (h : Still c s a t) (hQ : Q a t) : Goes E c s Q := by
  refine minds_of_run (h := quietHandler) (fun {q s x t} hq => ?_) h hQ
  obtain ⟨hd, hs⟩ := quietHandler_eq_some hq
  refine ⟨builds_of_quiet hd, fun y u => ?_⟩
  rw [E.quiet hd, hs, Option.some.injEq, eq_comm]

/-- A part that runs in all surroundings alike. -/
theorem goes_still_bind {c : Code α} {f : α → Code β} (h : Still c s a t)
    (hf : Goes E (f a) t R) : Goes E (c >>= f) s R :=
  minds_bind.mpr (goes_still h hf)

/-- A change of the disks is made, or refused. -/
theorem goes_change {q : SfsReq} {f : q.Ans → Code β} (hb : q.Builds)
    (hd : q.durable = true) {y : q.Ans} (hq : sysHandler q s = some (y, t))
    (hdone : Goes E (f y) t R) (hrefused : ∀ y, q.Refused y → Goes E (f y) s R) :
    Goes E (InteractProg.perform (S := SfsSig) q >>= f) s R := by
  refine ⟨hb, fun z u hz => ?_⟩
  rcases E.durable hd hz with hs | ⟨hr, rfl⟩
  · cases hq.symm.trans hs
    exact hdone
  · exact hrefused z hr

theorem goes_mkdir {f : Int → Code β} (hn : s.disk.node x p = none)
    (hdone : Goes E (f 0) (s.onDisk (s.disk.addDir x p)) R)
    (hrefused : ∀ err, err ≠ 0 → Goes E (f err) s R) :
    Goes E (mkdir x p >>= f) s R := by
  have hq : sysHandler (.mkdir x p) s = some ((0 : Int), s.onDisk (s.disk.addDir x p)) := by
    simp only [sysHandler, Disk.step, hn, map_some]
  exact goes_change trivial rfl hq hdone hrefused

theorem goes_setNormal {f : Int → Code β} {b : Bool} (hn : s.disk.node x p = some (.dir b))
    (hdone : Goes E (f 0) (s.onDisk (s.disk.setNode x p (some (.dir true)))) R)
    (hrefused : ∀ err, err ≠ 0 → Goes E (f err) s R) :
    Goes E (setNormal x p >>= f) s R := by
  have hq : sysHandler (.setNormal x p) s
      = some ((0 : Int), s.onDisk (s.disk.setNode x p (some (.dir true)))) := by
    simp only [sysHandler, Disk.step, hn, map_some]
  exact goes_change trivial rfl hq hdone hrefused

theorem goes_create {f : Except Int Nat → Code β} (hn : s.disk.node x p = none)
    (hdone : Goes E (f (.ok s.disk.next)) (s.onDisk (s.disk.addFile x p)) R)
    (hrefused : ∀ err, err ≠ 0 → Goes E (f (.error err)) s R) :
    Goes E (create x p >>= f) s R := by
  have hq : sysHandler (.create x p) s = some ((.ok s.disk.next : Except Int Nat),
          s.onDisk (s.disk.addFile x p)) := by
    simp only [sysHandler, Disk.step, hn, map_some]
  refine goes_change trivial rfl hq hdone ?_
  rintro _ ⟨err, herr, rfl⟩
  exact hrefused err herr

end Rules

/-! ## Disks with plain files -/

/-- A file has no links and is in one partition, where its directory is normal;
    the names that are in use are known. -/
structure Plain (d : Disk) : Prop where
  attr : ∀ {x p i}, d.node x p = some (.file i) → d.attr p i = none
  normal : ∀ {x p i}, d.node x p = some (.file i) → d.node x.tail p = some (.dir true)
  alone : ∀ {x p i}, d.node x p = some (.file i) → ∀ q, q ≠ p → d.node x q = none
  fan : ∀ {c Z p}, d.node (c :: Z) p ≠ none → c < d.fan

section Disks

variable {N : Nat} {D : Path → Prop} {d : Disk} {x y Z : Path} {p q i : Nat}

/-- A name comes into use. -/
theorem Plain.grow (h : Plain d) (x : Path) : Plain (d.grow x) where
  attr := h.attr
  normal := h.normal
  alone := h.alone
  fan hn := lt_of_lt_of_le (h.fan hn) (Nat.le_max_left ..)

theorem fan_grow {c : Nat} {Z : Path} (hx : x = c :: Z) : c < (d.grow x).fan := by
  subst hx
  exact lt_of_lt_of_le (Nat.lt_succ_self c) (Nat.le_max_right ..)

/-- A directory is made, or marked, where there is no file of the name. -/
theorem Plain.setDir (h : Plain d) (hf : ∀ q i, d.node x q ≠ some (.file i))
    (hx : ∀ {c Z}, x = c :: Z → c < d.fan) {b : Bool}
    (hb : d.node x p = some (.dir true) → b = true) :
    Plain (d.setNode x p (some (.dir b))) := by
  -- the files are those that were there, and none is of the name `x`
  have hold : ∀ {y q i}, (d.setNode x p (some (.dir b))).node y q
      = some (.file i) → y ≠ x ∧ d.node y q = some (.file i) := by
    intro y q i hy
    rw [setNode_node] at hy
    split at hy
    · cases hy
    · refine ⟨?_, hy⟩
      rintro rfl
      exact hf q i hy
  refine ⟨fun {y q i} hy => h.attr (hold hy).2, fun {y q i} hy => ?_,
    fun {y q i} hy r hr => ?_, fun {c Z q} hn => ?_⟩
  · have hn := h.normal (hold hy).2
    rw [setNode_node]
    split
    · next hxq =>
      rw [hxq.1, hxq.2] at hn
      rw [hb hn]
    · exact hn
  · rw [setNode_of_ne (hold hy).1]
    exact h.alone (hold hy).2 r hr
  · rw [setNode_node] at hn
    split at hn
    · next hxq => exact hx hxq.1.symm
    · exact h.fan hn

theorem Plain.addDir (h : Plain d) (hf : ∀ q i, d.node x q ≠ some (.file i))
    (hn : d.node x p = none) : Plain (d.addDir x p) :=
  (h.grow x).setDir (b := false) hf fan_grow fun hp => nomatch hn.symm.trans hp

/-- `d'` has what `d` has, and the file `i` under the name `x` in partition `p`,
    without links. -/
structure Disk.Gains (d d' : Disk) (x : Path) (p i : Nat) : Prop where
  node : ∀ y q, d'.node y q = if y = x ∧ q = p then some (.file i) else d.node y q
  own : d'.attr p i = none
  attr : ∀ {q j}, d.attr q j = none → d'.attr q j = none
  fan : (d.grow x).fan ≤ d'.fan

theorem gains_addFile : d.Gains (d.addFile x p) x p d.next where
  node _ _ := rfl
  own := if_pos ⟨rfl, rfl⟩
  attr {q j} h := by
    show (if q = p ∧ j = d.next then none else d.attr q j) = none
    rw [h, ite_self]
  fan := le_refl _

/-- A file under a name that nothing has. -/
theorem Plain.gains {d' : Disk} (h : Plain d) (g : d.Gains d' x p i) (hx : x ≠ [])
    (hn : ∀ q, d.node x q = none) (hp : d.node x.tail p = some (.dir true)) : Plain d' := by
  -- what was a normal directory still is
  have hdir : ∀ {y q}, d.node y q = some (.dir true) → d'.node y q = some (.dir true) := by
    intro y q hy
    rw [g.node, if_neg]
    · exact hy
    · rintro ⟨rfl, rfl⟩
      cases (hn q).symm.trans hy
  refine ⟨fun {y q j} hy => ?_, fun {y q j} hy => ?_,
    fun {y q j} hy r hr => ?_, fun {c Z q} hc => ?_⟩
  · rw [g.node] at hy
    split at hy
    · next hxq =>
      cases Obj.file.inj (Option.some.inj hy)
      rw [hxq.2]
      exact g.own
    · exact g.attr (h.attr hy)
  · rw [g.node] at hy
    split at hy
    · next hxq => exact hdir (hxq.1 ▸ hxq.2 ▸ hp)
    · exact hdir (h.normal hy)
  · rw [g.node] at hy ⊢
    split at hy
    · next hxq =>
      rw [if_neg fun h => hr (h.2.trans hxq.2.symm), hxq.1]
      exact hn r
    · next hxq =>
      have hne : y ≠ x := by
        rintro rfl
        cases (hn q).symm.trans hy
      rw [if_neg fun h => hne h.1]
      exact h.alone hy r hr
  · refine lt_of_lt_of_le ?_ g.fan
    rw [g.node] at hc
    split at hc
    · next hxq => exact fan_grow (d := d) hxq.1.symm
    · exact (h.grow x).fan hc

/-- A new directory in a normal partition of its parent. -/
theorem World.newDir (w : World N D d) (hx : x ≠ []) (hD : D x.tail)
    (hn : ∀ q, d.node x q = none) (hp : d.node x.tail p = some (.dir true)) :
    World N (fun z => D z ∨ z = x) (d.addDir x p) := by
  have hnode : ∀ y q, (d.addDir x p).node y q
      = if y = x ∧ q = p then some (.dir false) else d.node y q :=
    fun _ _ => rfl
  have hkeep : ∀ {y q o}, d.node y q = some o → (d.addDir x p).node y q = some o := by
    intro y q o hy
    rw [hnode, if_neg]
    · exact hy
    · rintro ⟨rfl, rfl⟩
      cases (hn q).symm.trans hy
  obtain ⟨c, Z, rfl⟩ := List.exists_cons_of_ne_nil hx
  refine ⟨.inl w.root, ?_, fun {y q o} hy => ?_, fun {q} hq => ?_,
    fun {y q o} hy => ?_, fun {b Y q o} hy => ?_, ?_⟩
  · rintro b Y (hY | hY)
    · exact .inl (w.up hY)
    · obtain ⟨-, rfl⟩ := List.cons.inj hY
      exact .inl hD
  · rw [hnode] at hy
    split at hy
    · next hxq => exact hxq.2 ▸ w.within hp
    · exact w.within hy
  · obtain ⟨b, hb⟩ := w.rooted hq
    exact ⟨b, hkeep hb⟩
  · rw [hnode] at hy
    split at hy
    · next hxq =>
      cases hy
      exact ⟨fun _ => .inr hxq.1, fun _ => ⟨false, rfl⟩⟩
    · have hne : y ≠ c :: Z := by
        rintro rfl
        cases (hn q).symm.trans hy
      rw [w.dir_iff hy, or_iff_left hne]
  · rw [hnode] at hy
    split at hy
    · next hxq =>
      obtain ⟨⟨-, rfl⟩, rfl⟩ : (b = c ∧ Y = Z) ∧ q = p :=
        ⟨List.cons.inj hxq.1, hxq.2⟩
      exact ⟨true, hkeep hp⟩
    · obtain ⟨b', hb'⟩ := w.held hy
      exact ⟨b', hkeep hb'⟩
  · rintro b Y (hY | hY)
    · obtain ⟨q, hq, o, ho⟩ := w.shown hY
      exact ⟨q, hkeep hq, o, hkeep ho⟩
    · obtain ⟨rfl, rfl⟩ := List.cons.inj hY
      refine ⟨p, hkeep hp, .dir false, ?_⟩
      rw [hnode, if_pos ⟨rfl, rfl⟩]

end Disks

/-! ## Dentries -/

/-- The dentry of a directory: it shows the disks, and the partition that is
    recorded as the first normal one is normal. -/
structure Depicts (N : Nat) (d : Disk) (Z : Path) (dz : SfsDentry) : Prop
    extends Reflects N d Z dz where
  recorded : Recorded d Z dz
  noFile : dz.replicaId = none

/-- The dentry of a name that is no directory. -/
structure Leaf (N : Nat) (d : Disk) (z : Path) (dz : SfsDentry) : Prop where
  sound : Sound d z dz
  map : ∀ p, dz.normalDirMap p = false
  count : dz.normalDirCount = 0
  counter : dz.localCounter < N
  metaId : dz.metaId = none
  seen : ∀ {p}, dz.replicaId = some p → dz.replicas p ≠ none
  file : dz.positive = true → ∃ p i, dz.replicaId = some p ∧ d.node z p = some (.file i)
  absent : dz.positive = false → dz.replicaId = none ∧ ∀ p, d.node z p = none

section Dentries

variable {N : Nat} {d d' : Disk} {z : Path} {dz : SfsDentry} {p i : Nat}

theorem Sound.congr (h : Sound d z dz) (hn : ∀ p, d'.node z p = d.node z p) : Sound d' z dz := by
  intro p
  rw [Disk.slot, hn]
  exact h p

theorem Depicts.congr (h : Depicts N d z dz)
    (hn : ∀ p, d'.node z p = d.node z p) : Depicts N d' z dz where
  toReflects := h.toReflects.congr hn
  recorded hc := by
    obtain ⟨f, hf, hnode⟩ := h.recorded hc
    exact ⟨f, hf, (hn f).trans hnode⟩
  noFile := h.noFile

theorem Leaf.congr (h : Leaf N d z dz) (hn : ∀ p, d'.node z p = d.node z p) : Leaf N d' z dz where
  sound := h.sound.congr hn
  map := h.map
  count := h.count
  counter := h.counter
  metaId := h.metaId
  seen := h.seen
  file hp := by
    obtain ⟨p, i, hr, hi⟩ := h.file hp
    exact ⟨p, i, hr, (hn p).trans hi⟩
  absent hp := by
    obtain ⟨hr, hnone⟩ := h.absent hp
    exact ⟨hr, fun p => (hn p).trans (hnone p)⟩

/-- The slot of a file. -/
theorem Leaf.slot (h : Leaf N d z dz) (hr : dz.replicaId = some p)
    (hn : d.node z p = some (.file i)) :
    dz.replicas p = some ⟨z, some (.file i)⟩ := by
  rw [(h.sound p).resolve_left (h.seen hr), Disk.slot, hn]
  rfl

/-- A replica is made, and the slot has its dentry. -/
theorem Depicts.addDir (h : Depicts N d z dz) (hn : d.node z p = none) :
    Depicts N (d.addDir z p) z (dz.setReplica p (some ⟨z, some .dir⟩)) where
  toReflects := h.toReflects.addDir hn
  recorded hc := by
    obtain ⟨f, hf, hnode⟩ := h.recorded hc
    refine ⟨f, hf, ?_⟩
    have hne : f ≠ p := by
      rintro rfl
      cases hn.symm.trans hnode
    exact (setNode_of_ne_part hne).trans hnode
  noFile := h.noFile

/-- A replica is marked normal. -/
theorem Depicts.turn {D : Path → Prop} (w : World N D d)
    (h : Depicts N d z dz) (hn : d.node z p = some (.dir false)) :
    Depicts N (d.setNode z p (some (.dir true))) z (dz.turnNormal p) where
  toReflects := h.toReflects.turn w hn
  recorded _ := by
    by_cases h0 : dz.normalDirCount = 0
    · exact ⟨p, if_pos h0, if_pos ⟨rfl, rfl⟩⟩
    · obtain ⟨f, hf, hnode⟩ := h.recorded h0
      refine ⟨f, (if_neg h0).trans hf, ?_⟩
      rw [setNode_node]
      split
      · rfl
      · exact hnode
  noFile := h.noFile

theorem Leaf.fill (h : Leaf N d z dz) (p : Nat) : Leaf N d z (dz.fill d z p) where
  sound := h.sound.fill p
  map := h.map
  count := h.count
  counter := h.counter
  metaId := h.metaId
  seen {q} hq := by
    by_cases hqp : q = p
    · rw [hqp, SfsDentry.fill, setReplica_self]
      exact some_ne_none _
    · rw [SfsDentry.fill, setReplica_of_ne hqp]
      exact h.seen hq
  file := h.file
  absent := h.absent

/-- A name that nothing has, before its first lookup. -/
theorem leaf_fresh (hN : 0 < N) (hn : ∀ p, d.node z p = none) : Leaf N d z .fresh where
  sound := fresh_sound
  map _ := rfl
  count := rfl
  counter := hN
  metaId := rfl
  seen := nofun
  file := nofun
  absent _ := ⟨rfl, hn⟩

/-- A name that nothing has becomes a directory. -/
theorem Leaf.newDir (h : Leaf N d z dz) (hn : ∀ q, d.node z q = none) :
    Depicts N (d.addDir z p) z { dz.setReplica p (some ⟨z, some .dir⟩) with positive := true } where
  toReflects := by
    have hR : Reflects N d z { dz with positive := true } := by
      refine ⟨rfl, h.sound, fun {q o} ho => (nomatch (hn q).symm.trans ho),
        fun q => ?_, ?_, h.counter⟩
      · show dz.normalDirMap q = true ↔ _
        rw [h.map, hn]
        simp
      · show dz.normalDirCount = (List.range N).countP dz.normalDirMap
        rw [h.count, eq_comm, List.countP_eq_zero]
        exact fun q _ => by rw [h.map]; exact nofun
    exact hR.addDir (hn p)
  recorded hc := absurd h.count hc
  noFile := by
    show dz.replicaId = none
    by_cases hp : dz.positive = true
    · obtain ⟨q, i, -, hi⟩ := h.file hp
      cases (hn q).symm.trans hi
    · exact (h.absent (by simpa using hp)).1

/-- A name that nothing has becomes a file. -/
theorem Leaf.gains (h : Leaf N d z dz) (g : d.Gains d' z p i) :
    Leaf N d' z { dz.setReplica p (some ⟨z, some (.file i)⟩) with
      positive := true
      replicaId := some p } where
  sound q := by
    have hnode : d'.node z q = if q = p then some (.file i) else d.node z q := by
      rw [g.node]
      simp only [true_and]
    show (dz.setReplica p _).replicas q = none ∨ _
    by_cases hq : q = p
    · refine .inr ?_
      rw [hq] at hnode ⊢
      rw [setReplica_self, Disk.slot, hnode, if_pos rfl]
      rfl
    · rw [setReplica_of_ne hq, Disk.slot, hnode, if_neg hq]
      exact h.sound q
  map := h.map
  count := h.count
  counter := h.counter
  metaId := h.metaId
  seen {q} hq := by
    obtain rfl : p = q := Option.some.inj hq
    show (dz.setReplica p _).replicas p ≠ none
    rw [setReplica_self]
    exact some_ne_none _
  file _ := ⟨p, i, rfl, (g.node z p).trans (if_pos ⟨rfl, rfl⟩)⟩
  absent := nofun

end Dentries

/-! ## Sane states -/

/-- A mount between two calls; `D` are the directories. -/
structure Sane (N : Nat) (D : Path → Prop) (s : Sys) : Prop where
  world : World N D s.disk
  plain : Plain s.disk
  dirs : ∀ {Z dz}, D Z → s.mem Z = some dz → Depicts N s.disk Z dz
  leaves : ∀ {z dz}, ¬ D z → s.mem z = some dz → Leaf N s.disk z dz
  above : ∀ {a Z}, s.mem (a :: Z) ≠ none → s.mem Z ≠ none

/-- What the making of replicas leaves as it is. -/
structure Frame (D : Path → Prop) (s t : Sys) : Prop where
  mem : ∀ {z}, ¬ D z → t.mem z = s.mem z
  node : ∀ {z}, ¬ D z → ∀ p, t.disk.node z p = s.disk.node z p
  cached : ∀ {z}, s.mem z ≠ none → t.mem z ≠ none

section Sane

variable {N : Nat} {D : Path → Prop} {s t u : Sys} {d' : Disk} {x z Z : Path}
  {dx dz : SfsDentry} {p : Nat}

theorem Frame.refl (D : Path → Prop) (s : Sys) : Frame D s s :=
  ⟨fun _ => rfl, fun _ _ => rfl, id⟩

theorem Frame.trans (h : Frame D s t) (h' : Frame D t u) : Frame D s u where
  mem hz := (h'.mem hz).trans (h.mem hz)
  node hz p := (h'.node hz p).trans (h.node hz p)
  cached hz := h'.cached (h.cached hz)

theorem one_cached (h : s.mem z ≠ none) : (s.one x dx d').mem z ≠ none := by
  by_cases hz : z = x
  · rw [hz, one_mem]
    exact nofun
  · rw [one_mem_of_ne hz]
    exact h

theorem frame_one (hx : D x) (hn : ∀ {z}, z ≠ x → ∀ p, d'.node z p = s.disk.node z p) :
    Frame D s (s.one x dx d') where
  mem hz := one_mem_of_ne (dir_ne hx hz).symm
  node hz p := hn (dir_ne hx hz).symm p
  cached := one_cached

section

variable (h : Sane N D s)
include h

/-- The VFS tells directories by their dentries. -/
theorem Sane.dir_iff (hx : s.mem x = some dx) : dx.OfDir ↔ D x := by
  constructor
  · rintro ⟨hpos, hid⟩
    by_contra hD
    obtain ⟨p, i, hr, -⟩ := (h.leaves hD hx).file hpos
    cases hid.symm.trans hr
  · exact fun hD => ⟨(h.dirs hD hx).positive, (h.dirs hD hx).noFile⟩

theorem Sane.not_dir (hx : s.mem x = some dx) (hp : dx.positive = false) : ¬ D x :=
  fun hD => nomatch hp.symm.trans (h.dirs hD hx).positive

/-- Code on one name has run: its dentry and its place on the disks have changed, and it
    may have become a directory, or be none any more. -/
theorem Sane.turn {D' : Path → Prop} (hD' : ∀ {z}, z ≠ x → (D' z ↔ D z))
    (hup : ∀ {a Z}, x = a :: Z → s.mem Z ≠ none) (w : World N D' d')
    (hplain : Plain d') (hn : ∀ {z}, z ≠ x → ∀ p, d'.node z p = s.disk.node z p)
    (hd : D' x → Depicts N d' x dx) (hl : ¬ D' x → Leaf N d' x dx) :
    Sane N D' (s.one x dx d') where
  world := w
  plain := hplain
  dirs {Z dz} hZ hz := by
    rcases one_some hz with ⟨rfl, rfl⟩ | ⟨hZx, hz⟩
    · exact hd hZ
    · exact (h.dirs ((hD' hZx).mp hZ) hz).congr (hn hZx)
  leaves {z dz} hD hz := by
    rcases one_some hz with ⟨rfl, rfl⟩ | ⟨hzx, hz⟩
    · exact hl hD
    · exact (h.leaves (fun hz' => hD ((hD' hzx).mpr hz')) hz).congr (hn hzx)
  above {a Z} hc := by
    by_cases hx : a :: Z = x
    · exact one_cached (hup hx.symm)
    · rw [one_mem_of_ne hx] at hc
      exact one_cached (h.above hc)

theorem Sane.one (hup : ∀ {a Z}, x = a :: Z → s.mem Z ≠ none) (w : World N D d')
    (hplain : Plain d') (hn : ∀ {z}, z ≠ x → ∀ p, d'.node z p = s.disk.node z p)
    (hd : D x → Depicts N d' x dx) (hl : ¬ D x → Leaf N d' x dx) :
    Sane N D (s.one x dx d') :=
  h.turn (fun _ => Iff.rfl) hup w hplain hn hd hl

theorem Sane.up (hx : s.mem x = some dx) {a : Nat} {Z : Path}
    (hxZ : x = a :: Z) : s.mem Z ≠ none := by
  subst hxZ
  exact h.above (by rw [hx]; exact nofun)

/-- The dentry of a directory is stored anew. -/
theorem Sane.setDir (hD : D x) (hx : s.mem x = some dz)
    (hd : Depicts N s.disk x dx) : Sane N D (s.setD x dx) :=
  h.one (h.up hx) h.world h.plain (fun _ _ => rfl) (fun _ => hd) fun hn => absurd hD hn

/-- The dentry of another name is stored anew. -/
theorem Sane.setLeaf (hD : ¬ D x)
    (hup : ∀ {a Z}, x = a :: Z → s.mem Z ≠ none) (hl : Leaf N s.disk x dx) :
    Sane N D (s.setD x dx) :=
  h.one hup h.world h.plain (fun _ _ => rfl) (fun hx => absurd hx hD) fun _ => hl

/-- A dentry with nothing below it is taken from the cache. -/
theorem Sane.forget (hc : ∀ a, s.mem (a :: x) = none) : Sane N D (s.forget x) := by
  refine ⟨h.world, h.plain, fun hD hz => h.dirs hD (forget_some hz).2,
    fun hD hz => h.leaves hD (forget_some hz).2, fun {a Z} hz => ?_⟩
  obtain ⟨dz, hdz⟩ := ne_none_iff_exists'.mp hz
  have hmem := (forget_some hdz).2
  have hne : Z ≠ x := by
    rintro rfl
    cases (hc a).symm.trans hmem
  show update s.mem x none Z ≠ none
  rw [update_of_ne hne]
  exact h.above (by rw [hmem]; exact some_ne_none _)

end

/-- Fresh partitions: a root in each, without a mark. -/
def blank (N : Nat) : Disk where
  node x p := if x = [] ∧ p < N then some (.dir false) else none
  attr _ _ := none
  next := 0
  fan := 0

theorem blank_node {y : Path} {q : Nat} {o : Obj}
    (h : (blank N).node y q = some o) : y = [] ∧ q < N ∧ o = .dir false := by
  simp only [blank] at h
  split at h
  · next hy => exact ⟨hy.1, hy.2, (Option.some.inj h).symm⟩
  · cases h

theorem world_blank : World N (· = []) (blank N) where
  root := rfl
  up := nofun
  within h := (blank_node h).2.1
  rooted hp := ⟨false, if_pos ⟨rfl, hp⟩⟩
  dir_iff h := by
    obtain ⟨rfl, -, rfl⟩ := blank_node h
    exact ⟨fun _ => rfl, fun _ => ⟨false, rfl⟩⟩
  held h := nomatch (blank_node h).1
  shown := nofun

theorem plain_blank : Plain (blank N) where
  attr _ := rfl
  normal h := nomatch (blank_node h).2.2
  alone h := nomatch (blank_node h).2.2
  fan h := by
    obtain ⟨o, ho⟩ := ne_none_iff_exists'.mp h
    cases (blank_node ho).1

end Sane

end Sfs
