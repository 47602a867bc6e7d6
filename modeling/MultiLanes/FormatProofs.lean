import Mathlib.Data.Nat.Digits.Lemmas

/-! # Formatted integers

Printing integers in decimal after a format, as `sprintf` does, and reading them back,
as `sscanf` does.  A format is a list of conversions and literal bytes; white space is
no literal.

What is printed is read back (`scan_print`) when the format parts its integers by
something that is no digit, whatever follows the text that is not a digit either. -/

namespace TextFormat

open List

/-! ## Digits -/

/-- The character of a digit. -/
def digit (d : Nat) : UInt8 := UInt8.ofNat (48 + d)

/-- `isdigit`. -/
def isDigit (b : UInt8) : Bool := 48 ≤ b.toNat && b.toNat ≤ 57

/-- The value of a digit. -/
def digitVal (b : UInt8) : Nat := b.toNat - 48

theorem digit_toNat {d : Nat} (h : d < 10) : (digit d).toNat = 48 + d := by
  rw [digit, UInt8.toNat_ofNat', Nat.mod_eq_of_lt (by omega)]

theorem isDigit_digit {d : Nat} (h : d < 10) : isDigit (digit d) = true := by
  rw [isDigit, digit_toNat h]
  simp
  omega

theorem digitVal_digit {d : Nat} (h : d < 10) : digitVal (digit d) = d := by
  rw [digitVal, digit_toNat h, Nat.add_sub_cancel_left]

/-! ## Natural numbers -/

/-- `%u`: the digits, the highest first. -/
def natText (n : Nat) : List UInt8 :=
  if n = 0 then [digit 0] else ((Nat.digits 10 n).map digit).reverse

/-- The digits at the front, and what is behind them. -/
def scanNat : Nat → List UInt8 → Nat × List UInt8
  | acc, [] => (acc, [])
  | acc, b :: bs =>
    if isDigit b then scanNat (acc * 10 + digitVal b) bs else (acc, b :: bs)

/-- A text that no digit begins. -/
def Blunt (bs : List UInt8) : Prop := ∀ b ∈ bs.head?, isDigit b = false

/-- Where no digit is, nothing is read. -/
theorem scanNat_blunt {bs : List UInt8} (h : Blunt bs) (acc : Nat) :
    scanNat acc bs = (acc, bs) := by
  cases bs with
  | nil => rfl
  | cons b bs => rw [scanNat, h b rfl, if_neg Bool.false_ne_true]

/-- All digits are read, and nothing behind them. -/
theorem scanNat_digits {ds : List Nat} (hds : ∀ d ∈ ds, d < 10)
    {bs : List UInt8} (h : Blunt bs) (acc : Nat) :
    scanNat acc (ds.map digit ++ bs) = (ds.foldl (fun a d => a * 10 + d) acc, bs) := by
  induction ds generalizing acc with
  | nil => exact scanNat_blunt h acc
  | cons d ds ih =>
    have hd := hds d (.head _)
    rw [map_cons, cons_append, scanNat, isDigit_digit hd, if_pos rfl, digitVal_digit hd,
      ih fun x hx => hds x (.tail _ hx)]
    rfl

/-- The text is that of its digits, the highest first. -/
theorem natText_eq (n : Nat) : ∃ ds, natText n = ds.map digit ∧ ds ≠ []
    ∧ (∀ d ∈ ds, d < 10) ∧ ds.foldl (fun a d => a * 10 + d) 0 = n := by
  by_cases hn : n = 0
  · exact ⟨[0], by rw [natText, if_pos hn]; rfl, by simp, by simp, hn.symm⟩
  · refine ⟨(Nat.digits 10 n).reverse, ?_, ?_, fun d hd => ?_, ?_⟩
    · rw [natText, if_neg hn, map_reverse]
    · rw [ne_eq, reverse_eq_nil_iff]
      exact Nat.digits_ne_nil_iff_ne_zero.mpr hn
    · exact Nat.digits_lt_base (by decide) (mem_reverse.mp hd)
    · rw [foldl_reverse]
      conv_rhs => rw [← Nat.ofDigits_digits 10 n, Nat.ofDigits_eq_foldr]
      congr 1
      funext d a
      rw [Nat.cast_id, mul_comm, add_comm]

/-- A number is read back. -/
theorem scanNat_natText (n : Nat) {bs : List UInt8} (h : Blunt bs) :
    scanNat 0 (natText n ++ bs) = (n, bs) := by
  obtain ⟨ds, htext, -, hds, hval⟩ := natText_eq n
  rw [htext, scanNat_digits hds h, hval]

/-- A digit comes first. -/
theorem natText_cons (n : Nat) : ∃ b bs, natText n = b :: bs ∧ isDigit b = true := by
  obtain ⟨ds, htext, hne, hds, -⟩ := natText_eq n
  obtain ⟨d, ds, rfl⟩ := exists_cons_of_ne_nil hne
  exact ⟨_, _, htext, isDigit_digit (hds d (.head _))⟩

/-- A number below a power of ten has no more digits than its exponent. -/
theorem natText_length_le {n k : Nat} (hk : 0 < k) (hn : n < 10 ^ k) : (natText n).length ≤ k := by
  rw [natText]
  split
  · exact hk
  · rw [length_reverse, length_map]
    exact (Nat.digits_length_le_iff (by decide) n).mpr hn

/-! ## Integers -/

/-- `%d`. -/
def intText (z : Int) : List UInt8 :=
  if z < 0 then 45 :: natText z.natAbs else natText z.natAbs

/-- `isspace`. -/
def isSpace (b : UInt8) : Bool := b = 32 || (9 ≤ b.toNat && b.toNat ≤ 13)

/-- A conversion: white space is skipped, a sign may come, and a digit must. -/
def scanInt (bs : List UInt8) : Option (Int × List UInt8) :=
  match bs.dropWhile isSpace with
  | [] => none
  | b :: bs =>
    if b = 45 then
      if (bs.head?.map isDigit).getD false then
        some (-((scanNat 0 bs).1 : Int), (scanNat 0 bs).2)
      else none
    else if isDigit b then
      some ((scanNat 0 (b :: bs)).1, (scanNat 0 (b :: bs)).2)
    else none

/-- A digit is neither white space nor a sign. -/
theorem isSpace_of_isDigit {b : UInt8} (h : isDigit b = true) : isSpace b = false ∧ b ≠ 45 := by
  rw [isDigit, Bool.and_eq_true, decide_eq_true_eq, decide_eq_true_eq] at h
  constructor
  · rw [isSpace, Bool.or_eq_false_iff, decide_eq_false_iff_not]
    refine ⟨?_, by simp; omega⟩
    rintro rfl
    exact absurd h.1 (by decide)
  · rintro rfl
    exact absurd h.1 (by decide)

/-- An integer is read back. -/
theorem scanInt_intText (z : Int) {bs : List UInt8} (h : Blunt bs) :
    scanInt (intText z ++ bs) = some (z, bs) := by
  have hscan := scanNat_natText z.natAbs h
  obtain ⟨b, text, htext, hb⟩ := natText_cons z.natAbs
  rw [htext, cons_append] at hscan
  obtain ⟨hspace, hsign⟩ := isSpace_of_isDigit hb
  rw [intText, htext]
  by_cases hz : z < 0
  · -- the sign, and a digit behind it
    rw [if_pos hz, scanInt, cons_append, dropWhile_cons_of_neg (by decide)]
    show (if (45 : UInt8) = 45 then _ else _) = _
    rw [if_pos rfl, cons_append, List.head?_cons, Option.map_some,
      Option.getD_some, hb, if_pos rfl, hscan]
    rw [Int.ofNat_natAbs_of_nonpos (Int.le_of_lt hz), Int.neg_neg]
  · rw [if_neg hz, scanInt, cons_append,
      dropWhile_cons_of_neg (by rw [hspace]; exact Bool.false_ne_true)]
    show (if b = 45 then _ else if isDigit b = true then _ else _) = _
    rw [if_neg hsign, if_pos hb, hscan]
    rw [Int.natAbs_of_nonneg (Int.not_lt.mp hz)]

/-- A sign takes one byte more. -/
theorem intText_length_le {z : Int} {k : Nat} (hk : 0 < k) (hz : z.natAbs < 10 ^ k) :
    (intText z).length ≤ k + if z < 0 then 1 else 0 := by
  have hlen := natText_length_le hk hz
  rw [intText]
  split
  · exact Nat.succ_le_succ hlen
  · exact hlen

/-! ## Formats -/

/-- `%d`, or a byte as it is. -/
inductive Item where
  | int
  | lit (b : UInt8)
deriving DecidableEq, Repr

/-- `sprintf`. -/
def print : List Item → List Int → List UInt8
  | .int :: fmt, z :: zs => intText z ++ print fmt zs
  | .lit b :: fmt, zs => b :: print fmt zs
  | _, _ => []

/-- The values of the conversions, up to the first that fails or the first
    literal that is not there. -/
def scan : List Item → List UInt8 → List Int
  | [], _ => []
  | .int :: fmt, bs =>
    match scanInt bs with
    | some (z, bs) => z :: scan fmt bs
    | none => []
  | .lit b :: fmt, bs => if bs.head? = some b then scan fmt bs.tail else []

/-- How many integers the format takes. -/
def ints : List Item → Nat
  | [] => 0
  | .int :: fmt => ints fmt + 1
  | .lit _ :: fmt => ints fmt

/-- Behind an integer comes no integer and no digit. -/
def Parted : List Item → Prop
  | [] => True
  | .lit _ :: fmt => Parted fmt
  | .int :: fmt => (∀ i ∈ fmt.head?, ∃ b, i = .lit b ∧ isDigit b = false) ∧ Parted fmt

/-- No digit follows the integer that was printed before. -/
theorem blunt_print {fmt : List Item} {zs : List Int} {bs : List UInt8}
    (hfmt : ∀ i ∈ fmt.head?, ∃ b, i = .lit b ∧ isDigit b = false)
    (h : Blunt bs) : Blunt (print fmt zs ++ bs) := by
  cases fmt with
  | nil => exact h
  | cons i fmt =>
    obtain ⟨b, rfl, hb⟩ := hfmt i rfl
    rintro b' ⟨⟩
    exact hb

/-- What is printed is read back. -/
theorem scan_print {fmt : List Item} (hfmt : Parted fmt) {zs : List Int}
    (hzs : zs.length = ints fmt) {bs : List UInt8} (h : Blunt bs) :
    scan fmt (print fmt zs ++ bs) = zs := by
  induction fmt generalizing zs with
  | nil => exact (length_eq_zero_iff.mp hzs).symm
  | cons i fmt ih =>
    cases i with
    | lit b =>
      have hrest := ih hfmt hzs
      show (if some b = some b then scan fmt _ else []) = zs
      rw [if_pos rfl]
      exact hrest
    | int =>
      obtain ⟨hnext, hfmt⟩ := hfmt
      obtain ⟨z, zs, rfl⟩ := exists_cons_of_length_eq_add_one hzs
      have hrest := ih hfmt (Nat.succ.inj hzs)
      rw [print, append_assoc, scan, scanInt_intText z (blunt_print hnext h)]
      exact congrArg (z :: ·) hrest

end TextFormat
