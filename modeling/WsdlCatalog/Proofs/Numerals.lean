/-
  WsdlCatalog.Proofs.Numerals — the texts of numbers read back.

  A number is read in three parts, each of which ends where the next begins; what
  follows the number must not go on like one (`NumberEnds`). However the digits of a
  number are laid out, around a point or with an exponent, their value and the power of
  ten of the last one are the same.

  Proved: the text of every number of fifty-three binary digits reads as that number
  (`readNumber_magnitude`), whether or not fewer digits would do.
-/

import Mathlib.Data.List.Basic
import Mathlib.Data.List.TakeDrop
import WsdlCatalog.Json.Printer
import WsdlCatalog.Json.Reader
import WsdlCatalog.Proofs.Rounding

namespace WsdlCatalog.Json

/-! ## Digits -/

theorem natOf_eq (digits : List Char) : natOf digits = Nat.ofDigitChars 10 digits 0 := by
  rw [Nat.ofDigitChars_eq_foldl]
  unfold natOf
  congr 1
  funext n c
  rw [Nat.mul_comm]
  rfl

@[simp] theorem natOf_toDigits (n : Nat) : natOf (Nat.toDigits 10 n) = n := by
  rw [natOf_eq, Nat.ofDigitChars_ten_toDigits]

theorem natOf_append_zeros (digits : List Char) (k : Nat) :
    natOf (digits ++ List.replicate k '0') = natOf digits * 10 ^ k := by
  rw [natOf_eq, natOf_eq, Nat.ofDigitChars_append, Nat.ofDigitChars_replicate_zero, Nat.mul_comm]

theorem natOf_zeros_append (k : Nat) (digits : List Char) :
    natOf (List.replicate k '0' ++ digits) = natOf digits := by
  rw [natOf_eq, natOf_eq, Nat.ofDigitChars_append, Nat.ofDigitChars_replicate_zero, Nat.mul_zero]

/-- Digits and nothing else. -/
def Digits (ds : List Char) : Prop := ∀ c ∈ ds, isDigit c = true

theorem Digits.append {ds ds' : List Char} (h : Digits ds) (h' : Digits ds') : Digits (ds ++ ds') := by
  intro c hc
  exact (List.mem_append.mp hc).elim (h c) (h' c)

theorem digits_zeros (k : Nat) : Digits (List.replicate k '0') := by
  intro c hc
  rw [List.eq_of_mem_replicate hc]
  rfl

theorem digits_toDigits (n : Nat) : Digits (Nat.toDigits 10 n) := by
  intro c hc
  exact Nat.isDigit_of_mem_toDigits (by decide) (by decide) hc

theorem Digits.take {ds : List Char} (h : Digits ds) (k : Nat) : Digits (ds.take k) :=
  fun c hc => h c (List.mem_of_mem_take hc)

theorem Digits.drop {ds : List Char} (h : Digits ds) (k : Nat) : Digits (ds.drop k) :=
  fun c hc => h c (List.mem_of_mem_drop hc)

/-- The first digit of a number is no zero, if the number is not zero. -/
theorem head_toDigits {n : Nat} (h : n ≠ 0) : (Nat.toDigits 10 n).head? ≠ some '0' := by
  induction n using Nat.strong_induction_on with
  | _ n ih =>
    rw [Nat.toDigits_eq_if (by decide)]
    split
    · intro e
      rw [List.head?_cons, Option.some.injEq, Nat.digitChar_eq_zero] at e
      exact h e
    · rename_i hbig
      rw [List.head?_append_of_ne_nil _ Nat.toDigits_ne_nil]
      exact ih (n / 10) (by omega) (by omega)

/-! ## Where digits end -/

/-- The text does not go on with a digit. -/
def NoDigit (rest : List Char) : Prop := ∀ c ∈ rest.head?, isDigit c = false

/-- The text does not go on as a number could: a digit, a point, the mark of an exponent. -/
def NumberEnds (rest : List Char) : Prop :=
  ∀ c ∈ rest.head?, isDigit c = false ∧ c ≠ '.' ∧ c ≠ 'e' ∧ c ≠ 'E'

theorem NumberEnds.noDigit {rest : List Char} (h : NumberEnds rest) : NoDigit rest :=
  fun c hc => (h c hc).1

theorem noDigit_cons {c : Char} {rest : List Char} (h : isDigit c = false) : NoDigit (c :: rest) := by
  intro d hd
  cases Option.mem_some_iff.mp hd
  exact h

theorem span_digits {ds rest : List Char} (h : Digits ds) (hr : NoDigit rest) :
    (ds ++ rest).span isDigit = (ds, rest) := by
  have stop : rest.takeWhile isDigit = [] ∧ rest.dropWhile isDigit = rest := by
    cases rest with
    | nil => exact ⟨rfl, rfl⟩
    | cons c rest =>
      have := hr c rfl
      simp [this]
  rw [List.span_eq_takeWhile_dropWhile, List.takeWhile_append_of_pos h,
    List.dropWhile_append_of_pos h, stop.1, stop.2, List.append_nil]

theorem digitsAfter_digits {ds rest : List Char} (h : Digits ds) (hne : ds ≠ []) (hr : NoDigit rest) :
    digitsAfter (ds ++ rest) = some (ds, rest) := by
  unfold digitsAfter
  rw [span_digits h hr]
  cases ds with
  | nil => exact absurd rfl hne
  | cons => rfl

theorem fraction?_of_ends {rest : List Char} (h : NumberEnds rest) : fraction? rest = none := by
  unfold fraction?
  split
  · exact absurd rfl (h _ rfl).2.1
  · rfl

theorem exponent?_of_ends {rest : List Char} (h : NumberEnds rest) : exponent? rest = none := by
  unfold exponent?
  split
  · obtain ⟨-, -, he, hE⟩ := h _ rfl
    rw [if_pos]
    simp only [Bool.and_eq_true, bne_iff_ne, ne_eq]
    exact ⟨he, hE⟩
  · rfl

/-! ## Numbers in their parts -/

/-- The digits before a point: a zero alone, or digits that do not begin with one. -/
def Leading (ds : List Char) : Prop := ds = ['0'] ∨ (Digits ds ∧ ds ≠ [] ∧ ds.head? ≠ some '0')

theorem leading_toDigits (n : Nat) : Leading (Nat.toDigits 10 n) := by
  by_cases h : n = 0
  · exact .inl (by rw [h, Nat.toDigits_zero])
  · exact .inr ⟨digits_toDigits n, Nat.toDigits_ne_nil, head_toDigits h⟩

theorem readNumber_of_leading {ds rest : List Char} (h : Leading ds) (hr : NoDigit rest)
    (negative : Bool) :
    readNumber negative (ds ++ rest) =
      let (decimals, rest) := (fraction? rest).getD ([], rest)
      match exponent? rest with
      | some (power, rest) =>
        .ok (real (.ofDecimal negative (natOf (ds ++ decimals)) (power - decimals.length)), rest)
      | none =>
        if !decimals.isEmpty then
          .ok (real (.ofDecimal negative (natOf (ds ++ decimals)) (-(decimals.length : Int))), rest)
        else if Text.digitLimit < ds.length then .error (.overlong ds.length)
        else .ok (int (if negative then -(natOf ds : Int) else natOf ds), rest) := by
  rcases h with rfl | ⟨hd, hne, hz⟩
  · rfl
  · obtain ⟨c, ds, rfl⟩ := List.exists_cons_of_ne_nil hne
    have hc : c ≠ '0' := fun e => hz (congrArg some e)
    have whole := digitsAfter_digits hd hne hr
    rw [List.cons_append] at whole
    rewrite [List.cons_append, readNumber, whole]
    · rfl
    · simpa using hc

/-- A number without a point and without an exponent is whole. -/
theorem readNumber_whole {ds rest : List Char} (h : Leading ds) (hr : NumberEnds rest)
    (short : ds.length ≤ Text.digitLimit) (negative : Bool) : readNumber negative (ds ++ rest) =
      .ok (int (if negative then -(natOf ds : Int) else natOf ds), rest) := by
  rw [readNumber_of_leading h hr.noDigit, fraction?_of_ends hr]
  simp only [Option.getD_none, exponent?_of_ends hr, List.isEmpty_nil, Bool.not_true,
    Bool.false_eq_true, if_false, if_neg (not_lt.mpr short)]

theorem fraction?_point {decimals rest : List Char} (hd : Digits decimals) (hne : decimals ≠ [])
    (hr : NoDigit rest) : fraction? ('.' :: decimals ++ rest) = some (decimals, rest) :=
  digitsAfter_digits hd hne hr

theorem readNumber_point {ds decimals rest : List Char} (h : Leading ds) (hd : Digits decimals)
    (hne : decimals ≠ []) (hr : NumberEnds rest) (negative : Bool) :
    readNumber negative (ds ++ ('.' :: decimals ++ rest)) =
      .ok (real (.ofDecimal negative (natOf (ds ++ decimals)) (-(decimals.length : Int))), rest) := by
  have hempty : decimals.isEmpty = false := List.isEmpty_eq_false_iff.mpr hne
  have point : NoDigit ('.' :: decimals ++ rest) := noDigit_cons rfl
  rw [readNumber_of_leading h point, fraction?_point hd hne hr.noDigit]
  simp only [Option.getD_some, exponent?_of_ends hr, hempty, Bool.not_false, if_true]

theorem exponent?_text (n : Int) {rest : List Char} (hr : NoDigit rest) :
    exponent? ('e' :: Binary64.exponentText n ++ rest) = some (n, rest) := by
  have text : ∀ m : Nat, (toString m).toList = Nat.toDigits 10 m := fun m => Nat.toList_repr
  have digits : ∀ k : Nat, digitsAfter (Binary64.zeros k ++ (Nat.toDigits 10 n.natAbs ++ rest))
      = some (Binary64.zeros k ++ Nat.toDigits 10 n.natAbs, rest) := by
    intro k
    rw [← List.append_assoc]
    apply digitsAfter_digits ((digits_zeros k).append (digits_toDigits _)) _ hr
    exact List.append_ne_nil_of_right_ne_nil _ Nat.toDigits_ne_nil
  have value : ∀ k : Nat, natOf (Binary64.zeros k ++ Nat.toDigits 10 n.natAbs) = n.natAbs := by
    intro k
    rw [Binary64.zeros, natOf_zeros_append, natOf_toDigits]
  unfold Binary64.exponentText
  simp only [text, List.cons_append]
  by_cases hn : n < 0
  · rw [if_pos hn]
    simp [exponent?, digits, value, abs_of_neg hn]
  · rw [if_neg hn]
    simp [exponent?, digits, value, abs_of_nonneg (not_lt.mp hn)]

/-- A number with an exponent, after a fraction or not. -/
theorem readNumber_exponent {ds decimals rest : List Char} (h : Leading ds) (hd : Digits decimals)
    (n : Int) (hr : NoDigit rest) (negative : Bool) :
    readNumber negative (ds ++ ((if decimals.isEmpty then [] else '.' :: decimals)
        ++ 'e' :: Binary64.exponentText n ++ rest)) =
      .ok (real (.ofDecimal negative (natOf (ds ++ decimals)) (n - decimals.length)), rest) := by
  cases decimals with
  | nil =>
    simp only [List.isEmpty_nil, if_true, List.nil_append, List.cons_append]
    rw [readNumber_of_leading h (noDigit_cons rfl)]
    have exponent := exponent?_text n hr
    simp only [List.cons_append] at exponent
    have noFraction : fraction? ('e' :: (Binary64.exponentText n ++ rest)) = none := rfl
    rw [noFraction]
    simp only [Option.getD_none, exponent]
  | cons d decimals =>
    simp only [List.isEmpty_cons, Bool.false_eq_true, if_false, List.cons_append, List.append_assoc]
    rw [readNumber_of_leading h (noDigit_cons rfl)]
    have noDigit : NoDigit ('e' :: Binary64.exponentText n ++ rest) := noDigit_cons rfl
    have fraction := fraction?_point hd (List.cons_ne_nil _ _) noDigit
    simp only [List.cons_append] at fraction
    rw [fraction]
    simp only [Option.getD_some]
    have exponent := exponent?_text n hr
    simp only [List.cons_append] at exponent
    rw [exponent]

/-! ## The texts of numbers -/

/-- The first digits of a number before a point, zeros after them if they are too few. -/
theorem leading_take {n : Nat} (h : n ≠ 0) {point : Nat} (hp : 0 < point) (k : Nat) :
    Leading ((Nat.toDigits 10 n).take point ++ Binary64.zeros k) := by
  obtain ⟨p, rfl⟩ := Nat.exists_eq_add_one.mpr hp
  have digits := digits_toDigits n
  have head := head_toDigits h
  obtain ⟨c, ds, hcs⟩ := List.exists_cons_of_ne_nil (Nat.toDigits_ne_nil (n := n) (b := 10))
  rw [hcs] at digits head ⊢
  refine .inr ⟨(digits.take _).append (digits_zeros k), ?_, ?_⟩
  · exact List.cons_ne_nil _ _
  · exact head

section

variable {ds rest : List Char} {power : Int}

/-- All digits stand after the point. -/
theorem readNumber_pointFirst (hds : Digits ds) (hne : ds ≠ []) (hr : NumberEnds rest)
    (negative : Bool) (hp : ds.length + power ≤ 0) :
    readNumber negative (Binary64.positional ds (ds.length + power) ++ rest) =
      .ok (real (.ofDecimal negative (natOf ds) power), rest) := by
  generalize hpoint : (ds.length : Int) + power = point at hp
  have zero : Leading ['0'] := .inl rfl
  have read := readNumber_point zero ((digits_zeros (-point).toNat).append hds)
    (List.append_ne_nil_of_right_ne_nil _ hne) hr negative
  have same : natOf (['0'] ++ (List.replicate (-point).toNat '0' ++ ds)) = natOf ds := by
    rw [← List.append_assoc, ← List.replicate_one, ← List.replicate_add, natOf_zeros_append]
  have places : -((List.replicate (-point).toNat '0' ++ ds).length : Int) = power := by
    rw [List.length_append, List.length_replicate]
    omega
  unfold Binary64.positional
  rw [if_pos hp]
  rw [same, places] at read
  exact read

/-- All digits stand before the point, and zeros between them and the point. -/
theorem readNumber_pointLast (hr : NumberEnds rest) (negative : Bool) (hp : 0 < ds.length + power)
    (hlen : 0 ≤ power)
    (leading : Leading (ds.take (ds.length + power).toNat ++ Binary64.zeros power.toNat)) :
    readNumber negative (Binary64.positional ds (ds.length + power) ++ rest) =
      .ok (real (.ofDecimal negative (natOf ds) power), rest) := by
  obtain ⟨k, rfl⟩ := Int.eq_ofNat_of_zero_le hlen
  have point : ((ds.length : Int) + k).toNat = ds.length + k := by omega
  have hdrop : ds.drop (ds.length + k) = [] := List.drop_eq_nil_of_le (Nat.le_add_right _ _)
  have htake : ds.take (ds.length + k) = ds := List.take_of_length_le (Nat.le_add_right _ _)
  rw [point, htake, Int.toNat_natCast] at leading
  have zero : Digits ['0'] := digits_zeros 1
  have read := readNumber_point leading zero (List.cons_ne_nil _ _) hr negative
  have ends : natOf (ds ++ Binary64.zeros k ++ ['0']) = natOf ds * 10 ^ (k + 1) := by
    rw [List.append_assoc, Binary64.zeros, ← List.replicate_succ', natOf_append_zeros]
  have shift : (k : Int) - ((k + 1 : Nat) : Int) = -1 := by omega
  have same := Binary64.ofDecimal_zeros negative (natOf ds) (k + 1) k
  rw [shift] at same
  rw [ends] at read
  simp only [List.length_singleton, Nat.cast_one, same] at read
  unfold Binary64.positional
  rw [if_neg (not_le.mpr hp)]
  simp only [point, hdrop, htake, List.isEmpty_nil, if_true, List.append_assoc,
    Nat.add_sub_cancel_left] at read ⊢
  exact read

/-- The point stands between the digits. -/
theorem readNumber_pointWithin (hds : Digits ds) (hr : NumberEnds rest) (negative : Bool)
    (hp : 0 < ds.length + power) (hlen : power < 0)
    (leading : Leading (ds.take (ds.length + power).toNat ++ Binary64.zeros 0)) :
    readNumber negative (Binary64.positional ds (ds.length + power) ++ rest) =
      .ok (real (.ofDecimal negative (natOf ds) power), rest) := by
  generalize hpoint : (ds.length : Int) + power = point at hp leading
  have hne : ds.drop point.toNat ≠ [] := by
    rw [ne_eq, List.drop_eq_nil_iff]
    omega
  have hempty : (ds.drop point.toNat).isEmpty = false := List.isEmpty_eq_false_iff.mpr hne
  have few : point.toNat - ds.length = 0 := by omega
  have read := readNumber_point leading (hds.drop point.toNat) hne hr negative
  have places : -((ds.drop point.toNat).length : Int) = power := by
    rw [List.length_drop]
    omega
  unfold Binary64.positional
  rw [if_neg (not_le.mpr hp)]
  rw [places] at read
  simp only [Binary64.zeros, List.replicate_zero, List.append_nil, List.take_append_drop] at read
  simp only [few, hempty, Binary64.zeros, List.replicate_zero, List.append_nil,
    Bool.false_eq_true, if_false, List.append_assoc]
  exact read

end

theorem readNumber_positional {digits : Nat} (h : digits ≠ 0) (power : Int) (negative : Bool)
    {rest : List Char} (hr : NumberEnds rest) :
    readNumber negative (Binary64.positional (Nat.toDigits 10 digits)
        ((Nat.toDigits 10 digits).length + power) ++ rest) =
      .ok (real (.ofDecimal negative digits power), rest) := by
  have hds := digits_toDigits digits
  have hne : Nat.toDigits 10 digits ≠ [] := Nat.toDigits_ne_nil
  have leading {point : Nat} (hp : 0 < point) (k : Nat) := leading_take h hp k
  have value := natOf_toDigits digits
  generalize Nat.toDigits 10 digits = ds at hds hne leading value ⊢
  rw [← value]
  rcases le_or_gt ((ds.length : Int) + power) 0 with hp | hp
  · exact readNumber_pointFirst hds hne hr negative hp
  · have pos : 0 < ((ds.length : Int) + power).toNat := by omega
    rcases le_or_gt 0 power with hlen | hlen
    · exact readNumber_pointLast hr negative hp hlen (leading pos _)
    · exact readNumber_pointWithin hds hr negative hp hlen (leading pos 0)

theorem readNumber_scientific {digits : Nat} (h : digits ≠ 0) (power : Int) (negative : Bool)
    {rest : List Char} (hr : NumberEnds rest) :
    readNumber negative (Binary64.scientific (Nat.toDigits 10 digits)
        ((Nat.toDigits 10 digits).length + power - 1) ++ rest) =
      .ok (real (.ofDecimal negative digits power), rest) := by
  have hds := digits_toDigits digits
  have value := natOf_toDigits digits
  have hne : 0 < (Nat.toDigits 10 digits).length := Nat.length_toDigits_pos
  have leading := leading_take h Nat.one_pos 0
  generalize Nat.toDigits 10 digits = ds at hds value hne leading ⊢
  have read := readNumber_exponent leading (hds.drop 1) (ds.length + power - 1) hr.noDigit negative
  have places : (ds.length : Int) + power - 1 - (ds.drop 1).length = power := by
    rw [List.length_drop]
    omega
  have hempty : (ds.drop 1).isEmpty = decide (ds.length ≤ 1) := by
    rw [Bool.eq_iff_iff, List.isEmpty_iff, List.drop_eq_nil_iff, decide_eq_true_iff]
  simp only [places, hempty, decide_eq_true_eq, Binary64.zeros, List.replicate_zero,
    List.append_nil, List.take_append_drop, value] at read
  simp only [Binary64.scientific, List.append_assoc] at read ⊢
  exact read

theorem readNumber_layout {digits : Nat} (h : digits ≠ 0) (power : Int) (negative : Bool)
    {rest : List Char} (hr : NumberEnds rest) :
    readNumber negative (Binary64.layout (Nat.toDigits 10 digits) power ++ rest) =
      .ok (real (.ofDecimal negative digits power), rest) := by
  simp only [Binary64.layout]
  split
  · exact readNumber_positional h power negative hr
  · exact readNumber_scientific h power negative hr

def BeginsWithDigit (cs : List Char) : Prop := ∃ c ∈ cs.head?, isDigit c = true

theorem BeginsWithDigit.append {cs : List Char} (h : BeginsWithDigit cs) (rest : List Char) :
    BeginsWithDigit (cs ++ rest) := by
  obtain ⟨c, hc, digit⟩ := h
  refine ⟨c, ?_, digit⟩
  rw [List.head?_append, Option.mem_def.mp hc]
  rfl

theorem beginsWithDigit_layout (digits : Nat) (power : Int) :
    BeginsWithDigit (Binary64.layout (Nat.toDigits 10 digits) power) := by
  have hds := digits_toDigits digits
  obtain ⟨c, ds, hcs⟩ := List.exists_cons_of_ne_nil (Nat.toDigits_ne_nil (n := digits) (b := 10))
  rw [hcs] at hds ⊢
  have digit : isDigit c = true := hds c List.mem_cons_self
  unfold Binary64.layout
  simp only
  split
  · unfold Binary64.positional
    split
    · exact ⟨'0', rfl, rfl⟩
    · rename_i hp
      obtain ⟨p, hp'⟩ : ∃ p, (((c :: ds).length : Int) + power).toNat = p + 1 :=
        Nat.exists_eq_add_one.mpr (by omega)
      rw [hp']
      exact ⟨c, rfl, digit⟩
  · exact ⟨c, rfl, digit⟩

theorem beginsWithDigit_magnitude (mantissa : Nat) (exponent : Int) :
    BeginsWithDigit (Binary64.magnitude mantissa exponent) := by
  unfold Binary64.magnitude
  split
  · exact ⟨'0', rfl, rfl⟩
  · split
    · exact beginsWithDigit_layout _ _
    · exact beginsWithDigit_layout _ _

/-- The digits that are written when no shorter ones read back give the number exactly. -/
theorem exactDigits (mantissa : Nat) (exponent : Int) :
    ((mantissa * Nat.pow 2 exponent.toNat * Nat.pow 5 (-exponent).toNat : Nat) * 10 ^ min exponent 0 : ℚ)
      = mantissa * 2 ^ exponent := by
  rcases le_total 0 exponent with h | h
  · obtain ⟨n, rfl⟩ := Int.eq_ofNat_of_zero_le h
    simp
  · obtain ⟨n, rfl⟩ : ∃ n : Nat, exponent = -n := ⟨exponent.natAbs, by omega⟩
    have ten : (10 : ℚ) ^ (-n : Int) = (2 ^ n)⁻¹ * (5 ^ n)⁻¹ := by
      rw [zpow_neg, zpow_natCast, ← mul_inv, ← mul_pow]
      norm_num
    have five : (5 : ℚ) ^ n ≠ 0 := by positivity
    simp only [Int.toNat_neg_natCast, neg_neg, Int.toNat_natCast, min_eq_left h, ten, zpow_neg,
      zpow_natCast, Nat.pow_eq, pow_zero, mul_one]
    push_cast
    field_simp

theorem readNumber_magnitude {mantissa : Nat} {exponent : Int} {negative : Bool}
    (h : (Binary64.finite negative mantissa exponent).Canonical) {rest : List Char}
    (hr : NumberEnds rest) :
    readNumber negative (Binary64.magnitude mantissa exponent ++ rest) =
      .ok (real (.finite negative mantissa exponent), rest) := by
  unfold Binary64.magnitude
  by_cases hm : mantissa = 0
  · have least : exponent = Binary64.leastExponent := by
      obtain ⟨-, full, -, -⟩ := h
      rw [hm] at full
      exact full.resolve_left (by norm_num)
    rw [if_pos (beq_iff_eq.mpr hm), hm, least]
    have zero : Leading ['0'] := .inl rfl
    have decimals : Digits ['0'] := digits_zeros 1
    exact readNumber_point zero decimals (List.cons_ne_nil _ _) hr negative
  · rw [if_neg fun e => hm (beq_iff_eq.mp e)]
    have nonzero : ∀ {digits : Nat} {power : Int},
        Binary64.ofDecimal negative digits power = .finite negative mantissa exponent →
          digits ≠ 0 := by
      rintro _ power hread rfl
      have : Binary64.zero negative = .finite negative mantissa exponent := hread
      cases this
      exact hm rfl
    split
    · rename_i digits power hshort
      have hread := Binary64.ofDecimal_negative (Binary64.ofDecimal_shortest hshort) negative
      rw [readNumber_layout (nonzero hread) power negative hr, hread]
    · have hread := Binary64.ofDecimal_exact h hm (exactDigits mantissa exponent)
      rw [readNumber_layout (nonzero hread) _ negative hr, hread]

end WsdlCatalog.Json
