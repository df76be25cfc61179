/-
  WsdlCatalog.Proofs.NumberForms — numbers read back from octets.

  A number of known length is cut into octets, the most significant first, and put together
  again; a negative one goes by its complement. The bits of a number of fifty-three binary
  digits are its sign, its exponent and its mantissa side by side.

  Proved: each form of a number gives the number (`takeNat?_bigEndian`, `takeInt?_complement`,
  `ofBits_toBits`).
-/

import WsdlCatalog.MessagePack
import WsdlCatalog.Proofs.Numerals

namespace WsdlCatalog

namespace MessagePack

/-! ## Octets -/

variable {rest : List UInt8}

@[simp] theorem length_bigEndian (count n : Nat) : (bigEndian count n).length = count := by
  induction count generalizing n with
  | zero => rfl
  | succ count ih => rw [bigEndian, List.length_cons, ih]

theorem foldl_bigEndian {count n : Nat} (h : n < 256 ^ count) (acc : Nat) :
    (bigEndian count n).foldl (fun n b => n * 256 + b.toNat) acc = acc * 256 ^ count + n := by
  induction count generalizing n acc with
  | zero =>
    have : n = 0 := by simpa using h
    simp [bigEndian, this]
  | succ count ih =>
    have first : n / 256 ^ count < 256 := Nat.div_lt_of_lt_mul (by rwa [Nat.pow_succ] at h)
    have low : n % 256 ^ count < 256 ^ count := Nat.mod_lt _ (Nat.pow_pos (by decide))
    rw [bigEndian, List.foldl_cons, Nat.pow_eq, ih low, UInt8.toNat_ofNat_of_lt' first, Nat.pow_succ]
    have whole := Nat.div_add_mod n (256 ^ count)
    rw [Nat.add_mul, Nat.mul_assoc, Nat.mul_comm 256, Nat.add_assoc, Nat.mul_comm (n / _), whole]

theorem natOf_bigEndian {count n : Nat} (h : n < 256 ^ count) : natOf (bigEndian count n) = n := by
  rw [natOf, foldl_bigEndian h, Nat.zero_mul, Nat.zero_add]

/-- A number is read from its octets, whatever follows. -/
theorem takeNat?_bigEndian {count n : Nat} (h : n < 256 ^ count) :
    takeNat? count (bigEndian count n ++ rest) = some (n, rest) := by
  have enough : count ≤ (bigEndian count n ++ rest).length := by simp
  have head : (bigEndian count n ++ rest).take count = bigEndian count n :=
    List.take_left' (length_bigEndian count n)
  have tail : (bigEndian count n ++ rest).drop count = rest :=
    List.drop_left' (length_bigEndian count n)
  rw [takeNat?, if_pos enough, head, tail, natOf_bigEndian h]

/-- A negative number is read from its two's complement. -/
theorem takeInt?_complement {count n : Nat} (pos : 0 < n) (h : 2 * n ≤ 256 ^ count) :
    takeInt? count (bigEndian count (256 ^ count - n) ++ rest) = some (-(n : Int), rest) := by
  rw [takeInt?, takeNat?_bigEndian (by omega), Option.map_some]
  simp only [Nat.pow_eq]
  rw [if_neg (by omega)]
  congr 2
  omega

end MessagePack

/-! ## Bits -/

namespace Binary64

theorem two_pow_52 : Nat.pow 2 52 = 4503599627370496 := rfl

theorem two_pow_63 : Nat.pow 2 63 = 9223372036854775808 := rfl

/-- The three fields of a number's bits. -/
theorem ofBits_fields (negative : Bool) {exponent fraction : Nat} (he : exponent < 0x7FF)
    (hf : fraction < Nat.pow 2 52) :
    ofBits ((if negative then Nat.pow 2 63 else 0) + exponent * Nat.pow 2 52 + fraction) =
      if exponent == 0 then finite negative fraction leastExponent
      else finite negative (Nat.pow 2 52 + fraction) ((exponent : Int) - 1075) := by
  have h11 : Nat.pow 2 11 = 2048 := rfl
  rw [two_pow_52] at hf
  generalize hb : (if negative then Nat.pow 2 63 else 0) + exponent * Nat.pow 2 52 + fraction = bits
  have sign : (bits / Nat.pow 2 63 % 2 == 1) = negative := by
    cases negative <;> simp only [two_pow_52, two_pow_63, if_true, if_false, Bool.false_eq_true] at hb ⊢
    · exact beq_false_of_ne (by omega)
    · exact beq_iff_eq.mpr (by omega)
  have middle : bits / Nat.pow 2 52 % Nat.pow 2 11 = exponent := by
    cases negative <;>
      simp only [two_pow_52, two_pow_63, h11, if_true, if_false, Bool.false_eq_true] at hb ⊢ <;> omega
  have low : bits % Nat.pow 2 52 = fraction := by
    cases negative <;>
      simp only [two_pow_52, two_pow_63, if_true, if_false, Bool.false_eq_true] at hb ⊢ <;> omega
  have notSpecial : (exponent == 0x7FF) = false := beq_false_of_ne (by omega)
  rw [ofBits]
  simp only [sign, middle, low, notSpecial, Bool.false_eq_true, if_false]

theorem ofBits_toBits {x : Binary64} (h : x.Canonical) : ofBits x.toBits = x := by
  cases x with
  | nan => rfl
  | infinite negative => cases negative <;> rfl
  | finite negative mantissa exponent =>
    obtain ⟨short, long, least, greatest⟩ := h
    simp only [leastExponent, greatestExponent] at long least greatest
    simp only [toBits]
    split
    · rename_i small
      have fields := ofBits_fields negative (show 0 < 0x7FF by decide) small
      rw [Nat.zero_mul, Nat.add_zero] at fields
      have lowest : exponent = leastExponent := by
        rw [two_pow_52] at small
        simp only [leastExponent]
        omega
      rw [fields, lowest]
      rfl
    · rename_i large
      rw [two_pow_52] at large
      have fields := ofBits_fields negative (show (exponent + 1075).toNat < 0x7FF by omega)
        (show mantissa - Nat.pow 2 52 < Nat.pow 2 52 by rw [two_pow_52]; omega)
      have positive : ((exponent + 1075).toNat == 0) = false := beq_false_of_ne (by omega)
      have whole : Nat.pow 2 52 + (mantissa - Nat.pow 2 52) = mantissa := by rw [two_pow_52]; omega
      have power : (((exponent + 1075).toNat : Nat) : Int) - 1075 = exponent := by omega
      rw [fields, positive, whole, power]
      rfl

theorem toBits_lt {x : Binary64} (h : x.Canonical) : x.toBits < 256 ^ 8 := by
  cases x with
  | nan => decide
  | infinite negative => cases negative <;> decide
  | finite negative mantissa exponent =>
    obtain ⟨short, long, least, greatest⟩ := h
    simp only [leastExponent, greatestExponent] at long least greatest
    simp only [toBits, two_pow_52, two_pow_63]
    cases negative <;> split <;> simp <;> omega

end Binary64

end WsdlCatalog
