/-
  WsdlCatalog.Proofs.Utf8 — characters read back from their octets.

  The number of a character is laid out over one to four octets, the first of which says how
  many there are, the others in six bits each. Put together again they give the number, and it
  is the number of a character that needs so many octets.

  Proved: the octets of a text decode to its characters (`utf8_toUTF8`).
-/

import Mathlib.Data.List.Basic
import WsdlCatalog.Text.Encoding

namespace WsdlCatalog.Text

variable {halves : Halves} {acc : List Char} {rest : List UInt8}

theorem toNat_lt (c : Char) : c.toNat < 0x110000 := by
  have valid : c.val.toNat < 0xD800 ∨ 0xDFFF < c.val.toNat ∧ c.val.toNat < 0x110000 := c.valid
  show c.val.toNat < _
  omega

theorem isScalar_toNat (c : Char) : isScalar c.toNat = true := by
  have valid : c.toNat < 0xD800 ∨ 0xDFFF < c.toNat ∧ c.toNat < 0x110000 := c.valid
  rw [isScalar, Bool.or_eq_true, Bool.and_eq_true, decide_eq_true_iff, decide_eq_true_iff,
    decide_eq_true_iff]
  exact valid

theorem scalarFrom?_toNat {c : Char} {least : Nat} (h : least ≤ c.toNat) :
    scalarFrom? halves least c.toNat = some c := by
  rw [scalarFrom?, if_neg (by omega), if_pos (isScalar_toNat c), Char.ofNat_toNat]

theorem continuation?_ofNat {n : Nat} (h : n < 0x40) : continuation? (UInt8.ofNat (n + 0x80)) = some n := by
  have value : (UInt8.ofNat (n + 0x80)).toNat = n + 0x80 :=
    UInt8.toNat_ofNat_of_lt' (show _ < 256 by omega)
  have within : (0x80 ≤ n + 0x80 && n + 0x80 < 0xC0) = true := by
    rw [Bool.and_eq_true, decide_eq_true_iff, decide_eq_true_iff]
    omega
  simp only [continuation?, value, within, if_true, Nat.add_sub_cancel]

/-- A continuation octet among others. -/
theorem bind_continuation {α : Type} {n : Nat} (h : n < 0x40) (f : Nat → Option α) :
    (continuation? (UInt8.ofNat (n + 0x80)) >>= f) = f n := by
  rw [continuation?_ofNat h]
  rfl

theorem sequenceLength?_eq (b : UInt8) : sequenceLength? b =
    if b.toNat < 0x80 then some 1 else if b.toNat < 0xC0 then none else if b.toNat < 0xE0 then some 2
    else if b.toNat < 0xF0 then some 3 else if b.toNat < 0xF5 then some 4 else none := rfl

/-! ## One character -/

theorem utf8From_one {n : Nat} (h : n < 0x80) :
    utf8From halves acc (UInt8.ofNat n :: rest) = utf8From halves (Char.ofNat n :: acc) rest := by
  have lead : (UInt8.ofNat n).toNat = n := UInt8.toNat_ofNat_of_lt' (show _ < 256 by omega)
  have length : sequenceLength? (UInt8.ofNat n) = some 1 := by
    rw [sequenceLength?_eq, lead, if_pos h]
  rw [utf8From.eq_def]
  simp only [length, lead]

theorem utf8From_two {c : Char} {n1 n2 : Nat} (h1 : n1 < 0x20) (h2 : n2 < 0x40)
    (value : n1 * 0x40 + n2 = c.toNat) (least : 0x80 ≤ c.toNat) :
    utf8From halves acc (UInt8.ofNat (n1 + 0xC0) :: UInt8.ofNat (n2 + 0x80) :: rest)
      = utf8From halves (c :: acc) rest := by
  have lead : (UInt8.ofNat (n1 + 0xC0)).toNat = n1 + 0xC0 :=
    UInt8.toNat_ofNat_of_lt' (show _ < 256 by omega)
  have length : sequenceLength? (UInt8.ofNat (n1 + 0xC0)) = some 2 := by
    rw [sequenceLength?_eq, lead]
    split_ifs <;> first | rfl | omega
  rw [utf8From.eq_def]
  simp only [length]
  rw [bind_continuation h2, lead, Nat.add_sub_cancel, value, scalarFrom?_toNat least]

theorem utf8From_three {c : Char} {n1 n2 n3 : Nat} (h1 : n1 < 0x10) (h2 : n2 < 0x40) (h3 : n3 < 0x40)
    (value : n1 * 0x1000 + n2 * 0x40 + n3 = c.toNat) (least : 0x800 ≤ c.toNat) :
    utf8From halves acc (UInt8.ofNat (n1 + 0xE0) :: UInt8.ofNat (n2 + 0x80) :: UInt8.ofNat (n3 + 0x80)
      :: rest) = utf8From halves (c :: acc) rest := by
  have lead : (UInt8.ofNat (n1 + 0xE0)).toNat = n1 + 0xE0 :=
    UInt8.toNat_ofNat_of_lt' (show _ < 256 by omega)
  have length : sequenceLength? (UInt8.ofNat (n1 + 0xE0)) = some 3 := by
    rw [sequenceLength?_eq, lead]
    split_ifs <;> first | rfl | omega
  rw [utf8From.eq_def]
  simp only [length]
  rw [bind_continuation h2, bind_continuation h3, lead, Nat.add_sub_cancel, value,
    scalarFrom?_toNat least]

theorem utf8From_four {c : Char} {n1 n2 n3 n4 : Nat} (h1 : n1 < 5) (h2 : n2 < 0x40) (h3 : n3 < 0x40)
    (h4 : n4 < 0x40) (value : n1 * 0x40000 + n2 * 0x1000 + n3 * 0x40 + n4 = c.toNat)
    (least : 0x10000 ≤ c.toNat) :
    utf8From halves acc (UInt8.ofNat (n1 + 0xF0) :: UInt8.ofNat (n2 + 0x80) :: UInt8.ofNat (n3 + 0x80)
      :: UInt8.ofNat (n4 + 0x80) :: rest) = utf8From halves (c :: acc) rest := by
  have lead : (UInt8.ofNat (n1 + 0xF0)).toNat = n1 + 0xF0 :=
    UInt8.toNat_ofNat_of_lt' (show _ < 256 by omega)
  have length : sequenceLength? (UInt8.ofNat (n1 + 0xF0)) = some 4 := by
    rw [sequenceLength?_eq, lead]
    split_ifs <;> first | rfl | omega
  rw [utf8From.eq_def]
  simp only [length]
  rw [bind_continuation h2, bind_continuation h3, bind_continuation h4, lead, Nat.add_sub_cancel,
    value, scalarFrom?_toNat least]

/-- A character is read from its octets. -/
theorem utf8From_char (c : Char) : utf8From halves acc (String.utf8EncodeChar c ++ rest)
    = utf8From halves (c :: acc) rest := by
  have bound := toNat_lt c
  have number : c.val.toNat = c.toNat := rfl
  unfold String.utf8EncodeChar
  simp only [number]
  split
  · rw [List.singleton_append, utf8From_one (by omega), Char.ofNat_toNat]
  split
  · exact utf8From_two (by omega) (by omega) (by omega) (by omega)
  split
  · exact utf8From_three (by omega) (by omega) (by omega) (by omega) (by omega)
  · exact utf8From_four (by omega) (by omega) (by omega) (by omega) (by omega) (by omega)

/-! ## Texts -/

theorem utf8From_chars (cs : List Char) :
    utf8From halves acc (cs.flatMap String.utf8EncodeChar) = ⟨acc.reverse ++ cs, .complete⟩ := by
  induction cs generalizing acc with
  | nil =>
    rw [List.flatMap_nil, utf8From, List.append_nil]
  | cons c cs ih =>
    rw [List.flatMap_cons, utf8From_char, ih, List.reverse_cons, List.append_assoc,
      List.singleton_append]

theorem toList_loop (octets : ByteArray) (i : Nat) (read : List UInt8) :
    ByteArray.toList.loop octets i read = read.reverse ++ octets.data.toList.drop i := by
  fun_induction ByteArray.toList.loop octets i read with
  | case1 i read within ih =>
    have inside : i < octets.data.toList.length := within
    rw [ih, List.drop_eq_getElem_cons inside, List.reverse_cons, List.append_assoc,
      List.singleton_append]
    simp [ByteArray.get!, getElem!_pos octets.data i within]
  | case2 i read beyond =>
    have past : octets.data.toList.length ≤ i := Nat.le_of_not_lt beyond
    rw [List.drop_eq_nil_of_le past, List.append_nil]

theorem toUTF8_toList (s : String) : s.toUTF8.toList = s.toList.flatMap String.utf8EncodeChar := by
  rw [String.toUTF8_eq_toByteArray, ← String.utf8Encode_toList, ByteArray.toList, toList_loop,
    List.reverse_nil, List.nil_append, List.drop_zero, List.utf8Encode, List.toList_data_toByteArray]

theorem length_toUTF8 (s : String) : s.toUTF8.toList.length = s.utf8ByteSize := by
  rw [String.toUTF8_eq_toByteArray, ByteArray.toList, toList_loop]
  simp

theorem utf8Size_of_ascii {c : Char} (h : c.toNat < 0x80) : c.utf8Size = 1 :=
  Char.utf8Size_eq_one_iff.mpr (UInt32.le_iff_toNat_le.mpr (Nat.le_of_lt_succ h))

/-- The octets of a text decode to its characters. -/
theorem utf8_toUTF8 (s : String) : utf8 halves s.toUTF8.toList = ⟨s.toList, .complete⟩ := by
  rw [toUTF8_toList, utf8, utf8From_chars]
  rfl

end WsdlCatalog.Text
