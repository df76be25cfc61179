/-
  WsdlCatalog.Proofs.Printing — data read back from their text.

  Each part of a text is read up to the character that ends it: a text to its closing
  quotation mark, whatever characters it escapes, a number to the separator after it, a
  list or an object to its closing bracket. Reading spends no more than one unit of its
  budget a character, so the budget never runs out on a printed text. An integer that is
  printed has no more digits than one that is read.

  Proved: reading undoes printing, in every layout (`parse_print`).
-/

import Mathlib.Data.Nat.Digits.Defs
import WsdlCatalog.Proofs.Numerals
import WsdlCatalog.Proofs.Table

namespace WsdlCatalog.Json

/-! ## Texts -/

theorem hex4?_hexDigit : ∀ n < 32, hex4? (Text.hexDigit (n / 16 / 16 / 16 % 16))
    (Text.hexDigit (n / 16 / 16 % 16)) (Text.hexDigit (n / 16 % 16)) (Text.hexDigit (n % 16)) =
      some n := by
  decide

theorem unitChar_toNat : ∀ n < 32, (unitChar n).toNat = n := by decide

theorem readString_unescaped {c : Char} (hq : c ≠ '"') (hb : c ≠ '\\') (hc : ¬ c.toNat < 32)
    (acc rest : List Char) :
    readString none acc (c :: rest) = readString none (c :: acc) rest := by
  rw [readString.eq_def]
  split
  · rename_i h
    cases h
  · rename_i h
    exact absurd (List.cons.inj h).1 hq
  · rename_i h
    exact absurd (List.cons.inj h).1 hb
  · rename_i h
    exact absurd (List.cons.inj h).1 hb
  · rename_i h
    obtain ⟨rfl, rfl⟩ := List.cons.inj h
    rw [if_neg hc]
    rfl

/-- A character is read from what it is escaped as. -/
theorem readString_escape (c : Char) (acc rest : List Char) :
    readString none acc (escape c ++ rest) = readString none (c :: acc) rest := by
  unfold escape
  split
  · rename_i h
    rw [eq_of_beq h]
    rfl
  split
  · rename_i h
    rw [eq_of_beq h]
    rfl
  split
  · rename_i h
    rw [eq_of_beq h]
    rfl
  split
  · rename_i h
    rw [eq_of_beq h]
    rfl
  split
  · rename_i h
    rw [eq_of_beq h]
    rfl
  split
  · rename_i h
    have : c = '\x0c' := Char.toNat_inj.mp (eq_of_beq h)
    rw [this]
    rfl
  split
  · rename_i h
    have : c = '\x08' := Char.toNat_inj.mp (eq_of_beq h)
    rw [this]
    rfl
  split
  · rename_i control
    have hex : Text.hex 4 c.toNat = [Text.hexDigit (c.toNat / 16 / 16 / 16 % 16),
      Text.hexDigit (c.toNat / 16 / 16 % 16), Text.hexDigit (c.toNat / 16 % 16),
      Text.hexDigit (c.toNat % 16)] := rfl
    have value := hex4?_hexDigit c.toNat control
    have char : unitChar c.toNat = c := Char.toNat_inj.mp (unitChar_toNat _ control)
    have low : ¬ 0xD800 ≤ c.toNat := by omega
    rw [hex]
    simp only [List.cons_append, List.nil_append, readString, value, low, decide_false,
      Bool.false_and, Bool.false_eq_true, if_false, char]
  · rename_i hq hb _ _ _ _ _ hc
    exact readString_unescaped (fun e => hq (beq_iff_eq.mpr e)) (fun e => hb (beq_iff_eq.mpr e)) hc
      acc rest

theorem readString_escapes (cs acc rest : List Char) :
    readString none acc (cs.flatMap escape ++ '"' :: rest) =
      some (String.ofList (acc.reverse ++ cs), rest) := by
  induction cs generalizing acc with
  | nil =>
    rw [List.append_nil]
    rfl
  | cons c cs ih =>
    rw [List.flatMap_cons, List.append_assoc, readString_escape, ih, List.reverse_cons,
      List.append_assoc]
    rfl

theorem printString_append (s : String) (rest : List Char) :
    printString s ++ rest = '"' :: (s.toList.flatMap escape ++ '"' :: rest) := by
  simp [printString]

/-- A text is read from what it is printed as. -/
theorem readString_printed (s : String) (rest : List Char) :
    readString none [] (s.toList.flatMap escape ++ '"' :: rest) = some (s, rest) := by
  rw [readString_escapes]
  simp

/-! ## Words and numbers -/

/-- The characters that no value, key or word of a value can begin with. -/
def Begins (cs : List Char) : Prop :=
  ∃ c ∈ cs.head?, isSpace c = false ∧ c ≠ ']' ∧ c ≠ '\x7d'

theorem readAtom_digit {cs : List Char} (h : BeginsWithDigit cs) :
    readAtom cs = readNumber false cs ∧ readAtom ('-' :: cs) = readNumber true cs := by
  obtain ⟨c, hc, digit⟩ := h
  obtain ⟨cs, rfl⟩ : ∃ t, cs = c :: t := by
    cases cs with
    | nil => cases hc
    | cons d t => exact ⟨t, by rw [Option.some.inj hc]⟩
  have other : ∀ d, isDigit d = false → c ≠ d := by
    rintro d hd rfl
    rw [digit] at hd
    cases hd
  have hn := other 'n' rfl
  have ht := other 't' rfl
  have hf := other 'f' rfl
  have hN := other 'N' rfl
  have hI := other 'I' rfl
  have hm := other '-' rfl
  constructor
  · simp [readAtom, hn, ht, hf, hN, hI, hm]
  · simp [readAtom, hI]

theorem readAtom_real {x : Binary64} (h : x.Canonical) {rest : List Char} (hr : NumberEnds rest) :
    readAtom ((x.text "Infinity" "NaN").toList ++ rest) = .ok (real x, rest) := by
  cases x with
  | nan => rfl
  | infinite negative => cases negative <;> rfl
  | finite negative mantissa exponent =>
    have digit := (beginsWithDigit_magnitude mantissa exponent).append rest
    have read := readNumber_magnitude h hr
    cases negative with
    | false =>
      rw [← (readAtom_digit digit).1] at read
      simpa [Binary64.text] using read
    | true =>
      rw [← (readAtom_digit digit).2] at read
      simpa [Binary64.text] using read

theorem readAtom_int {n : Int} (hn : n.natAbs < 10 ^ Text.digitLimit) {rest : List Char}
    (hr : NumberEnds rest) : readAtom ((toString n).toList ++ rest) = .ok (int n, rest) := by
  have digit : BeginsWithDigit (Nat.toDigits 10 n.natAbs ++ rest) := by
    obtain ⟨c, ds, hcs⟩ := List.exists_cons_of_ne_nil (Nat.toDigits_ne_nil (n := n.natAbs) (b := 10))
    apply BeginsWithDigit.append
    exact ⟨c, by rw [hcs]; rfl, digits_toDigits n.natAbs c (by rw [hcs]; exact List.mem_cons_self)⟩
  have short := Nat.toDigits_length 10 _ _ Text.digitLimit_pos hn
  have read := fun negative => readNumber_whole (leading_toDigits n.natAbs) hr short negative
  simp only [natOf_toDigits] at read
  rw [Int.toString_eq_repr, Int.repr_eq_if]
  split
  · rename_i hn
    have value : n.toNat = n.natAbs := by omega
    have sign : (n.natAbs : Int) = n := by omega
    rw [value, Nat.toList_repr, (readAtom_digit digit).1, read, sign]
    rfl
  · rename_i hn
    have value : (-n).toNat = n.natAbs := by omega
    have sign : -(n.natAbs : Int) = n := by omega
    rw [value, String.toList_append, Nat.toList_repr]
    show readAtom ('-' :: (Nat.toDigits 10 n.natAbs ++ rest)) = _
    rw [(readAtom_digit digit).2, read, sign]
    rfl

/-! ## Blanks -/

/-- The separators of the layout are a comma and a colon, with blanks after them. -/
structure Layout.Blank (layout : Layout) : Prop where
  item : ∃ blanks, layout.itemSeparator = ',' :: blanks ∧ ∀ c ∈ blanks, isSpace c = true
  key : ∃ blanks, layout.keySeparator = ':' :: blanks ∧ ∀ c ∈ blanks, isSpace c = true

theorem Layout.blank_spaced : Layout.spaced.Blank :=
  ⟨⟨[' '], rfl, by simp [isSpace]⟩, ⟨[' '], rfl, by simp [isSpace]⟩⟩

theorem Layout.blank_indented (n : Nat) : (Layout.indented n).Blank :=
  ⟨⟨[], rfl, by simp⟩, ⟨[' '], rfl, by simp [isSpace]⟩⟩

theorem isSpace_lineBreak (layout : Layout) (depth : Nat) :
    ∀ c ∈ layout.lineBreak depth, isSpace c = true := by
  intro c hc
  unfold Layout.lineBreak at hc
  split at hc
  · rcases List.mem_cons.mp hc with rfl | hc
    · rfl
    · rw [List.eq_of_mem_replicate hc]
      rfl
  · cases hc

theorem skipSpace_of_begins {cs : List Char} (h : Begins cs) : skipSpace cs = cs := by
  obtain ⟨c, hc, space, -⟩ := h
  cases cs with
  | nil => cases hc
  | cons d t =>
    cases Option.some.inj hc
    simp [skipSpace, space]

theorem skipSpace_blanks {blanks cs : List Char} (h : ∀ c ∈ blanks, isSpace c = true) :
    skipSpace (blanks ++ cs) = skipSpace cs := List.dropWhile_append_of_pos h

theorem skipSpace_lineBreak (layout : Layout) (depth : Nat) (cs : List Char) :
    skipSpace (layout.lineBreak depth ++ cs) = skipSpace cs :=
  skipSpace_blanks (isSpace_lineBreak layout depth)

theorem Begins.append {cs : List Char} (h : Begins cs) (rest : List Char) : Begins (cs ++ rest) := by
  obtain ⟨c, hc, first⟩ := h
  refine ⟨c, ?_, first⟩
  rw [List.head?_append, Option.mem_def.mp hc]
  rfl

theorem BeginsWithDigit.begins {cs : List Char} (h : BeginsWithDigit cs) : Begins cs := by
  obtain ⟨c, hc, digit⟩ := h
  refine ⟨c, hc, ?_, ?_, ?_⟩
  · by_contra space
    rw [Bool.not_eq_false] at space
    simp only [isSpace, Bool.or_eq_true, beq_iff_eq] at space
    rcases space with ((rfl | rfl) | rfl) | rfl <;> cases digit
  · rintro rfl
    cases digit
  · rintro rfl
    cases digit

theorem begins_printString (s : String) : Begins (printString s) := ⟨'"', rfl, rfl, by decide, by decide⟩

theorem begins_int (n : Int) : Begins (toString n).toList := by
  rw [Int.toString_eq_repr, Int.repr_eq_if]
  split
  · rw [Nat.toList_repr]
    obtain ⟨c, ds, hcs⟩ := List.exists_cons_of_ne_nil (Nat.toDigits_ne_nil (n := n.toNat) (b := 10))
    apply BeginsWithDigit.begins
    exact ⟨c, by rw [hcs]; rfl, digits_toDigits n.toNat c (by rw [hcs]; exact List.mem_cons_self)⟩
  · rw [String.toList_append]
    exact ⟨'-', rfl, rfl, by decide, by decide⟩

theorem begins_real (x : Binary64) : Begins (x.text "Infinity" "NaN").toList := by
  cases x with
  | nan => exact ⟨'N', rfl, rfl, by decide, by decide⟩
  | infinite negative =>
    cases negative with
    | false => exact ⟨'I', rfl, rfl, by decide, by decide⟩
    | true => exact ⟨'-', rfl, rfl, by decide, by decide⟩
  | finite negative mantissa exponent =>
    cases negative with
    | false => simpa [Binary64.text] using (beginsWithDigit_magnitude mantissa exponent).begins
    | true =>
      simp only [Binary64.text, String.toList_ofList]
      exact ⟨'-', rfl, rfl, by decide, by decide⟩

/-- The text of a value begins with a character of its own. -/
theorem begins_printAt (layout : Layout) (depth : Nat) (j : Json) : Begins (printAt layout depth j) := by
  cases j with
  | null => exact ⟨'n', rfl, rfl, by decide, by decide⟩
  | bool b =>
    cases b with
    | false => exact ⟨'f', rfl, rfl, by decide, by decide⟩
    | true => exact ⟨'t', rfl, rfl, by decide, by decide⟩
  | int n =>
    rw [printAt]
    exact begins_int n
  | real x =>
    rw [printAt]
    exact begins_real x
  | str s =>
    rw [printAt]
    exact begins_printString s
  | arr items =>
    cases items with
    | nil => exact ⟨'[', rfl, rfl, by decide, by decide⟩
    | cons j rest =>
      rw [printAt]
      exact ⟨'[', rfl, rfl, by decide, by decide⟩
  | obj members =>
    cases members with
    | nil => exact ⟨'\x7b', rfl, rfl, by decide, by decide⟩
    | cons j rest =>
      rw [printAt]
      exact ⟨'\x7b', rfl, rfl, by decide, by decide⟩

/-! ## Values -/

/-- Data as they can be held: an object has one member a key. `R` holds of the numbers that are
not integers. -/
inductive Formed (R : Binary64 → Prop) : Json → Prop
  | null : Formed R null
  | bool (b : Bool) : Formed R (bool b)
  | int (n : Int) : Formed R (int n)
  | real {x : Binary64} (h : R x) : Formed R (real x)
  | str (s : String) : Formed R (str s)
  | arr {items : List Json} (each : ∀ j ∈ items, Formed R j) : Formed R (arr items)
  | obj {members : List (String × Json)} (distinct : (members.map Prod.fst).Nodup)
      (each : ∀ m ∈ members, Formed R m.2) : Formed R (obj members)

abbrev Proper : Json → Prop := Formed Binary64.Canonical

theorem readValue_of_readAtom {cs : List Char} {x : Json × List Char} (h : readAtom cs = .ok x)
    (fuel : Nat) : readValue (fuel + 1) cs = .ok x := by
  rw [readValue.eq_def]
  split
  · contradiction
  · cases h
  · cases h
  · cases h
  · exact h

theorem readValue_str (s : String) (rest : List Char) (fuel : Nat) :
    readValue (fuel + 1) (printString s ++ rest) = .ok (str s, rest) := by
  rw [printString_append, readValue, readString_printed]

theorem readValue_arr {cs text : List Char} (skip : skipSpace cs = text) (h : Begins text) (fuel : Nat) :
    readValue (fuel + 1) ('[' :: cs) =
      (readItems fuel [] text).map fun (items, rest) => (arr items, rest) := by
  subst skip
  rw [readValue]
  split
  · rename_i he
    obtain ⟨c, hc, -, closing, -⟩ := h
    rw [he] at hc
    exact absurd (Option.some.inj hc).symm closing
  · rfl

theorem readValue_obj {cs text : List Char} (skip : skipSpace cs = text) (h : Begins text) (fuel : Nat) :
    readValue (fuel + 1) ('\x7b' :: cs) =
      (readMembers fuel [] text).map fun (members, rest) => (obj (putAll members), rest) := by
  subst skip
  rw [readValue]
  split
  · rename_i he
    obtain ⟨c, hc, -, -, closing⟩ := h
    rw [he] at hc
    exact absurd (Option.some.inj hc).symm closing
  · rfl

/-- The value is read from its text, whatever follows, at the cost of no more than its length. -/
def ReadsBack (layout : Layout) (j : Json) : Prop :=
  ∀ depth fuel rest, (printAt layout depth j).length ≤ fuel → NumberEnds rest →
    readValue fuel (printAt layout depth j ++ rest) = .ok (j, rest)

theorem numberEnds_cons {c : Char} (hd : isDigit c = false) (hp : c ≠ '.') (he : c ≠ 'e')
    (hE : c ≠ 'E') (rest : List Char) : NumberEnds (c :: rest) := by
  intro d hd'
  cases Option.some.inj hd'
  exact ⟨hd, hp, he, hE⟩

variable {layout : Layout}

theorem numberEnds_lineBreak (depth : Nat) {rest : List Char} (h : NumberEnds rest) :
    NumberEnds (layout.lineBreak depth ++ rest) := by
  unfold Layout.lineBreak
  split
  · exact numberEnds_cons rfl (by decide) (by decide) (by decide) _
  · exact h

/-- After a value stands the next separator, or the end of its container. -/
theorem numberEnds_separator (hl : layout.Blank) (rest : List Char) :
    NumberEnds (layout.itemSeparator ++ rest) := by
  obtain ⟨blanks, hsep, -⟩ := hl.item
  rw [hsep]
  exact numberEnds_cons rfl (by decide) (by decide) (by decide) _

theorem numberEnds_items (hl : layout.Blank) (depth outer : Nat) (items : List Json)
    (rest : List Char) :
    NumberEnds (printItems layout depth items ++ (layout.lineBreak outer ++ ']' :: rest)) := by
  cases items with
  | nil =>
    rw [printItems]
    exact numberEnds_lineBreak outer (numberEnds_cons rfl (by decide) (by decide) (by decide) _)
  | cons j items =>
    rw [printItems]
    simp only [List.append_assoc]
    exact numberEnds_separator hl _

theorem numberEnds_members (hl : layout.Blank) (depth outer : Nat) (members : List (String × Json))
    (rest : List Char) :
    NumberEnds (printMembers layout depth members ++ (layout.lineBreak outer ++ '\x7d' :: rest)) := by
  cases members with
  | nil =>
    rw [printMembers]
    exact numberEnds_lineBreak outer (numberEnds_cons rfl (by decide) (by decide) (by decide) _)
  | cons m members =>
    rw [printMembers]
    simp only [List.append_assoc]
    exact numberEnds_separator hl _

theorem readItems_printItems (hl : layout.Blank) (depth outer : Nat) (tail : List Char) :
    ∀ (rest : List Json) (j : Json) (acc : List Json) (fuel : Nat), ReadsBack layout j →
      (∀ k ∈ rest, ReadsBack layout k) →
      (printAt layout depth j).length + (printItems layout depth rest).length < fuel →
      readItems fuel acc (printAt layout depth j ++ (printItems layout depth rest ++
        (layout.lineBreak outer ++ ']' :: tail))) = .ok (acc.reverse ++ j :: rest, tail) := by
  intro rest
  induction rest with
  | nil =>
    intro j acc fuel hj _ hf
    obtain ⟨n, rfl⟩ : ∃ n, fuel = n + 1 := Nat.exists_eq_add_one.mpr (by omega)
    have item := hj depth n _ (by omega) (numberEnds_items hl depth outer [] tail)
    have closing : skipSpace (printItems layout depth [] ++ (layout.lineBreak outer ++ ']' :: tail))
        = ']' :: tail := by
      rw [printItems, List.nil_append, skipSpace_lineBreak]
      rfl
    rw [readItems, item]
    simp only [closing]
    rw [List.reverse_cons]
  | cons k rest ih =>
    intro j acc fuel hj hrest hf
    obtain ⟨n, rfl⟩ : ∃ n, fuel = n + 1 := Nat.exists_eq_add_one.mpr (by omega)
    have hends := numberEnds_items hl depth outer (k :: rest) tail
    obtain ⟨blanks, hsep, hblanks⟩ := hl.item
    rw [printItems, hsep] at hf
    simp only [List.length_append, List.length_cons] at hf
    have item := hj depth n _ (by omega) hends
    have more : skipSpace (printItems layout depth (k :: rest) ++ (layout.lineBreak outer ++ ']' :: tail))
        = ',' :: (blanks ++ (layout.lineBreak depth ++ (printAt layout depth k ++
          (printItems layout depth rest ++ (layout.lineBreak outer ++ ']' :: tail))))) := by
      rw [printItems, hsep]
      simp only [List.append_assoc, List.cons_append]
      rfl
    have next := ih k (j :: acc) n (hrest k List.mem_cons_self)
      (fun x hx => hrest x (List.mem_cons_of_mem _ hx)) (by omega)
    rw [readItems, item]
    simp only [more]
    rw [skipSpace_blanks hblanks, skipSpace_lineBreak,
      skipSpace_of_begins ((begins_printAt layout depth k).append _), next, List.reverse_cons,
      List.append_assoc]
    rfl

/-- One member is read off, and what follows says whether the object goes on. -/
theorem readMembers_member (hl : layout.Blank) {depth fuel : Nat} {j : Json} {more : List Char}
    (hj : ReadsBack layout j) (hf : (printAt layout depth j).length ≤ fuel) (hends : NumberEnds more)
    (k : String) (acc : List (String × Json)) :
    readMembers (fuel + 1) acc
        (printString k ++ (layout.keySeparator ++ (printAt layout depth j ++ more))) =
      match skipSpace more with
      | '\x7d' :: rest => .ok (((k, j) :: acc).reverse, rest)
      | ',' :: rest => readMembers fuel ((k, j) :: acc) (skipSpace rest)
      | _ => .error .malformed := by
  obtain ⟨blanks, hkey, hblanks⟩ := hl.key
  have colon : skipSpace (':' :: (blanks ++ (printAt layout depth j ++ more)))
      = ':' :: (blanks ++ (printAt layout depth j ++ more)) := rfl
  rw [printString_append, readMembers, readString_printed, hkey]
  simp only [List.cons_append, colon]
  rewrite [skipSpace_blanks hblanks,
    skipSpace_of_begins ((begins_printAt layout depth j).append _), hj depth fuel more hf hends]
  rfl

theorem readMembers_printMembers (hl : layout.Blank) (depth outer : Nat) (tail : List Char) :
    ∀ (rest : List (String × Json)) (k : String) (j : Json) (acc : List (String × Json)) (fuel : Nat),
      ReadsBack layout j → (∀ m ∈ rest, ReadsBack layout m.2) →
      (printAt layout depth j).length + (printMembers layout depth rest).length < fuel →
      readMembers fuel acc (printString k ++ (layout.keySeparator ++ (printAt layout depth j ++
        (printMembers layout depth rest ++ (layout.lineBreak outer ++ '\x7d' :: tail))))) =
          .ok (acc.reverse ++ (k, j) :: rest, tail) := by
  intro rest
  induction rest with
  | nil =>
    intro k j acc fuel hj _ hf
    obtain ⟨n, rfl⟩ : ∃ n, fuel = n + 1 := Nat.exists_eq_add_one.mpr (by omega)
    have closing : skipSpace (printMembers layout depth [] ++ (layout.lineBreak outer ++ '\x7d' :: tail))
        = '\x7d' :: tail := by
      rw [printMembers, List.nil_append, skipSpace_lineBreak]
      rfl
    rw [readMembers_member hl hj (by omega) (numberEnds_members hl depth outer [] tail)]
    simp only [closing]
    rw [List.reverse_cons]
  | cons m rest ih =>
    obtain ⟨k', j'⟩ := m
    intro k j acc fuel hj hrest hf
    obtain ⟨n, rfl⟩ : ∃ n, fuel = n + 1 := Nat.exists_eq_add_one.mpr (by omega)
    have hends := numberEnds_members hl depth outer ((k', j') :: rest) tail
    obtain ⟨blanks, hsep, hblanks⟩ := hl.item
    rw [printMembers, hsep] at hf
    simp only [List.length_append, List.length_cons] at hf
    have more : skipSpace (printMembers layout depth ((k', j') :: rest) ++
          (layout.lineBreak outer ++ '\x7d' :: tail))
        = ',' :: (blanks ++ (layout.lineBreak depth ++ (printString k' ++ (layout.keySeparator ++
          (printAt layout depth j' ++ (printMembers layout depth rest ++
            (layout.lineBreak outer ++ '\x7d' :: tail))))))) := by
      rw [printMembers, hsep]
      simp only [List.append_assoc, List.cons_append]
      rfl
    have next := ih k' j' ((k, j) :: acc) n (hrest (k', j') List.mem_cons_self)
      (fun x hx => hrest x (List.mem_cons_of_mem _ hx)) (by omega)
    rw [readMembers_member hl hj (by omega) hends]
    simp only [more]
    rw [skipSpace_blanks hblanks, skipSpace_lineBreak,
      skipSpace_of_begins ((begins_printString k').append _), next, List.reverse_cons,
      List.append_assoc]
    rfl

theorem readsBack_of {j : Json} (h : ∀ depth fuel rest, (printAt layout depth j).length ≤ fuel + 1 →
    NumberEnds rest → readValue (fuel + 1) (printAt layout depth j ++ rest) = .ok (j, rest)) :
    ReadsBack layout j := by
  intro depth fuel rest hf hr
  have pos : 0 < (printAt layout depth j).length := by
    obtain ⟨c, hc, -⟩ := begins_printAt layout depth j
    cases hp : printAt layout depth j with
    | nil =>
      rw [hp] at hc
      cases hc
    | cons => exact Nat.succ_pos _
  obtain ⟨n, rfl⟩ : ∃ n, fuel = n + 1 := Nat.exists_eq_add_one.mpr (by omega)
  exact h depth n rest hf hr

theorem readsBack_arr (hl : layout.Blank) {items : List Json} (h : ∀ j ∈ items, ReadsBack layout j) :
    ReadsBack layout (arr items) := by
  apply readsBack_of
  intro depth fuel tail hf hr
  cases items with
  | nil => rfl
  | cons j rest =>
    rw [printAt] at hf ⊢
    simp only [List.length_append, List.length_cons, List.length_nil] at hf
    have text : '[' :: layout.lineBreak (depth + 1) ++ printAt layout (depth + 1) j
        ++ printItems layout (depth + 1) rest ++ layout.lineBreak depth ++ [']'] ++ tail
        = '[' :: (layout.lineBreak (depth + 1) ++ (printAt layout (depth + 1) j ++
          (printItems layout (depth + 1) rest ++ (layout.lineBreak depth ++ ']' :: tail)))) := by
      simp only [List.append_assoc, List.cons_append, List.nil_append]
    have begins := (begins_printAt layout (depth + 1) j).append
      (printItems layout (depth + 1) rest ++ (layout.lineBreak depth ++ ']' :: tail))
    have skip := (skipSpace_lineBreak layout (depth + 1) _).trans (skipSpace_of_begins begins)
    have items := readItems_printItems hl (depth + 1) depth tail rest j [] fuel
      (h j List.mem_cons_self) (fun k hk => h k (List.mem_cons_of_mem _ hk)) (by omega)
    rw [text, readValue_arr skip begins, items]
    rfl

theorem readsBack_obj (hl : layout.Blank) {members : List (String × Json)}
    (distinct : (members.map Prod.fst).Nodup) (h : ∀ m ∈ members, ReadsBack layout m.2) :
    ReadsBack layout (obj members) := by
  apply readsBack_of
  intro depth fuel tail hf hr
  cases members with
  | nil => rfl
  | cons m rest =>
    obtain ⟨k, j⟩ := m
    rw [printAt] at hf ⊢
    simp only [List.length_append, List.length_cons, List.length_nil] at hf
    have text : '\x7b' :: layout.lineBreak (depth + 1) ++ printString k ++ layout.keySeparator
        ++ printAt layout (depth + 1) j ++ printMembers layout (depth + 1) rest
        ++ layout.lineBreak depth ++ ['\x7d'] ++ tail
        = '\x7b' :: (layout.lineBreak (depth + 1) ++ (printString k ++ (layout.keySeparator ++
          (printAt layout (depth + 1) j ++ (printMembers layout (depth + 1) rest ++
            (layout.lineBreak depth ++ '\x7d' :: tail)))))) := by
      simp only [List.append_assoc, List.cons_append, List.nil_append]
    have begins := (begins_printString k).append (layout.keySeparator ++
      (printAt layout (depth + 1) j ++ (printMembers layout (depth + 1) rest ++
        (layout.lineBreak depth ++ '\x7d' :: tail))))
    have skip := (skipSpace_lineBreak layout (depth + 1) _).trans (skipSpace_of_begins begins)
    have members := readMembers_printMembers hl (depth + 1) depth tail rest k j [] fuel
      (h (k, j) List.mem_cons_self) (fun m hm => h m (List.mem_cons_of_mem _ hm)) (by omega)
    rw [text, readValue_obj skip begins, members]
    simp only [Except.map, List.reverse_nil, List.nil_append, putAll_of_nodup distinct]

theorem readsBack (hl : layout.Blank) {j : Json} (h : Proper j)
    (short : ∀ n, int n ∈ j.atoms → n.natAbs < 10 ^ Text.digitLimit) : ReadsBack layout j := by
  induction h with
  | null => exact readsBack_of fun depth fuel rest _ _ => readValue_of_readAtom rfl fuel
  | bool b =>
    cases b with
    | false => exact readsBack_of fun depth fuel rest _ _ => readValue_of_readAtom rfl fuel
    | true => exact readsBack_of fun depth fuel rest _ _ => readValue_of_readAtom rfl fuel
  | int n =>
    apply readsBack_of
    intro depth fuel rest _ hr
    rw [printAt]
    exact readValue_of_readAtom (readAtom_int (short n (List.mem_singleton_self _)) hr) fuel
  | real hx =>
    apply readsBack_of
    intro depth fuel rest _ hr
    rw [printAt]
    exact readValue_of_readAtom (readAtom_real hx hr) fuel
  | str s =>
    apply readsBack_of
    intro depth fuel rest _ _
    rw [printAt]
    exact readValue_str s rest fuel
  | arr _ ih =>
    exact readsBack_arr hl fun j hj => ih j hj fun n hn => short n (mem_atoms_arr.mpr ⟨j, hj, hn⟩)
  | obj distinct _ ih =>
    exact readsBack_obj hl distinct fun m hm =>
      ih m hm fun n hn => short n (mem_atoms_obj.mpr ⟨m, hm, .inr hn⟩)

theorem isPrintable_iff {j : Json} :
    j.isPrintable = true ↔ ∀ n, int n ∈ j.atoms → n.natAbs < 10 ^ Text.digitLimit := by
  rw [isPrintable, List.all_eq_true]
  -- the power is compared, never computed
  generalize Text.digitLimit = limit
  constructor
  · intro h n hn
    exact of_decide_eq_true (h (int n) hn)
  · intro h a ha
    cases a with
    | int n => exact decide_eq_true (h n ha)
    | null | bool | real | str | arr | obj => rfl

/-- Data are printed just if no integer in them has too many digits. -/
theorem exists_print {j : Json} :
    (∃ text, j.print layout = .ok text) ↔ ∀ n, int n ∈ j.atoms → n.natAbs < 10 ^ Text.digitLimit := by
  rw [← isPrintable_iff, print]
  split
  · rename_i printable
    exact iff_of_true ⟨_, rfl⟩ printable
  · rename_i overlong
    exact iff_of_false nofun overlong

/-- Reading undoes printing, in every layout whose separators are blank. -/
theorem parse_print (hl : layout.Blank) {j : Json} (h : Proper j) {text : String}
    (ht : j.print layout = .ok text) : parse text = .ok j := by
  unfold print at ht
  split at ht
  · rename_i printable
    cases ht
    have begins := begins_printAt layout 0 j
    have read := readsBack hl h (isPrintable_iff.mp printable) 0
      (2 * (printAt layout 0 j).length + 2) [] (by omega) nofun
    rw [List.append_nil] at read
    rw [parse, render, String.toList_ofList, parseChars, skipSpace_of_begins begins, read]
    rfl
  · cases ht

end WsdlCatalog.Json
