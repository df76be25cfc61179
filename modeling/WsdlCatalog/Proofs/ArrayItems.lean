/-
  WsdlCatalog.Proofs.ArrayItems — the items of an encoded array.

  An array states the type of its items by a reference with dimensions behind it. Dimensions are
  brackets, digits, commas and blanks, so whatever is dropped stands behind the prefix: the items
  are of the namespace that the whole text would be of (`meaning_arrayItem`).
-/

import Mathlib.Data.List.DropRight
import Mathlib.Data.List.TakeDrop
import WsdlCatalog.Compile.Reference

namespace WsdlCatalog

namespace Text

variable {sep : Char} {cs before after : List Char}

/-! ## Cuts -/

theorem cut?_of_not_mem (h : sep ∉ cs) : cut? sep cs = none := by
  unfold cut?
  rw [List.span_eq_takeWhile_dropWhile]
  have rest : cs.dropWhile (· != sep) = [] :=
    List.dropWhile_eq_nil_iff.mpr fun c hc => bne_iff_ne.mpr fun e => h (e ▸ hc)
  rw [rest]

theorem cut?_append (h : sep ∉ before) (after : List Char) :
    cut? sep (before ++ sep :: after) = some (before, after) := by
  have all : ∀ c ∈ before, (c != sep) = true := fun c hc => bne_iff_ne.mpr fun e => h (e ▸ hc)
  unfold cut?
  rw [List.span_eq_takeWhile_dropWhile, List.takeWhile_append_of_pos all,
    List.dropWhile_append_of_pos all, List.takeWhile_cons_of_neg (by simp),
    List.dropWhile_cons_of_neg (by simp), List.append_nil]

/-- A text is cut at a character, or does not have it. -/
theorem cut_cases (sep : Char) (cs : List Char) :
    (cut? sep cs = none ∧ sep ∉ cs) ∨
      ∃ before after, cut? sep cs = some (before, after) ∧ cs = before ++ sep :: after ∧
        sep ∉ before := by
  by_cases h : sep ∈ cs
  · obtain ⟨before, after, rfl, hb⟩ := List.eq_append_cons_of_mem h
    exact .inr ⟨before, after, cut?_append hb after, rfl, hb⟩
  · exact .inl ⟨cut?_of_not_mem h, h⟩

/-! ## Blanks -/

/-- Nothing is dropped from a character on that stays. -/
theorem dropWhile_append {drops : Char → Bool} {c : Char} (h : drops c = false)
    (before after : List Char) :
    (before ++ c :: after).dropWhile drops = before.dropWhile drops ++ c :: after := by
  rw [List.dropWhile_append]
  split
  · rename_i nothing
    rw [List.isEmpty_iff.mp nothing, List.dropWhile_cons_of_neg (by rw [h]; exact Bool.false_ne_true)]
    rfl
  · rfl

theorem trimChars_eq (cs : List Char) :
    trimChars cs = (cs.dropWhile isBlank).rdropWhile isBlank := rfl

/-- The blanks at the end are behind what is not blank. -/
theorem rdropWhile_append (before : List Char) {c : Char} (h : isBlank c = false) (after : List Char) :
    (before ++ c :: after).rdropWhile isBlank = before ++ c :: after.rdropWhile isBlank := by
  unfold List.rdropWhile
  rw [List.reverse_append, List.reverse_cons, List.append_assoc, List.singleton_append,
    dropWhile_append h, List.reverse_append, List.reverse_cons, List.reverse_reverse,
    List.append_assoc, List.singleton_append]

def StartsPlain (cs : List Char) : Prop := cs.dropWhile isBlank = cs

theorem StartsPlain.of_initial (h : StartsPlain cs) (hp : before <+: cs) : StartsPlain before := by
  obtain ⟨after, rfl⟩ := hp
  unfold StartsPlain at h ⊢
  cases before with
  | nil => rfl
  | cons c before =>
    cases hc : isBlank c with
    | false => rw [List.dropWhile_cons_of_neg (by rw [hc]; exact Bool.false_ne_true)]
    | true =>
      have shorter := congrArg List.length h
      rw [List.cons_append, List.dropWhile_cons_of_pos hc, List.length_cons] at shorter
      have := List.length_dropWhile_le isBlank (before ++ after)
      omega

theorem startsPlain_trimChars (cs : List Char) : StartsPlain (trimChars cs) :=
  StartsPlain.of_initial (List.dropWhile_idempotent _ _) (List.rdropWhile_prefix _ _)

theorem StartsPlain.trimChars (h : StartsPlain cs) :
    Text.trimChars cs = cs.rdropWhile isBlank := by
  rw [trimChars_eq, h]

end Text

/-! ## Namespaces -/

namespace Reference

/-- The namespace that a prefix stands for at an element, or the prefix if it stands for none. -/
def namespaceAt (site : Site) : Option String → Except String (Option String)
  | none => .ok ((site.node.bindings.lookup "").getD (some site.document.targetNamespace))
  | some pfx =>
    if pfx = "xml" then .ok (some Vocabulary.xml)
    else
      match (site.node.bindings.lookup pfx).join with
      | some uri => .ok (some uri)
      | none => .error pfx

theorem meaning_eq (reference : String) (site : Site) :
    meaning reference site = (namespaceAt site (divide (Text.trim reference)).1).map
      (⟨·, (divide (Text.trim reference)).2⟩) := by
  unfold meaning namespaceAt
  rcases divide (Text.trim reference) with ⟨pfx, localPart⟩
  dsimp only
  cases pfx with
  | none => cases site.node.bindings.lookup "" <;> rfl
  | some pfx =>
    split
    · rename_i given
      cases (Prod.mk.inj given).1
    · rename_i given
      obtain ⟨same, rfl⟩ := Prod.mk.inj given
      rw [same]
      rfl
    · rename_i other given
      obtain ⟨same, rfl⟩ := Prod.mk.inj given
      obtain rfl := Option.some.inj same
      dsimp only
      rw [if_neg other]
      cases (site.node.bindings.lookup pfx).join <;> rfl

end Reference

namespace Compile

open Text

/-! ## Dimensions -/

namespace dropDimensions

def inside (c : Char) : Bool := (digit? c).isSome || c == ',' || isBlank c

variable {n : Nat} {c : Char} {cs inner : List Char}

theorem drop_nil (n : Nat) : drop n [] = [] := by
  cases n with
  | zero => rfl
  | succ n => rfl

theorem drop_closed (n : Nat) (cs : List Char) :
    drop (n + 1) (']' :: cs) = match cs.dropWhile inside with
      | '[' :: inner => drop n inner
      | _ => ']' :: cs := rfl

theorem drop_opened (h : cs.dropWhile inside = '[' :: inner) :
    drop (n + 1) (']' :: cs) = drop n inner := by
  rw [drop_closed, h]
  rfl

theorem drop_unopened (h : ∀ inner, cs.dropWhile inside ≠ '[' :: inner) :
    drop (n + 1) (']' :: cs) = ']' :: cs := by
  rw [drop_closed]
  split
  · rename_i opened
    exact absurd opened (h _)
  · rfl

theorem drop_other (h : c ≠ ']') : drop (n + 1) (c :: cs) = c :: cs := by
  unfold drop
  split
  · rename_i same
    exact absurd (List.cons.inj same).1 h
  · rfl

/-- A text that ends with a bracket has an opening one before it or not. -/
theorem opened_cases (cs : List Char) :
    (∃ inner, cs.dropWhile inside = '[' :: inner) ∨ ∀ inner, cs.dropWhile inside ≠ '[' :: inner := by
  by_cases h : ∃ inner, cs.dropWhile inside = '[' :: inner
  · exact .inl h
  · exact .inr fun inner e => h ⟨inner, e⟩

theorem length_inner (h : cs.dropWhile inside = '[' :: inner) : inner.length < cs.length := by
  have shorter := List.length_dropWhile_le inside cs
  rw [h, List.length_cons] at shorter
  exact shorter

/-- Read from behind, dimensions end before a colon. -/
theorem drop_append (n : Nat) : ∀ {m : Nat} {cs : List Char} (rest : List Char),
    cs.length ≤ n → cs.length ≤ m → drop n (cs ++ ':' :: rest) = drop m cs ++ ':' :: rest := by
  induction n with
  | zero =>
    intro m cs rest hn _
    rw [List.length_eq_zero_iff.mp (Nat.le_zero.mp hn), drop_nil]
    rfl
  | succ n ih =>
    intro m cs rest hn hm
    cases cs with
    | nil =>
      rw [drop_nil]
      rfl
    | cons c cs =>
      cases m with
      | zero => cases hm
      | succ m =>
        rw [List.cons_append]
        by_cases hc : c = ']'
        · subst hc
          have behind := dropWhile_append (rfl : inside ':' = false) cs rest
          rcases opened_cases cs with ⟨inner, opened⟩ | unopened
          · have := length_inner opened
            rw [List.length_cons] at hn hm
            rw [opened] at behind
            rw [drop_opened behind, drop_opened opened]
            exact ih rest (by omega) (by omega)
          · have unopened' : ∀ inner, (cs ++ ':' :: rest).dropWhile inside ≠ '[' :: inner := by
              intro inner e
              rw [behind] at e
              cases within : cs.dropWhile inside with
              | nil =>
                rw [within] at e
                cases e
              | cons o inner =>
                rw [within] at e
                exact unopened inner (by rw [within, (List.cons.inj e).1])
            rw [drop_unopened unopened, drop_unopened unopened']
            rfl
        · rw [drop_other hc, drop_other hc]
          rfl

theorem drop_suffix (n : Nat) : ∀ cs : List Char, drop n cs <:+ cs := by
  induction n with
  | zero => exact fun cs => List.suffix_refl cs
  | succ n ih =>
    intro cs
    cases cs with
    | nil => exact (drop_nil _).symm ▸ List.suffix_refl _
    | cons c cs =>
      by_cases hc : c = ']'
      · subst hc
        rcases opened_cases cs with ⟨inner, opened⟩ | unopened
        · have within := List.dropWhile_suffix (l := cs) inside
          rw [opened] at within
          rw [drop_opened opened]
          exact (ih inner).trans
            (((List.suffix_cons _ _).trans within).trans (List.suffix_cons _ _))
        · exact (drop_unopened unopened).symm ▸ List.suffix_refl _
      · exact (drop_other hc).symm ▸ List.suffix_refl _

end dropDimensions

/-- What is dropped stands behind any colon. -/
theorem dropDimensions_append (before after : List Char) :
    dropDimensions (before ++ ':' :: after) = before ++ ':' :: dropDimensions after := by
  have long : after.reverse.length ≤ (before ++ ':' :: after).length := by
    rw [List.length_reverse, List.length_append, List.length_cons]
    omega
  unfold dropDimensions
  rw [List.reverse_append, List.reverse_cons, List.append_assoc, List.singleton_append,
    dropDimensions.drop_append _ _ long (Nat.le_of_eq List.length_reverse), List.reverse_append,
    List.reverse_cons, List.reverse_reverse, List.append_assoc, List.singleton_append]

theorem dropDimensions_initial (cs : List Char) : dropDimensions cs <+: cs := by
  unfold dropDimensions
  rw [← List.reverse_suffix, List.reverse_reverse]
  exact dropDimensions.drop_suffix _ _

/-! ## Items -/

def arrayItem (written : String) : String :=
  String.ofList (dropDimensions (trimChars written.toList))

/-- The local part of it, from the local part of the whole text. -/
def itemPart (localPart : String) : String :=
  String.ofList ((dropDimensions localPart.toList).rdropWhile isBlank)

theorem divide_arrayItem (written : String) :
    Reference.divide (trim (arrayItem written))
      = ((Reference.divide (trim written)).1, itemPart (Reference.divide (trim written)).2) := by
  have plain := startsPlain_trimChars written.toList
  have plain' := plain.of_initial (dropDimensions_initial _)
  unfold Reference.divide trim arrayItem
  rw [String.toList_ofList, String.toList_ofList, String.toList_ofList, plain'.trimChars]
  rcases cut_cases ':' (trimChars written.toList) with ⟨uncut, none⟩ | ⟨before, after, cut, same, h⟩
  · have shorter := (List.rdropWhile_prefix isBlank (dropDimensions (trimChars written.toList))).trans
      (dropDimensions_initial _)
    rw [uncut, cut?_of_not_mem fun hm => none (shorter.subset hm)]
    unfold itemPart
    dsimp only
    rw [String.toList_ofList]
  · rw [cut, same, dropDimensions_append, rdropWhile_append _ (by decide), cut?_append h]
    unfold itemPart
    dsimp only
    rw [String.toList_ofList]

/-- Items are of the namespace of the whole text. -/
theorem meaning_arrayItem (written : String) (site : Site) :
    Reference.meaning (arrayItem written) site
      = (Reference.meaning written site).map fun name => ⟨name.uri, itemPart name.localPart⟩ := by
  rw [Reference.meaning_eq, Reference.meaning_eq, divide_arrayItem]
  cases Reference.namespaceAt site (Reference.divide (trim written)).1 with
  | ok uri => rfl
  | error pfx => rfl

end Compile

end WsdlCatalog
