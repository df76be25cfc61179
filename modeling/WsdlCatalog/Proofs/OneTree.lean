/-
  WsdlCatalog.Proofs.OneTree — a document spells one tree.

  Entities are paid for from an allowance, but what a value stands for does not depend on how much
  of it is left: reading either fails or has one result (`Expansion.Settled`). So the attributes of
  an element are settled by its tag, and tokens by themselves tell what they spell and where it
  ends (`Spells.unique`).

  Proved: a document has one tree of elements (`Writes.unique`), from which its root element is
  built (`parse_builds`).
-/

import WsdlCatalog.Proofs.Elements

namespace WsdlCatalog.Xml

/-! ## Results that do not depend on the allowance -/

namespace Expansion

variable {α β : Type}

def Settled (act : Expansion α) : Prop :=
  ∀ {left left' rest rest' : Nat} {a b : α},
    act.Yields left a rest → act.Yields left' b rest' → a = b

theorem settled_pure (a : α) : (pure a : Expansion α).Settled := by
  intro _ _ _ _ _ _ h h'
  rw [(yields_pure.mp h).1, (yields_pure.mp h').1]

theorem settled_throw (e : ReadError) : (throw e : Expansion α).Settled :=
  fun h => absurd h yields_throw

theorem settled_lift (x : Except ReadError α) : (liftM x : Expansion α).Settled := by
  intro _ _ _ _ _ _ h h'
  exact Except.ok.inj ((yields_lift.mp h).1.symm.trans (yields_lift.mp h').1)

/-- What is only spent is no result. -/
theorem settled_unit (act : Expansion Unit) : act.Settled := fun _ _ => rfl

theorem settled_bind {act : Expansion α} {next : α → Expansion β} (first : act.Settled)
    (after : ∀ a, (next a).Settled) : (act >>= next).Settled := by
  intro _ _ _ _ _ _ h h'
  obtain ⟨a, _, ha, h⟩ := yields_bind.mp h
  obtain ⟨b, _, hb, h'⟩ := yields_bind.mp h'
  obtain rfl := first ha hb
  exact after a h h'

theorem settled_relocate {line : Nat} {act : Expansion α} (h : act.Settled) :
    (relocate line act).Settled :=
  fun ha hb => h (yields_relocate.mp ha) (yields_relocate.mp hb)

end Expansion

open Expansion

theorem settled_pushPieces {isText : Bool} {expand : Nat → String → List Char → Expansion (List Char)}
    (expands : ∀ own name acc, (expand own name acc).Settled) (pieces : List Piece)
    (acc : List Char) : (pushPieces isText expand pieces acc).Settled := by
  induction pieces generalizing acc with
  | nil => exact settled_pure acc
  | cons piece others ih =>
    cases piece with
    | char c => exact ih _
    | fault e => exact settled_throw e
    | number n own =>
      unfold pushPieces
      split
      · exact ih _
      · exact settled_throw _
    | entity name own =>
      unfold pushPieces
      split
      · exact ih _
      · exact settled_bind (expands own name acc) ih

/-- The induction is on how deep entities may nest. -/
theorem settled_pushEntity (doctype : Doctype) (isText : Bool) (line depth : Nat)
    (names : List String) (own : Nat) (name : String) (acc : List Char) :
    (pushEntity doctype isText line depth names own name acc).Settled := by
  induction depth generalizing names own name acc with
  | zero => exact settled_throw _
  | succ depth ih =>
    unfold pushEntity
    refine settled_bind (settled_lift _) fun stands => ?_
    cases stands with
    | none => exact settled_pure acc
    | some text =>
      refine settled_bind (settled_unit _) fun _ => settled_relocate ?_
      exact settled_pushPieces (ih (name :: names)) _ acc

theorem settled_attributeValue (doctype : Doctype) (isText : Bool) (line : Nat)
    (names : List String) (pieces : List Piece) :
    (attributeValue doctype isText line names pieces).Settled :=
  settled_bind (settled_pushPieces (settled_pushEntity doctype isText line _ names) pieces [])
    fun _ => settled_pure _

/-! ## One tree -/

section

variable {doctype : Doctype} {names : List String} {line : Nat} {element : String}

theorem ValueOf.unique : Relator.RightUnique (ValueOf doctype names line element) := by
  intro a entry entry' h h'
  obtain ⟨name, _, value, _, hv, text⟩ := h
  obtain ⟨name', _, value', _, hv', text'⟩ := h'
  obtain rfl := settled_attributeValue _ _ _ _ _ hv hv'
  exact Prod.ext (name.trans name'.symm) (text.trans text'.symm)

/-- A tag gives its element one list of attributes. -/
theorem AttributesOf.unique {raw : List RawAttribute} {attributes others : List (String × String)}
    (h : AttributesOf doctype names line element raw attributes)
    (h' : AttributesOf doctype names line element raw others) : attributes = others := by
  obtain ⟨-, given, values, rfl⟩ := h
  obtain ⟨-, given', values', rfl⟩ := h'
  rw [ValueOf.unique.forall₂ values values']

/-- Tokens spell one list of items. The induction is on one way of spelling them, which leaves
the other no choice: the first token tells which rule it starts with. -/
theorem Spells.unique {at_ : Option Nat} {flow rest rest' : Flow Markup} {items items' : List Item}
    (h : Spells doctype names at_ flow items rest)
    (h' : Spells doctype names at_ flow items' rest') : items = items' ∧ rest = rest' := by
  induction h generalizing items' rest' with
  | finished =>
    cases h'
    exact ⟨rfl, rfl⟩
  | closing =>
    cases h'
    exact ⟨rfl, rfl⟩
  | text _ ih =>
    cases h' with
    | text h' =>
      obtain ⟨rfl, rfl⟩ := ih h'
      exact ⟨rfl, rfl⟩
  | aside _ ih =>
    cases h' with
    | aside h' => exact ih h'
  | character hc _ ih =>
    cases h' with
    | character hc' h' =>
      obtain ⟨rfl, rfl⟩ := ih h'
      rw [Option.some.inj (hc.symm.trans hc')]
      exact ⟨rfl, rfl⟩
    | nothing plain => cases plain.symm.trans hc
    | entity plain => cases plain.symm.trans hc
  | nothing plain stands _ ih =>
    cases h' with
    | character hc => cases plain.symm.trans hc
    | nothing _ _ h' => exact ih h'
    | entity _ stands' => cases stands.symm.trans stands'
  | entity plain stands _ _ inner ih =>
    cases h' with
    | character hc => cases plain.symm.trans hc
    | nothing _ stands' => cases stands.symm.trans stands'
    | entity _ stands' inside' h' =>
      obtain rfl := Option.some.inj (Except.ok.inj (stands.symm.trans stands'))
      obtain ⟨rfl, -⟩ := inner inside'
      obtain ⟨rfl, rfl⟩ := ih h'
      exact ⟨rfl, rfl⟩
  | empty given _ ih =>
    cases h' with
    | empty given' h' =>
      obtain ⟨rfl, rfl⟩ := ih h'
      rw [given.unique given']
      exact ⟨rfl, rfl⟩
  | element given _ _ inner ih =>
    cases h' with
    | element given' inside' h' =>
      obtain ⟨rfl, ends⟩ := inner inside'
      cases ends
      obtain ⟨rfl, rfl⟩ := ih h'
      rw [given.unique given']
      exact ⟨rfl, rfl⟩

end

theorem Opens.unique {octets : List UInt8} {doctype doctype' : Doctype} {line line' : Nat}
    {markup markup' : Markup} {after after' : Cursor} (h : Opens octets doctype line markup after)
    (h' : Opens octets doctype' line' markup' after') :
    doctype = doctype' ∧ line = line' ∧ markup = markup' ∧ after = after' := by
  obtain ⟨text, prolog, scanned⟩ := h
  obtain ⟨text', prolog', scanned'⟩ := h'
  obtain ⟨rfl, rfl⟩ := Prod.mk.inj (Except.ok.inj (text.symm.trans text'))
  obtain ⟨same, -⟩ := Prod.mk.inj (Except.ok.inj (prolog.symm.trans prolog'))
  obtain ⟨rfl, rfl⟩ := Prod.mk.inj same
  obtain ⟨rfl, rfl⟩ := Prod.mk.inj (Except.ok.inj (scanned.symm.trans scanned'))
  exact ⟨rfl, rfl, rfl, rfl⟩

/-- **A document has one tree.** -/
theorem Writes.unique {octets : List UInt8} {document other : Item} (h : Writes octets document)
    (h' : Writes octets other) : document = other := by
  cases h with
  | empty opens given =>
    cases h' with
    | empty opens' given' =>
      obtain ⟨rfl, rfl, tag, -⟩ := opens.unique opens'
      cases tag
      rw [given.unique given']
    | element opens' => cases (opens.unique opens').2.2.1
  | element opens given inside =>
    cases h' with
    | empty opens' => cases (opens.unique opens').2.2.1
    | element opens' given' inside' =>
      obtain ⟨rfl, rfl, tag, rfl⟩ := opens.unique opens'
      cases tag
      rw [given.unique given', (inside.unique inside').1]

/-- A document that is read has a tree, and its root element is built from this one. -/
theorem parse_builds {octets : List UInt8} {root : Node} (h : Node.parse octets = .ok root) :
    ∃ document, (∀ other, Writes octets other ↔ other = document) ∧
      Builds [] [document] [root] [] := by
  obtain ⟨document, writes, built⟩ := parse_spelled h
  refine ⟨document, fun other => ⟨fun h => h.unique writes, ?_⟩, built⟩
  rintro rfl
  exact writes

end WsdlCatalog.Xml
