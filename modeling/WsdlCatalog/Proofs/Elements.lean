/-
  WsdlCatalog.Proofs.Elements — the elements of a document, as its tags spell them.

  The tokens of a document spell a tree. An element reaches from its start tag to its end tag,
  and what is between them is inside it; a reference to an entity is as good as the text of
  the entity (`Spells`). The node of an element follows from its attributes, from what is
  inside it and from the prefixes that are bound around it (`Builds`).

  Reading goes token by token and keeps the elements that are open. Each of them has grown by
  the nodes of what was spelled inside it (`Grows`), and reading ends when they are closed from
  the innermost one outwards (`Unwinds`).

  Proved: the root element of a document is the node of the tree that the document spells
  (`parse_spelled`).
-/

import WsdlCatalog.Xml.Document
import Mathlib.Data.List.Forall2

namespace WsdlCatalog.Xml

/-! ## Reading that succeeds -/

namespace Expansion

variable {α β : Type} {left rest : Nat}

/-- Reading has the result `a`, and of the allowance `left` it leaves `rest`. -/
def Yields (act : Expansion α) (left : Nat) (a : α) (rest : Nat) : Prop :=
  act.run left = .ok (a, rest)

theorem yields_pure {a b : α} : (pure a : Expansion α).Yields left b rest ↔ b = a ∧ rest = left := by
  show Except.ok (a, left) = _ ↔ _
  rw [Except.ok.injEq, Prod.mk.injEq, eq_comm, @eq_comm _ left]

theorem yields_bind {act : Expansion α} {next : α → Expansion β} {b : β} :
    (act >>= next).Yields left b rest ↔
      ∃ a between, act.Yields left a between ∧ (next a).Yields between b rest := by
  show (act.run left >>= fun x => (next x.1).run x.2) = _ ↔ _
  unfold Yields
  cases h : act.run left with
  | error e => simp [bind, Except.bind]
  | ok x =>
    obtain ⟨a, between⟩ := x
    simp [bind, Except.bind]

theorem yields_throw {e : ReadError} {a : α} : ¬ (throw e : Expansion α).Yields left a rest := by
  intro h
  cases h

theorem yields_lift {x : Except ReadError α} {a : α} :
    (liftM x : Expansion α).Yields left a rest ↔ x = .ok a ∧ rest = left := by
  cases x with
  | error e => exact ⟨nofun, nofun⟩
  | ok b =>
    show Except.ok (b, left) = _ ↔ _
    rw [Except.ok.injEq, Prod.mk.injEq, Except.ok.injEq, @eq_comm _ left]

/-- Steps that only may fail, one for each of a list. -/
theorem yields_mapM {step : α → Expansion β} {f : α → Except ReadError β}
    (only : ∀ a left b rest, (step a).Yields left b rest → f a = .ok b) {as : List α} {bs : List β}
    (h : (as.mapM step).Yields left bs rest) : as.mapM f = .ok bs := by
  induction as generalizing left rest bs with
  | nil =>
    obtain ⟨rfl, -⟩ := yields_pure.mp h
    rfl
  | cons a others ih =>
    rw [List.mapM_cons] at h ⊢
    obtain ⟨b, between, hb, afterFirst⟩ := yields_bind.mp h
    obtain ⟨more, between', hm, done⟩ := yields_bind.mp afterFirst
    rw [only a _ _ _ hb, ih hm, (yields_pure.mp done).1]
    rfl

theorem yields_relocate {line : Nat} {act : Expansion α} {a : α} :
    (relocate line act).Yields left a rest ↔ act.Yields left a rest := by
  show (act.run left).mapError _ = _ ↔ act.run left = _
  cases act.run left with
  | error e => exact ⟨nofun, nofun⟩
  | ok x => rfl

theorem yields_of_run' {act : Expansion α} {a : α} (h : act.run' left = .ok a) :
    ∃ rest, act.Yields left a rest := by
  change Prod.fst <$> act.run left = Except.ok a at h
  unfold Yields
  cases run : act.run left with
  | error e =>
    rw [run] at h
    cases h
  | ok x =>
    rw [run] at h
    cases h
    exact ⟨x.2, rfl⟩

end Expansion

/-! ## Attributes -/

/-- The text that the value of an attribute stands for, in a tag on line `line` of an element in the
texts of the entities `names`. -/
def ValueOf (doctype : Doctype) (names : List String) (line : Nat) (element : String)
    (a : RawAttribute) (entry : String × String) : Prop :=
  entry.1 = a.name ∧ ∃ left value rest,
    (attributeValue doctype (((doctype.rule? element a.name).map (·.isText)).getD true) line names
      a.value).Yields left value rest ∧ entry.2 = String.ofList value

/-- The defaults that are declared for an element, besides those of attributes that it is given. -/
def Doctype.otherDefaults (doctype : Doctype) (element : String) (given : List String) :
    List (String × String) :=
  (doctype.defaults element).filterMap fun x =>
    if given.contains x.1.name then none else some (x.1.name, String.ofList x.2)

/-- The attributes of an element: those of its tag, of different names, and declared defaults. -/
def AttributesOf (doctype : Doctype) (names : List String) (line : Nat) (element : String)
    (raw : List RawAttribute) (attributes : List (String × String)) : Prop :=
  (raw.map (·.name)).Nodup ∧ ∃ given, List.Forall₂ (ValueOf doctype names line element) raw given ∧
    attributes = given ++ doctype.otherDefaults element (raw.map (·.name))

def OpenTag.addAll (line : Nat) (tag : OpenTag) (attributes : List (String × String)) :
    Except ReadError OpenTag :=
  attributes.foldlM (fun tag x => tag.add line x.1 x.2) tag

/-- The node of an element in a scope, from all its attributes and without content. -/
inductive Node.OfAttributes (scope : Bindings) (line : Nat) (name : String)
    (attributes : List (String × String)) : Node → Prop
  | mk {tag : OpenTag} {bound : List (BoundName × String)} {own : BoundName}
      {expanded : String × String} {entries : List (String × String)}
      (declares : OpenTag.addAll line ⟨scope, []⟩ attributes = .ok tag)
      (resolves : boundNames tag.bindings line [] tag.attributes = .ok bound)
      (names : boundElement tag.bindings line name = .ok own) (expands : own.expanded = .ok expanded)
      (keys : bound.mapM (fun x => do return (← x.1.key, x.2)) = .ok entries) :
      OfAttributes scope line name attributes
        ⟨expanded.1, expanded.2, putAll entries, tag.bindings, [], "", line⟩

section

variable {doctype : Doctype} {names : List String} {line : Nat} {element : String}

theorem yields_given {raw : List RawAttribute} {seen : List String} {tag whole : OpenTag}
    {left rest : Nat}
    (h : (OpenTag.given doctype names element line seen tag raw).Yields left whole rest) :
    (raw.map (·.name)).Nodup ∧ (∀ a ∈ raw, a.name ∉ seen) ∧
      ∃ given, List.Forall₂ (ValueOf doctype names line element) raw given ∧
        tag.addAll line given = .ok whole := by
  induction raw generalizing seen tag left with
  | nil =>
    obtain ⟨rfl, -⟩ := Expansion.yields_pure.mp h
    exact ⟨List.nodup_nil, nofun, [], .nil, rfl⟩
  | cons a others ih =>
    unfold OpenTag.given at h
    split at h
    · exact absurd h Expansion.yields_throw
    · rename_i new
      rw [List.contains_iff_mem] at new
      obtain ⟨value, between, hv, afterValue⟩ := Expansion.yields_bind.mp h
      obtain ⟨tag', between', ht, afterTag⟩ := Expansion.yields_bind.mp afterValue
      obtain ⟨added, -⟩ := Expansion.yields_lift.mp ht
      obtain ⟨distinct, fresh, given, values, folded⟩ := ih afterTag
      refine ⟨List.nodup_cons.mpr ⟨fun repeated => ?_, distinct⟩, ?_,
        (a.name, String.ofList value) :: given, .cons ⟨rfl, _, _, _, hv, rfl⟩ values, ?_⟩
      · obtain ⟨b, hb, same⟩ := List.mem_map.mp repeated
        exact fresh b hb (List.mem_cons.mpr (.inl same))
      · refine List.forall_mem_cons.mpr ⟨new, fun b hb hs => fresh b hb (List.mem_cons_of_mem _ hs)⟩
      · rw [OpenTag.addAll, List.foldlM_cons, added]
        exact folded

theorem addAll_otherDefaults {given : List String} {tag whole : OpenTag}
    (h : tag.withDefaults doctype element line given = .ok whole) :
    tag.addAll line (doctype.otherDefaults element given) = .ok whole := by
  unfold OpenTag.withDefaults at h
  unfold OpenTag.addAll Doctype.otherDefaults
  generalize doctype.defaults element = defaults at h ⊢
  induction defaults generalizing tag with
  | nil => exact h
  | cons x others ih =>
    rw [List.foldlM_cons] at h
    dsimp only at h
    split at h
    · rename_i there
      rw [List.filterMap_cons, if_pos there]
      exact ih h
    · rename_i absent
      rw [List.filterMap_cons, if_neg absent, List.foldlM_cons]
      cases added : tag.add line x.1.name (String.ofList x.2) with
      | error e =>
        rw [added] at h
        cases h
      | ok tag' =>
        rw [added] at h
        exact ih h

/-- An element is made of its attributes. -/
theorem yields_ofStartTag {scope : Bindings} {raw : List RawAttribute} {node : Node} {left rest : Nat}
    (h : (Node.ofStartTag doctype names scope line element raw).Yields left node rest) :
    ∃ attributes, AttributesOf doctype names line element raw attributes ∧
      Node.OfAttributes scope line element attributes node := by
  unfold Node.ofStartTag at h
  obtain ⟨tag, _, ht, h⟩ := Expansion.yields_bind.mp h
  obtain ⟨distinct, -, given, values, folded⟩ := yields_given ht
  obtain ⟨whole, _, hd, h⟩ := Expansion.yields_bind.mp h
  obtain ⟨defaults, -⟩ := Expansion.yields_lift.mp hd
  have all : OpenTag.addAll line ⟨scope, []⟩
      (given ++ doctype.otherDefaults element (raw.map (·.name))) = .ok whole := by
    unfold OpenTag.addAll at folded ⊢
    rw [List.foldlM_append, folded]
    exact addAll_otherDefaults defaults
  obtain ⟨bound, _, hb, h⟩ := Expansion.yields_bind.mp h
  obtain ⟨own, _, ho, h⟩ := Expansion.yields_bind.mp h
  obtain ⟨expanded, _, he, h⟩ := Expansion.yields_bind.mp h
  obtain ⟨entries, _, hn, h⟩ := Expansion.yields_bind.mp h
  have keys : bound.mapM (fun x => do return (← x.1.key, x.2)) = .ok entries := by
    refine Expansion.yields_mapM ?_ hn
    intro x left entry rest hx
    obtain ⟨key, _, hk, hx⟩ := Expansion.yields_bind.mp hx
    rw [(Expansion.yields_lift.mp hk).1, (Expansion.yields_pure.mp hx).1]
    rfl
  rw [(Expansion.yields_pure.mp h).1]
  exact ⟨_, ⟨distinct, given, values, rfl⟩, .mk all (Expansion.yields_lift.mp hb).1
    (Expansion.yields_lift.mp ho).1 (Expansion.yields_lift.mp he).1 keys⟩

end

/-! ## What a document spells -/

/-- What an element has inside: characters, or an element with its line, its name as it is written,
its attributes and what it has inside. -/
inductive Item where
  | chars (chars : List Char)
  | element (line : Nat) (name : String) (attributes : List (String × String)) (content : List Item)

def Piece.character? : Piece → Option Char
  | .char c => some c
  | .number n _ => charOfNumber? n
  | .entity name _ => Doctype.predefined? name
  | .fault _ => none

/-- What tokens spell up to an end tag that closes none of their elements, or up to their end, with
what is left. They are those of a text in the entities `names`, which are referred to on the line
`at_`. -/
inductive Spells (doctype : Doctype) :
    List String → Option Nat → Flow Markup → List Item → Flow Markup → Prop
  | finished {names : List String} {at_ : Option Nat} {line : Nat} :
      Spells doctype names at_ (.finished line) [] (.finished line)
  | closing {names : List String} {at_ : Option Nat} {line : Nat} {name : String} {after : Cursor}
      {next : Flow Markup} : Spells doctype names at_ (.token line (.endTag name) after next) []
        (.token line (.endTag name) after next)
  | text {names : List String} {at_ : Option Nat} {line : Nat} {chars : List Char} {after : Cursor}
      {next rest : Flow Markup} {items : List Item} (h : Spells doctype names at_ next items rest) :
      Spells doctype names at_ (.token line (.text chars) after next) (.chars chars :: items) rest
  | aside {names : List String} {at_ : Option Nat} {line : Nat} {after : Cursor}
      {next rest : Flow Markup} {items : List Item} (h : Spells doctype names at_ next items rest) :
      Spells doctype names at_ (.token line .aside after next) items rest
  | character {names : List String} {at_ : Option Nat} {line : Nat} {piece : Piece} {c : Char}
      {after : Cursor} {next rest : Flow Markup} {items : List Item} (hc : piece.character? = some c)
      (h : Spells doctype names at_ next items rest) :
      Spells doctype names at_ (.token line (.reference piece) after next) (.chars [c] :: items) rest
  | nothing {names : List String} {at_ : Option Nat} {line own : Nat} {name : String} {after : Cursor}
      {next rest : Flow Markup} {items : List Item} (plain : Doctype.predefined? name = none)
      (stands : contentEntity? doctype names name = .ok none)
      (h : Spells doctype names at_ next items rest) :
      Spells doctype names at_ (.token line (.reference (.entity name own)) after next) items rest
  | entity {names : List String} {at_ : Option Nat} {line own last : Nat} {name : String}
      {text : List Char} {after : Cursor} {next rest : Flow Markup} {inner items : List Item}
      (plain : Doctype.predefined? name = none)
      (stands : contentEntity? doctype names name = .ok (some text))
      (inside : Spells doctype (name :: names) (some (at_.getD line))
        (Flow.of Markup.scan (.ofReplacement text (at_.getD line))) inner (.finished last))
      (h : Spells doctype names at_ next items rest) :
      Spells doctype names at_ (.token line (.reference (.entity name own)) after next)
        (inner ++ items) rest
  | empty {names : List String} {at_ : Option Nat} {line : Nat} {name : String}
      {raw : List RawAttribute} {attributes : List (String × String)} {after : Cursor}
      {next rest : Flow Markup} {items : List Item}
      (given : AttributesOf doctype names (at_.getD line) name raw attributes)
      (h : Spells doctype names at_ next items rest) :
      Spells doctype names at_ (.token line (.startTag name raw true) after next)
        (.element (at_.getD line) name attributes [] :: items) rest
  | element {names : List String} {at_ : Option Nat} {line last : Nat} {name : String}
      {raw : List RawAttribute} {attributes : List (String × String)} {after after' : Cursor}
      {next next' rest : Flow Markup} {content items : List Item}
      (given : AttributesOf doctype names (at_.getD line) name raw attributes)
      (inside : Spells doctype names at_ next content (.token last (.endTag name) after' next'))
      (h : Spells doctype names at_ next' items rest) :
      Spells doctype names at_ (.token line (.startTag name raw false) after next)
        (.element (at_.getD line) name attributes content :: items) rest

/-- The nodes of the elements among items in a scope, and the characters that are not in them. -/
inductive Builds : Bindings → List Item → List Node → List Char → Prop
  | nil {scope : Bindings} : Builds scope [] [] []
  | chars {scope : Bindings} {cs text : List Char} {items : List Item} {nodes : List Node}
      (h : Builds scope items nodes text) : Builds scope (.chars cs :: items) nodes (cs ++ text)
  | element {scope : Bindings} {line : Nat} {name : String} {attributes : List (String × String)}
      {content items : List Item} {node : Node} {children nodes : List Node} {inner text : List Char}
      (made : Node.OfAttributes scope line name attributes node)
      (inside : Builds node.bindings content children inner) (h : Builds scope items nodes text) :
      Builds scope (.element line name attributes content :: items)
        ({ node with children := children, text := String.ofList (Text.trimChars inner) } :: nodes) text

theorem Builds.append {scope : Bindings} {items more : List Item} {nodes others : List Node}
    {text chars : List Char} (h : Builds scope items nodes text) (h' : Builds scope more others chars) :
    Builds scope (items ++ more) (nodes ++ others) (text ++ chars) := by
  induction h with
  | nil => exact h'
  | chars _ ih =>
    rw [List.append_assoc]
    exact .chars (ih h')
  | element made inside _ _ ih => exact .element made inside (ih h')

/-! ## Open elements -/

/-- An open element has grown by the nodes and the characters of some items. -/
def Grows (current : OpenElement) (items : List Item) (grown : OpenElement) : Prop :=
  ∃ nodes text, Builds current.node.bindings items nodes text ∧
    grown = ⟨current.name, { current.node with children := nodes.reverse ++ current.node.children },
      text.reverse ++ current.text⟩

section

variable {current grown grown' : OpenElement} {items more : List Item}

theorem Grows.refl (current : OpenElement) : Grows current [] current := by
  obtain ⟨name, ⟨uri, tag, attributes, bindings, children, own, line⟩, text⟩ := current
  exact ⟨[], [], .nil, rfl⟩

theorem Grows.trans (h : Grows current items grown) (h' : Grows grown more grown') :
    Grows current (items ++ more) grown' := by
  obtain ⟨nodes, text, built, rfl⟩ := h
  obtain ⟨others, chars, built', rfl⟩ := h'
  refine ⟨nodes ++ others, text ++ chars, built.append built', ?_⟩
  simp

theorem Grows.name (h : Grows current items grown) : grown.name = current.name := by
  obtain ⟨_, _, -, rfl⟩ := h
  rfl

theorem grows_push (current : OpenElement) (chars : List Char) :
    Grows current [.chars chars] (current.push chars) := by
  obtain ⟨name, ⟨uri, tag, attributes, bindings, children, own, line⟩, text⟩ := current
  exact ⟨[], chars, by simpa using Builds.chars .nil, rfl⟩

theorem Node.OfAttributes.children_eq {scope : Bindings} {line : Nat} {name : String}
    {attributes : List (String × String)} {node : Node}
    (made : Node.OfAttributes scope line name attributes node) : node.children = [] := by
  cases made
  rfl

theorem Node.OfAttributes.close_eq {scope : Bindings} {line : Nat} {name : String}
    {attributes : List (String × String)} {node : Node}
    (made : Node.OfAttributes scope line name attributes node) :
    OpenElement.close ⟨name, node, []⟩ = node := by
  cases made
  rfl

/-- An element is closed that was opened with its attributes. -/
theorem Grows.close {scope : Bindings} {line : Nat} {name : String}
    {attributes : List (String × String)} {node : Node} {content : List Item}
    (made : Node.OfAttributes scope line name attributes node)
    (h : Grows ⟨name, node, []⟩ content grown) :
    Builds scope [.element line name attributes content] [grown.close] [] := by
  obtain ⟨nodes, text, built, rfl⟩ := h
  have closed := Builds.element made built .nil
  simpa [OpenElement.close, made.children_eq] using closed

theorem grows_pushChild {child : Node} (h : Builds current.node.bindings items [child] []) :
    Grows current items (current.pushChild child) :=
  ⟨[child], [], h, rfl⟩

end

/-- The tokens close the elements that are open, innermost first, and what they spell inside each of
them is there. The outermost one `grown` is left open, before the tokens `rest`. -/
inductive Unwinds (doctype : Doctype) (names : List String) (at_ : Option Nat) :
    OpenElement → List OpenElement → Flow Markup → OpenElement → Flow Markup → Prop
  | last {current grown : OpenElement} {flow rest : Flow Markup} {items : List Item}
      (spelled : Spells doctype names at_ flow items rest) (grows : Grows current items grown) :
      Unwinds doctype names at_ current [] flow grown rest
  | close {current inner around grown : OpenElement} {outer : List OpenElement} {line : Nat}
      {after : Cursor} {flow next rest : Flow Markup} {items : List Item}
      (spelled : Spells doctype names at_ flow items (.token line (.endTag current.name) after next))
      (grows : Grows current items inner)
      (h : Unwinds doctype names at_ (around.pushChild inner.close) outer next grown rest) :
      Unwinds doctype names at_ current (around :: outer) flow grown rest

section

variable {doctype : Doctype} {names : List String} {at_ : Option Nat}

/-- Tokens before those of the current element, which make it grow. -/
theorem Unwinds.prepend {current further grown : OpenElement} {outer : List OpenElement}
    {flow next rest : Flow Markup} {items : List Item}
    (spelled : ∀ {more : List Item} {rest : Flow Markup}, Spells doctype names at_ next more rest →
      Spells doctype names at_ flow (items ++ more) rest)
    (grows : Grows current items further)
    (h : Unwinds doctype names at_ further outer next grown rest) :
    Unwinds doctype names at_ current outer flow grown rest := by
  cases h with
  | last inside more => exact .last (spelled inside) (grows.trans more)
  | close inside more others =>
    rw [grows.name] at inside
    exact .close (spelled inside) (grows.trans more) others

inductive Ends (doctype : Doctype) (names : List String) (at_ : Option Nat) (current : OpenElement)
    (outer : List OpenElement) (flow : Flow Markup) : Content → Prop
  | closed {grown : OpenElement} {line : Nat} {after : Cursor} {next : Flow Markup}
      (h : Unwinds doctype names at_ current outer flow grown
        (.token line (.endTag grown.name) after next)) :
      Ends doctype names at_ current outer flow (.closed grown.close after)
  | inside {grown : OpenElement} {line : Nat}
      (h : Unwinds doctype names at_ current outer flow grown (.finished line)) :
      Ends doctype names at_ current outer flow (.inside grown [] line)
  | unclosed {inner around : OpenElement} {others : List OpenElement} {line : Nat} :
      Ends doctype names at_ current outer flow (.inside inner (around :: others) line)

theorem Ends.map {current further : OpenElement} {outer outer' : List OpenElement}
    {flow next : Flow Markup} {content : Content}
    (h : Ends doctype names at_ further outer' next content)
    (step : ∀ {grown : OpenElement} {rest : Flow Markup},
      Unwinds doctype names at_ further outer' next grown rest →
      Unwinds doctype names at_ current outer flow grown rest) :
    Ends doctype names at_ current outer flow content := by
  cases h with
  | closed h => exact .closed (step h)
  | inside h => exact .inside (step h)
  | unclosed => exact .unclosed

end

def ContentRule.Expands (rule : ContentRule) : Prop :=
  ∀ {line : Nat} {name : String} {text : List Char} {current grown : OpenElement} {left rest : Nat},
    (rule.expand line name text current).Yields left grown rest →
    ∃ items last, Spells rule.doctype (name :: rule.openNames) (some line)
      (Flow.of Markup.scan (.ofReplacement text line)) items (.finished last) ∧
      Grows current items grown

namespace ContentRule

variable {rule : ContentRule}

theorem yields_reference (expands : rule.Expands) {line : Nat} {settled : Bool}
    {current grown : OpenElement} {piece : Piece} {left rest : Nat}
    (h : (rule.reference (rule.at_.getD line) settled current piece).Yields left grown rest)
    (after : Cursor) (next : Flow Markup) : ∃ items, Grows current items grown ∧
      ∀ {more : List Item} {rest : Flow Markup},
        Spells rule.doctype rule.openNames rule.at_ next more rest →
        Spells rule.doctype rule.openNames rule.at_ (.token line (.reference piece) after next)
          (items ++ more) rest := by
  have one {c : Char} (hc : piece.character? = some c)
      (h : (pure (current.push [c]) : Expansion OpenElement).Yields left grown rest) :
      ∃ items, Grows current items grown ∧ ∀ {more : List Item} {rest : Flow Markup},
        Spells rule.doctype rule.openNames rule.at_ next more rest →
        Spells rule.doctype rule.openNames rule.at_ (.token line (.reference piece) after next)
          (items ++ more) rest := by
    rw [(Expansion.yields_pure.mp h).1]
    exact ⟨[.chars [c]], grows_push current [c], .character hc⟩
  cases piece with
  | char c => exact one rfl h
  | fault e => exact absurd h Expansion.yields_throw
  | number n own =>
    unfold reference at h
    dsimp only at h
    split at h
    · rename_i c hc
      exact one hc h
    · exact absurd h Expansion.yields_throw
  | entity name own =>
    unfold reference at h
    dsimp only at h
    split at h
    · rename_i c hc
      exact one hc h
    · rename_i plain
      split at h
      · exact absurd h Expansion.yields_throw
      · rename_i stands
        rw [(Expansion.yields_pure.mp h).1]
        exact ⟨[], .refl current, .nothing plain stands⟩
      · rename_i text stands
        split at h
        · exact absurd h Expansion.yields_throw
        · obtain ⟨items, last, inside, grows⟩ := expands h
          exact ⟨items, grows, .entity plain stands inside⟩

/-- What is read of tokens is what they spell. The induction is on the tokens, for all elements
that may be open. -/
theorem ends_of_read (expands : rule.Expands) (flow : Flow Markup) {current : OpenElement}
    {outer : List OpenElement} {content : Content} {left rest : Nat}
    (h : (rule.read current outer flow).Yields left content rest) :
    Ends rule.doctype rule.openNames rule.at_ current outer flow content := by
  induction flow generalizing current outer left with
  | finished line =>
    unfold read at h
    rw [(Expansion.yields_pure.mp h).1]
    cases outer with
    | nil => exact .inside (.last .finished (.refl current))
    | cons around others => exact .unclosed
  | broken e =>
    unfold read at h
    exact absurd h Expansion.yields_throw
  | token line markup after next ih =>
    unfold read at h
    cases markup with
    | text chars => exact (ih h).map (.prepend .text (grows_push current chars))
    | aside => exact (ih h).map (.prepend .aside (.refl current))
    | declaration text => exact absurd h Expansion.yields_throw
    | reference piece =>
      obtain ⟨further, between, hr, h⟩ := Expansion.yields_bind.mp h
      obtain ⟨items, grows, spelled⟩ := yields_reference expands hr after next
      exact (ih h).map (.prepend spelled grows)
    | startTag name raw isEmpty =>
      obtain ⟨node, between, hn, h⟩ := Expansion.yields_bind.mp h
      obtain ⟨attributes, given, made⟩ := yields_ofStartTag hn
      cases isEmpty with
      | true =>
        have empty := (Grows.refl ⟨name, node, []⟩).close made
        rw [made.close_eq] at empty
        exact (ih h).map (.prepend (.empty given) (grows_pushChild empty))
      | false =>
        refine (ih h).map fun unwinds => ?_
        cases unwinds with
        | close spelled grows others =>
          exact .prepend (.element given spelled) (grows_pushChild (grows.close made)) others
    | endTag name =>
      cases outer with
      | nil =>
        dsimp only at h
        split at h
        · exact absurd h Expansion.yields_throw
        · split at h
          · exact absurd h Expansion.yields_throw
          · rename_i same
            obtain rfl : name = current.name := by simpa using same
            rw [(Expansion.yields_pure.mp h).1]
            exact .closed (.last .closing (.refl current))
      | cons around outer =>
        dsimp only at h
        split at h
        · exact absurd h Expansion.yields_throw
        · rename_i same
          obtain rfl : name = current.name := by simpa using same
          exact (ih h).map (.close .closing (.refl current))

/-- The induction is on how deep entities may nest. -/
theorem expands_expandEntity (doctype : Doctype) (depth : Nat) (names : List String)
    (at_ : Option Nat) :
    (⟨doctype, names, at_, expandEntity doctype depth names⟩ : ContentRule).Expands := by
  induction depth generalizing names at_ with
  | zero =>
    intro line name text current grown left rest h
    exact absurd h Expansion.yields_throw
  | succ depth ih =>
    intro line name text current grown left rest h
    dsimp only at h ⊢
    unfold expandEntity at h
    obtain ⟨_, between, -, h⟩ := Expansion.yields_bind.mp h
    obtain ⟨content, between', hr, h⟩ := Expansion.yields_bind.mp h
    have ends := ends_of_read (ih (name :: names) (some line)) _ (Expansion.yields_relocate.mp hr)
    split at h
    · rw [(Expansion.yields_pure.mp h).1]
      cases ends with
      | inside unwinds =>
        cases unwinds with
        | last spelled grows => exact ⟨_, _, spelled, grows⟩
    · exact absurd h Expansion.yields_throw

end ContentRule

/-! ## Documents -/

/-- The octets of a document come to its root element with some markup on a line, by when the
document type is known, and go on after it. -/
inductive Opens (octets : List UInt8) : Doctype → Nat → Markup → Cursor → Prop
  | mk {cur root after : Cursor} {standalone : Bool} {doctype : Doctype} {left : Nat}
      {markup : Markup} (text : source octets = .ok (cur, standalone))
      (prolog : (Prolog.read standalone cur).Yields (Expansion.allowance octets.length)
        (doctype, root) left)
      (scanned : Markup.scan (root.chars.length + 1) root = .ok (markup, after)) :
      Opens octets doctype root.line markup after

/-- The octets of a document write its root element. -/
inductive Writes (octets : List UInt8) : Item → Prop
  | empty {doctype : Doctype} {line : Nat} {name : String} {raw : List RawAttribute}
      {attributes : List (String × String)} {after : Cursor}
      (opens : Opens octets doctype line (.startTag name raw true) after)
      (given : AttributesOf doctype [] line name raw attributes) :
      Writes octets (.element line name attributes [])
  | element {doctype : Doctype} {line last : Nat} {name : String} {raw : List RawAttribute}
      {attributes : List (String × String)} {content : List Item} {after after' : Cursor}
      {next : Flow Markup} (opens : Opens octets doctype line (.startTag name raw false) after)
      (given : AttributesOf doctype [] line name raw attributes)
      (inside : Spells doctype [] none (Flow.of Markup.scan after) content
        (.token last (.endTag name) after' next)) :
      Writes octets (.element line name attributes content)

/-- The root element of a document is built from what the document spells. -/
theorem parse_spelled {octets : List UInt8} {root : Node} (h : Node.parse octets = .ok root) :
    ∃ document, Writes octets document ∧ Builds [] [document] [root] [] := by
  unfold Node.parse at h
  cases text : source octets with
  | error e =>
    rw [text] at h
    cases h
  | ok x =>
    obtain ⟨cur, standalone⟩ := x
    rw [text] at h
    obtain ⟨rest, h⟩ := Expansion.yields_of_run' h
    obtain ⟨⟨doctype, place⟩, left, prolog, h⟩ := Expansion.yields_bind.mp h
    unfold Node.atRoot at h
    obtain ⟨⟨markup, after⟩, _, scanned, h⟩ := Expansion.yields_bind.mp h
    obtain ⟨found, -⟩ := Expansion.yields_lift.mp scanned
    have opens := Opens.mk text prolog found
    dsimp only at h
    split at h
    · rename_i name raw isEmpty after same
      obtain ⟨rfl, rfl⟩ := Prod.mk.inj same
      obtain ⟨node, _, opened, afterTag⟩ := Expansion.yields_bind.mp h
      obtain ⟨attributes, given, made⟩ := yields_ofStartTag opened
      split at afterTag
      · rename_i empty
        obtain ⟨_, _, -, done⟩ := Expansion.yields_bind.mp afterTag
        rw [(Expansion.yields_pure.mp done).1, ← made.close_eq]
        subst empty
        exact ⟨_, .empty opens given, (Grows.refl _).close made⟩
      · rename_i open_
        obtain rfl : isEmpty = false := Bool.eq_false_iff.mpr open_
        obtain ⟨content, _, read, afterContent⟩ := Expansion.yields_bind.mp afterTag
        have ends := ContentRule.ends_of_read
          (ContentRule.expands_expandEntity doctype _ [] none) _ read
        cases ends with
        | closed unwinds =>
          cases unwinds with
          | last spelled grows =>
            obtain ⟨_, _, -, done⟩ := Expansion.yields_bind.mp afterContent
            rw [(Expansion.yields_pure.mp done).1]
            rw [grows.name] at spelled
            exact ⟨_, .element opens given spelled, grows.close made⟩
        | inside => exact absurd afterContent Expansion.yields_throw
        | unclosed => exact absurd afterContent Expansion.yields_throw
    · exact absurd h Expansion.yields_throw

end WsdlCatalog.Xml
