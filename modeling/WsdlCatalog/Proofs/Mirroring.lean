/-
  WsdlCatalog.Proofs.Mirroring — the nodes of a document, element by element.

  Positions lead from the root of a document to an element, counting the elements inside each
  one on the way, and from the root node to a node in the same way (`Item.at?`, `Node.at?`).
  The way also tells what is around an element: the elements that the initial parts of the
  positions lead to. What is beside it or behind it is not on the way.

  Proved, of a document that is read and of all positions (`parse_mirrors`): they lead to a
  node iff they lead to an element, and the node says of it (`Mirrors`)
  - the prefixes that the element or one around it declares and no others, each once and as the
    nearest of these declarations has it, which is no namespace where the default namespace was
    undeclared;
  - one child for each of the elements inside, in their order;
  - the characters that are directly inside, from all their pieces and without the blanks at the
    two ends (`Stripped`).
-/

import WsdlCatalog.Proofs.ArrayItems
import WsdlCatalog.Proofs.Scoping

namespace WsdlCatalog

namespace Text

structure Stripped (whole text : List Char) : Prop where
  parts : ∃ before after, whole = before ++ text ++ after ∧ ∀ c ∈ before ++ after, isBlank c = true
  first : ∀ c, text.head? = some c → isBlank c = false
  last : ∀ c, text.getLast? = some c → isBlank c = false

theorem stripped_trimChars (cs : List Char) : Stripped cs (trimChars cs) where
  parts := by
    refine ⟨cs.takeWhile isBlank, (cs.dropWhile isBlank).rtakeWhile isBlank, ?_, fun c hc => ?_⟩
    · rw [trimChars_eq, List.append_assoc, List.rdropWhile_append_rtakeWhile,
        List.takeWhile_append_dropWhile]
    · rcases List.mem_append.mp hc with hc | hc
      · exact List.mem_takeWhile_imp hc
      · exact List.mem_rtakeWhile_imp hc
  first c hc := by
    have plain : (trimChars cs).dropWhile isBlank = trimChars cs := startsPlain_trimChars cs
    have given := List.head?_dropWhile_not isBlank (trimChars cs)
    rw [plain, hc] at given
    exact given
  last c hc := by
    obtain ⟨some_, rfl⟩ := List.mem_getLast?_eq_getLast hc
    exact Bool.eq_false_iff.mpr (List.rdropWhile_last_not isBlank (cs.dropWhile isBlank) some_)

end Text

namespace Xml

/-! ## Elements -/

namespace Item

def attributes : Item → List (String × String)
  | .element _ _ attributes _ => attributes
  | .chars _ => []

def content : Item → List Item
  | .element _ _ _ content => content
  | .chars _ => []

def at? : Item → List Nat → Option Item
  | item, [] => some item
  | item, i :: path => (elements item.content)[i]?.bind fun inner => inner.at? path

/-- What the element that positions lead to declares a prefix to be itself, if it does. -/
def declared? (document : Item) (path : List Nat) (pfx : String) : Option (Option String) :=
  (document.at? path).bind fun element => declares? element.attributes pfx

theorem declared?_nil (item : Item) (pfx : String) :
    item.declared? [] pfx = declares? item.attributes pfx := rfl

theorem declared?_cons (item : Item) (i : Nat) (path : List Nat) (pfx : String) :
    item.declared? (i :: path) pfx
      = (elements item.content)[i]?.bind fun inner => inner.declared? path pfx :=
  Option.bind_assoc ..

theorem nearest?_nil (item : Item) (pfx : String) :
    item.nearest? pfx [] = declares? item.attributes pfx := by
  cases item <;> rfl

theorem nearest?_cons (item : Item) (i : Nat) (path : List Nat) (pfx : String) :
    item.nearest? pfx (i :: path) = ((elements item.content)[i]?.bind (nearest? pfx path)).or
      (declares? item.attributes pfx) := by
  cases item <;> rfl

/-- There is no declaration on the way iff none of the elements on it declares the prefix. -/
theorem nearest?_eq_none (path : List Nat) {item : Item} {pfx : String} :
    item.nearest? pfx path = none ↔ ∀ above, above <+: path → item.declared? above pfx = none := by
  induction path generalizing item with
  | nil =>
    rw [nearest?_nil]
    simp only [List.prefix_nil, forall_eq, declared?_nil]
  | cons i path ih =>
    rw [nearest?_cons, Option.or_eq_none_iff, Option.bind_eq_none_iff]
    simp only [List.prefix_cons_iff]
    constructor
    · rintro ⟨below, own⟩ above (rfl | ⟨above, rfl, initial⟩)
      · exact own
      · rw [declared?_cons, Option.bind_eq_none_iff]
        exact fun inner inside => ih.mp (below inner inside) above initial
    · intro none_
      refine ⟨fun inner inside => ih.mpr fun above initial => ?_, none_ [] (.inl rfl)⟩
      have below := none_ (i :: above) (.inr ⟨above, rfl, initial⟩)
      rw [declared?_cons] at below
      exact Option.bind_eq_none_iff.mp below inner inside

/-- The declaration on the way that no other one is nearer than. -/
theorem nearest?_eq_some {path above : List Nat} {item : Item} {pfx : String}
    {value : Option String} (initial : above <+: path)
    (declared : item.declared? above pfx = some value)
    (nearest : ∀ nearer, nearer <+: path → above.length < nearer.length →
      item.declared? nearer pfx = none) : item.nearest? pfx path = some value := by
  induction path generalizing item above with
  | nil =>
    obtain rfl := List.prefix_nil.mp initial
    rw [nearest?_nil]
    exact declared
  | cons i path ih =>
    rw [nearest?_cons]
    rcases List.prefix_cons_iff.mp initial with rfl | ⟨above, rfl, shorter⟩
    -- the outermost element counts only where nothing further on the way declares the prefix
    · have below : (elements item.content)[i]?.bind (nearest? pfx path) = none := by
        refine Option.bind_eq_none_iff.mpr fun inner inside => ?_
        refine (nearest?_eq_none path).mpr fun nearer further => ?_
        have none_ := nearest (i :: nearer) (List.cons_prefix_cons.mpr ⟨rfl, further⟩)
          (Nat.succ_pos _)
        rw [declared?_cons] at none_
        exact Option.bind_eq_none_iff.mp none_ inner inside
      rw [below, Option.none_or]
      exact declared
    · rw [declared?_cons] at declared
      obtain ⟨inner, inside, declared⟩ := Option.bind_eq_some_iff.mp declared
      have below := ih shorter declared fun nearer further longer => by
        have none_ := nearest (i :: nearer) (List.cons_prefix_cons.mpr ⟨rfl, further⟩)
          (Nat.succ_lt_succ longer)
        rwa [declared?_cons, inside] at none_
      rw [inside, Option.bind_some, below, Option.some_or]

end Item

def characters (items : List Item) : List Char :=
  items.flatMap fun
    | .chars cs => cs
    | .element _ _ _ _ => []

/-! ## Nodes -/

/-- A node has the line of an element, and its name in the namespace that is bound there. -/
inductive NodeOf : Item → Node → Prop
  | mk {line : Nat} {name : String} {attributes : List (String × String)} {content : List Item}
      {node : Node} {own : BoundName} (begins : node.line = line)
      (names : boundElement node.bindings line name = .ok own)
      (expands : own.expanded = .ok (node.uri, node.tag)) :
      NodeOf (.element line name attributes content) node

theorem OpenTag.nodup_add {line : Nat} {tag tag' : OpenTag} {name value : String}
    (h : tag.add line name value = .ok tag') (hn : (tag.bindings.map Prod.fst).Nodup) :
    (tag'.bindings.map Prod.fst).Nodup := by
  unfold OpenTag.add at h
  split at h
  · split at h
    · cases h
      exact nodup_put hn _ _
    · cases h
  · cases h
    exact hn

theorem OpenTag.nodup_addAll {line : Nat} {attributes : List (String × String)}
    {tag whole : OpenTag} (h : tag.addAll line attributes = .ok whole)
    (hn : (tag.bindings.map Prod.fst).Nodup) : (whole.bindings.map Prod.fst).Nodup := by
  unfold OpenTag.addAll at h
  induction attributes generalizing tag with
  | nil =>
    cases h
    exact hn
  | cons x others ih =>
    rw [List.foldlM_cons] at h
    cases added : tag.add line x.1 x.2 with
    | error e =>
      rw [added] at h
      cases h
    | ok tag' =>
      rw [added] at h
      exact ih h (OpenTag.nodup_add added hn)

section

variable {scope : Bindings} {line : Nat} {name : String} {attributes : List (String × String)}
  {node : Node}

/-- A prefix is bound once. -/
theorem Node.OfAttributes.nodup (made : Node.OfAttributes scope line name attributes node)
    (hn : (scope.map Prod.fst).Nodup) : (node.bindings.map Prod.fst).Nodup := by
  cases made with
  | mk declares => exact OpenTag.nodup_addAll declares hn

/-- Content does not tell whose node it is. -/
theorem Node.OfAttributes.nodeOf (made : Node.OfAttributes scope line name attributes node)
    (content : List Item) (children : List Node) (text : String) :
    NodeOf (.element line name attributes content) { node with children, text } := by
  cases made with
  | mk _ _ names expands => exact .mk rfl names expands

end

/-- Items build the nodes of their elements, and have their characters around these. -/
theorem Builds.nodes {scope : Bindings} {items : List Item} {nodes : List Node} {text : List Char}
    (h : Builds scope items nodes text) :
    List.Forall₂ NodeOf (elements items) nodes ∧ text = characters items := by
  induction h with
  | nil => exact ⟨.nil, rfl⟩
  | chars _ ih => exact ⟨ih.1, congrArg (_ ++ ·) ih.2⟩
  | element made _ _ _ ih => exact ⟨.cons (made.nodeOf _ _ _) ih.1, ih.2⟩

/-- Positions lead to an element and to the node that it builds in the scope around it, or to
neither. The induction is on the way. -/
theorem Builds.rel_at? (path : List Nat) {scope : Bindings} {item : Item} {root : Node}
    {text : List Char} (h : Builds scope [item] [root] text) (hn : (scope.map Prod.fst).Nodup) :
    Option.Rel (fun element node => ∃ (around : Bindings) (text : List Char),
      (around.map Prod.fst).Nodup ∧ Builds around [element] [node] text)
      (item.at? path) (root.at? path) := by
  induction path generalizing scope item root text with
  | nil => exact .some ⟨scope, text, hn, h⟩
  | cons i path ih =>
    cases h with
    | chars h => cases h
    | @element _ _ _ attributes content _ own children _ _ _ made inside =>
      unfold Item.at? Node.at?
      dsimp only [Item.content]
      obtain ⟨none_, none'⟩ | ⟨inner, child, some_, some', built⟩ :=
        rel_cases (rel_getElem? inside.each i)
      · rw [none_, none']
        exact .none
      · rw [some_, some']
        exact ih built (made.nodup hn)

/-! ## What a node says -/

structure Mirrors (document : Item) (path : List Nat) (element : Item) (node : Node) : Prop where
  nodeOf : NodeOf element node
  once : (node.bindings.map Prod.fst).Nodup
  /-- A prefix is bound iff it is declared on the way to the element or at the element. -/
  bound_iff : ∀ pfx, pfx ∈ node.bindings.map Prod.fst ↔
    ∃ above, above <+: path ∧ (document.declared? above pfx).isSome
  /-- It is bound as the nearest of these declarations says. -/
  nearest : ∀ pfx above value, above <+: path → document.declared? above pfx = some value →
    (∀ nearer, nearer <+: path → above.length < nearer.length →
      document.declared? nearer pfx = none) → (pfx, value) ∈ node.bindings
  children : List.Forall₂ NodeOf (elements element.content) node.children
  text : Text.Stripped (characters element.content) node.text.toList

/-- A node that is built in a scope says all this, if its bindings are the nearest declarations. -/
theorem Builds.mirrors {document element : Item} {path : List Nat} {node : Node} {around : Bindings}
    {text : List Char} (h : Builds around [element] [node] text) (hn : (around.map Prod.fst).Nodup)
    (lookup : ∀ pfx, node.bindings.lookup pfx = document.nearest? pfx path) :
    Mirrors document path element node := by
  cases h with
  | chars h => cases h
  | @element _ _ _ attributes content _ own children _ inner _ made inside =>
    obtain ⟨nodes, rfl⟩ := inside.nodes
    refine ⟨made.nodeOf _ _ _, made.nodup hn, fun pfx => ?_, fun pfx above value initial declared
      nearest => ?_, nodes, ?_⟩
    · rw [← not_iff_not, ← lookup_eq_none, lookup, Item.nearest?_eq_none]
      simp only [not_exists, not_and, Option.not_isSome_iff_eq_none]
    · exact mem_of_lookup ((lookup pfx).trans (Item.nearest?_eq_some initial declared nearest))
    · dsimp only [Item.content]
      rw [String.toList_ofList]
      exact Text.stripped_trimChars _

/-- **The nodes of a document mirror its elements:** at the same positions, with the prefixes in
scope, the children in their order, and the text. -/
theorem parse_mirrors {octets : List UInt8} {root : Node} (h : Node.parse octets = .ok root) :
    ∃ document, (∀ other, Writes octets other ↔ other = document) ∧
      ∀ path, Option.Rel (Mirrors document path) (document.at? path) (root.at? path) := by
  obtain ⟨document, written, built⟩ := parse_builds h
  refine ⟨document, written, fun path => ?_⟩
  obtain ⟨none_, none'⟩ | ⟨element, node, some_, some', around, _, hn, builds⟩ :=
    rel_cases (built.rel_at? path List.nodup_nil)
  · rw [none_, none']
    exact .none
  · rw [some_, some']
    refine .some (builds.mirrors hn fun pfx => ?_)
    rw [built.lookup path some']
    exact Option.or_none

/-! ## Scopes inside one another -/

/-- An element that binds a prefix again and undeclares the default namespace, between texts, and
one behind it. What an entity stands for is inside the element that refers to it. -/
def nestedScopes : List UInt8 :=
  SchemaSet.octetsOf ("<!DOCTYPE a [<!ENTITY e '<c/> z '>]><a xmlns:p='urn:1' xmlns='urn:d'> x"
    ++ "<b xmlns:p='urn:2' xmlns=''>&e;<![CDATA[&]]></b>y <d/></a>")

def nestedNodes : List (String × Bindings × String) :=
  [("a", [("p", some "urn:1"), ("", some "urn:d")], "xy"),
    ("b", [("p", some "urn:2"), ("", none)], "z &"), ("c", [("p", some "urn:2"), ("", none)], ""),
    ("d", [("p", some "urn:1"), ("", some "urn:d")], "")]

theorem nestedScopes_nodes : (Node.parse nestedScopes).toOption.map (fun root =>
    root.walk.map fun node => (node.tag, node.bindings, node.text)) = some nestedNodes := by
  decide +kernel

theorem nestedScopes_mirrored : ∃ root, Node.parse nestedScopes = .ok root ∧
    (root.walk.map fun node => (node.tag, node.bindings, node.text)) = nestedNodes ∧
    ∃ document, Writes nestedScopes document ∧
      ∀ path, Option.Rel (Mirrors document path) (document.at? path) (root.at? path) := by
  obtain ⟨root, parsed, nodes⟩ := Option.map_eq_some_iff.mp nestedScopes_nodes
  obtain ⟨document, written, mirrored⟩ := parse_mirrors (ok_of_toOption parsed)
  exact ⟨root, ok_of_toOption parsed, nodes, document, (written document).mpr rfl, mirrored⟩

end Xml

end WsdlCatalog
