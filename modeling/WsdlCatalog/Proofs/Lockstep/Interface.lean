/-
  WsdlCatalog.Proofs.Lockstep.Interface — service descriptions in two compilations.

  Proved: a relation between steps that holds of references, and of the report of an
  operation whose name is taken, holds of the operations of a service
  (`Lockstep.interface`).
-/

import WsdlCatalog.Proofs.Lockstep

namespace WsdlCatalog

namespace Compile

structure Carries (Good : TypeRef → Prop) (o : Operation) : Prop where
  input : ∀ name, o.inputType = some name →
    ∃ ref, Good ref ∧ ref.kind = .structural ∧ ref.name = some name
  output : ∀ name, o.outputType = some name →
    ∃ ref, Good ref ∧ ref.kind = .structural ∧ ref.name = some name

/-- The operations of a service under their names, of which each carries good types. -/
def SameOperations (Good : TypeRef → Prop) (a b : List (String × Operation)) : Prop :=
  a = b ∧ ∀ o ∈ a, Carries Good o.2

/-- What a message carries, if there is one. -/
def carried (setting : Setting) (interface : Interface) (operation : String)
    (message : Option Xml.Node) : Compile (Option QName × Option String) := do
  match message.bind fun message =>
      (message.childrenOf Vocabulary.wsdl "part").findSome? fun part =>
        (part.filled? "element").map (part, ·) with
  | none => return (none, none)
  | some (part, reference) =>
    match ← qualify setting reference (interface.site part) (some operation) with
    | none => return (none, none)
    | some name =>
      match ← lookup setting .element reference (interface.site part) (some operation) with
      | none => return (some name, none)
      | some d =>
        let ref ← globalElementType setting d (some operation)
        return (some name, if ref.kind == .structural then ref.name else none)

theorem payload_eq (setting : Setting) (interface : Interface) (operation : String)
    (direction : Option Xml.Node) :
    payload setting interface operation direction =
      (match direction.bind fun node => (node.filled? "message").map (node, ·) with
        | none => pure none
        | some (node, reference) => do
          let name ← qualify setting reference (interface.site node) (some operation)
          return name.bind fun name => interface.messages.lookup name)
        >>= carried setting interface operation := by
  unfold payload carried
  dsimp only
  cases direction.bind fun node => (node.filled? "message").map (node, ·) with
  | none => rfl
  | some d =>
    refine Eq.trans ?_ (bind_assoc _ _ _).symm
    exact bind_congr fun name => (pure_bind _ _).symm

namespace Lockstep

variable {S T : Setting}
  {R : ∀ {α β : Type}, (α → β → Prop) → Compile α → Compile β → Prop}
  {Good : TypeRef → Prop} {Noted : Prop}

theorem addBindings (L : Lockstep S T R Good Noted) (interface : Interface) :
    R Eq (addBindings S interface) (addBindings T interface) := by
  refine L.bind (V := Eq) (L.filterMapM (fun binding => ?_) _) ?_
  · split
    · exact L.pure rfl
    · refine L.bind (L.qualify _ rfl _) ?_
      intro name _ h
      rcases h with ⟨rfl, -⟩
      exact L.pure rfl
  · intro found _ same
    subst same
    exact L.pure rfl

/-- Messages carry the same, of a good type if it is a structural one. -/
def SamePayload (Good : TypeRef → Prop) (a b : Option QName × Option String) : Prop :=
  a = b ∧ ∀ name, a.2 = some name → ∃ ref, Good ref ∧ ref.kind = .structural ∧ ref.name = some name

theorem carried (L : Lockstep S T R Good Noted) (interface : Interface) (operation : String)
    (message : Option Xml.Node) :
    R (SamePayload Good) (carried S interface operation message)
      (carried T interface operation message) := by
  unfold Compile.carried
  split
  · exact L.pure ⟨rfl, fun _ e => nomatch e⟩
  · refine L.bind (L.qualify _ rfl _) ?_
    intro name _ h
    rcases h with ⟨rfl, -⟩
    cases name with
    | none => exact L.pure ⟨rfl, fun _ e => nomatch e⟩
    | some name =>
      refine L.bind (L.lookup .element _ rfl _) ?_
      intro _ _ h
      rcases h with ⟨rfl, rfl, -⟩ | ⟨d, e, rfl, rfl, hb, hd, -⟩
      · exact L.pure ⟨rfl, fun _ e => nomatch e⟩
      · refine L.bind (L.globalElementType hb hd _) ?_
        intro ref _ hg
        rcases hg with ⟨rfl, hg⟩
        refine L.pure ⟨rfl, fun n hn => ?_⟩
        dsimp only at hn
        split at hn
        · rename_i hk
          exact ⟨ref, hg, eq_of_beq hk, hn⟩
        · cases hn

theorem payload (L : Lockstep S T R Good Noted) (interface : Interface) (operation : String)
    (direction : Option Xml.Node) :
    R (SamePayload Good) (payload S interface operation direction)
      (payload T interface operation direction) := by
  rw [payload_eq, payload_eq]
  refine L.bind (V := Eq) ?_ fun a b h => h ▸ L.carried interface operation a
  split
  · exact L.pure rfl
  · refine L.bind (L.qualify _ rfl _) ?_
    intro name _ given
    rcases given with ⟨rfl, -⟩
    exact L.pure rfl

theorem operationOf (L : Lockstep S T R Good Noted) (interface : Interface) (portType : QName)
    (name : String) (node : Xml.Node) :
    R (fun a b => a = b ∧ Carries Good a) (operationOf S interface portType name node)
      (operationOf T interface portType name node) := by
  refine L.bind (L.payload interface name _) ?_
  intro pair _ hi
  rcases pair with ⟨inputElement, inputType⟩
  rcases hi with ⟨rfl, hi⟩
  refine L.bind (L.payload interface name _) ?_
  intro pair _ ho
  rcases pair with ⟨outputElement, outputType⟩
  rcases ho with ⟨rfl, ho⟩
  exact L.pure ⟨rfl, hi, ho⟩

theorem addOperation (L : Lockstep S T R Good Noted)
    (hr : ∀ interface name portType, R Eq (addDiagnostic (duplicateOperation interface name portType))
      (addDiagnostic (duplicateOperation interface name portType)))
    (interface : Interface) (portType : QName × Xml.Node) (node : Xml.Node)
    {a b : List (String × Operation)} (h : SameOperations Good a b) :
    R (SameOperations Good) (addOperation S interface portType a node)
      (addOperation T interface portType b node) := by
  obtain ⟨rfl, h⟩ := h
  unfold Compile.addOperation
  split
  · exact L.pure ⟨rfl, h⟩
  · split
    · exact L.bind (hr _ _ _) fun _ _ _ => L.pure ⟨rfl, h⟩
    · refine L.bind (L.operationOf interface portType.1 _ node) ?_
      intro o _ ho
      rcases ho with ⟨rfl, ho⟩
      refine L.pure ⟨rfl, fun x hx => ?_⟩
      rcases List.mem_append.mp hx with hx | hx
      · exact h x hx
      · rw [List.mem_singleton.mp hx]
        exact ho

def SameInterface (Good : TypeRef → Prop) (a b : List Operation × Option String) : Prop :=
  a = b ∧ ∀ o ∈ a.1, Carries Good o

theorem mem_byName {α : Type} {entries : List (String × α)} {a : α}
    (h : a ∈ Inventory.byName entries) : ∃ name, (name, a) ∈ entries := by
  obtain ⟨⟨name, _⟩, hm, rfl⟩ := List.mem_map.mp h
  exact ⟨name, List.mem_mergeSort.mp hm⟩

theorem interface (L : Lockstep S T R Good Noted)
    (hr : ∀ interface name portType, R Eq (addDiagnostic (duplicateOperation interface name portType))
      (addDiagnostic (duplicateOperation interface name portType)))
    {set set' : SchemaSet} (hl : set.location = set'.location)
    (hd : set.definitions = set'.definitions) :
    R (SameInterface Good) (interface S set) (interface T set') := by
  unfold Compile.interface
  rw [hl, hd]
  split
  · exact L.pure ⟨rfl, fun _ h => absurd h List.not_mem_nil⟩
  · refine L.bind (L.addBindings _) ?_
    intro interface _ same
    subst same
    have folded : R (SameOperations Good)
        (interface.portTypes.foldlM (fun operations portType =>
          (portType.2.childrenOf Vocabulary.wsdl "operation").foldlM
            (Compile.addOperation S interface portType) operations) [])
        (interface.portTypes.foldlM (fun operations portType =>
          (portType.2.childrenOf Vocabulary.wsdl "operation").foldlM
            (Compile.addOperation T interface portType) operations) []) := by
      refine L.foldlM (P := Eq) (List.forall₂_refl _) ?_ _ _
        ⟨rfl, fun _ h => absurd h List.not_mem_nil⟩
      intro a b portType _ same h
      subst same
      refine L.foldlM (P := Eq) (List.forall₂_refl _) ?_ _ _ h
      intro a b node _ same h
      subst same
      exact L.addOperation hr interface portType node h
    refine L.bind folded ?_
    intro operations _ given
    rcases given with ⟨rfl, h⟩
    refine L.pure ⟨rfl, fun o ho => ?_⟩
    obtain ⟨name, hm⟩ := mem_byName ho
    exact h _ hm

end Lockstep

end Compile

end WsdlCatalog
