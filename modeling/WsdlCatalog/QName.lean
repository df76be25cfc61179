/-
  WsdlCatalog.QName — names of declarations: a namespace and a local name; and the
  namespaces that service descriptions are written in.

  Where the default namespace was undeclared, an unprefixed name has no namespace at
  all. Names are ordered by namespace, then by local name, code point by code point.

  Proved: names in namespaces without a closing brace are told apart by their keys
  (`key_injective`).
-/

namespace WsdlCatalog

/-! ## Namespaces of service descriptions -/

namespace Vocabulary

def xsd : String := "http://www.w3.org/2001/XMLSchema"
def xml : String := "http://www.w3.org/XML/1998/namespace"
def xmlns : String := "http://www.w3.org/2000/xmlns/"
def wsdl : String := "http://schemas.xmlsoap.org/wsdl/"
def soap : String := "http://schemas.xmlsoap.org/wsdl/soap/"
def soap12 : String := "http://schemas.xmlsoap.org/wsdl/soap12/"
def soapEncoding : String := "http://schemas.xmlsoap.org/soap/encoding/"
def securityUtility : String :=
  "http://docs.oasis-open.org/wss/2004/01/oasis-200401-wss-wssecurity-utility-1.0.xsd"

def policies : List String :=
  ["http://schemas.xmlsoap.org/ws/2004/09/policy", "http://www.w3.org/ns/ws-policy"]

/-- Namespace and local name as one text: the namespace in braces, then the local name. -/
def clark (uri localPart : String) : String := "\x7b" ++ uri ++ "\x7d" ++ localPart

end Vocabulary

/-! ## Names -/

structure QName where
  uri : Option String
  localPart : String
  deriving DecidableEq, Repr

namespace QName

def namespaceText (name : QName) : String := name.uri.getD "None"

def key (name : QName) : String := Vocabulary.clark name.namespaceText name.localPart

/-- A built-in type with the customary prefix, any other name in Clark notation. -/
def label (name : QName) : String :=
  if name.uri == some Vocabulary.xsd then "xs:" ++ name.localPart else name.key

def le (a b : QName) : Bool :=
  let x := a.uri.getD ""
  let y := b.uri.getD ""
  if x == y then a.localPart ≤ b.localPart else x ≤ y

/-- Names in their order; none, if a name without a namespace would have to be put among names
with one. -/
def sorted? (names : List QName) : Option (List QName) :=
  if names.all (·.uri.isSome) || names.all (·.uri.isNone) then some (names.mergeSort le) else none

/-! ## Keys tell names apart -/

theorem cut_unique {c : Char} {l₁ l₂ r₁ r₂ : List Char} (h₁ : c ∉ l₁) (h₂ : c ∉ l₂)
    (h : l₁ ++ c :: r₁ = l₂ ++ c :: r₂) : l₁ = l₂ ∧ r₁ = r₂ := by
  induction l₁ generalizing l₂ with
  | nil =>
    cases l₂ with
    | nil => exact ⟨rfl, (List.cons.inj h).2⟩
    | cons d l₂ => exact absurd ((List.cons.inj h).1 ▸ List.mem_cons_self) h₂
  | cons a l₁ ih =>
    cases l₂ with
    | nil => exact absurd ((List.cons.inj h).1 ▸ List.mem_cons_self) h₁
    | cons d l₂ =>
      obtain ⟨rfl, hr⟩ := List.cons.inj h
      obtain ⟨rfl, rfl⟩ :=
        ih (fun e => h₁ (List.mem_cons_of_mem _ e)) (fun e => h₂ (List.mem_cons_of_mem _ e)) hr
      exact ⟨rfl, rfl⟩

theorem key_injective {u v a b : String} (hu : '\x7d' ∉ u.toList) (hv : '\x7d' ∉ v.toList)
    (h : key ⟨some u, a⟩ = key ⟨some v, b⟩) : u = v ∧ a = b := by
  have hl := congrArg String.toList h
  simp only [key, namespaceText, Option.getD_some, Vocabulary.clark, String.toList_append,
    List.append_assoc] at hl
  have hb : "\x7b".toList = ['\x7b'] := by decide
  have he : "\x7d".toList = ['\x7d'] := by decide
  rw [hb, he] at hl
  obtain ⟨h₁, h₂⟩ := cut_unique hu hv (List.cons.inj hl).2
  exact ⟨String.toList_injective h₁, String.toList_injective h₂⟩

/-! ## Names that every schema knows -/

def anyType : QName := ⟨some Vocabulary.xsd, "anyType"⟩
def stringType : QName := ⟨some Vocabulary.xsd, "string"⟩

end QName

end WsdlCatalog
