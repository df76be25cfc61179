/-
  WsdlCatalog.Diagnostic — what is reported about an input: a kind, a message and the
  context it is about.

  A report may have been read back from a serialized catalog, so its kind is any
  text. Empty fields of a context are kept but not shown to users.
-/

import WsdlCatalog.Json

namespace WsdlCatalog

structure Context where
  element : Option String := none
  uri : Option String := none
  referencedBy : Option String := none
  file : Option String := none
  suggestion : Option String := none
  deriving DecidableEq, Repr

namespace Context

def entries (context : Context) : List (String × String) :=
  [("element", context.element), ("namespace", context.uri),
    ("referenced_by", context.referencedBy), ("file", context.file),
    ("suggestion", context.suggestion)].filterMap fun (name, value) => value.map (name, ·)

def toJson (context : Context) : Json :=
  .obj (context.entries.map fun (name, value) => (name, .str value))

/-- The lines that tell a user about the fields that are not empty. -/
def lines (context : Context) : List String :=
  [("Element", context.element), ("Namespace", context.uri),
    ("Referenced by", context.referencedBy), ("File", context.file),
    ("Suggestion", context.suggestion)].filterMap fun (title, value) =>
      (value.filter (· != "")).map fun value => "  " ++ title ++ ": " ++ value

end Context

structure Diagnostic where
  kind : String
  message : String
  context : Context
  deriving DecidableEq, Repr

namespace Diagnostic

def userMessage (d : Diagnostic) : String := "\n".intercalate (d.message :: d.context.lines)

def toJson (d : Diagnostic) : Json :=
  .obj [("kind", .str d.kind), ("message", .str d.message), ("context", d.context.toJson)]

def sortKey (d : Diagnostic) : List String :=
  [d.kind, d.context.file.getD "", d.context.element.getD "", d.context.referencedBy.getD "",
    d.message]

def le (a b : Diagnostic) : Bool := !b.sortKey.lex a.sortKey (· < ·)

def unresolvedKind : String := "unresolved-reference"

/-- What is logged of a report: all of it for an unresolved reference, else the message. -/
def warning (d : Diagnostic) : String :=
  if d.kind == unresolvedKind then d.userMessage else d.message

end Diagnostic

end WsdlCatalog
