/-
  WsdlCatalog.Location — where documents are, and what references between them name.

  A location is a URL, a path, or a name in memory (`memory:` and a path). URLs and
  names in memory are compared as they are written, paths in normal form.
-/

import WsdlCatalog.Location.Path
import WsdlCatalog.Location.Url
import WsdlCatalog.Text.CanonicalName

namespace WsdlCatalog.Location

def memoryMark : List Char := "memory:".toList

def memoryPath? (location : List Char) : Option (List Char) :=
  if memoryMark.isPrefixOf location then some (location.drop memoryMark.length) else none

def normalize (location : String) : Except LocationError String := do
  let cs := location.toList
  if (← Url.isUrl cs) || (memoryPath? cs).isSome then return location
  return String.ofList (Path.normalize cs)

def resolve (base reference : String) : Except LocationError String := do
  let ref := reference.toList
  let cs := base.toList
  if ← Url.isUrl ref then return reference
  if ← Url.isUrl cs then return String.ofList (← Url.resolve cs ref)
  if ref.head? == some '/' then return String.ofList (Path.normalize ref)
  match memoryPath? cs with
  | some path =>
    return String.ofList
      (memoryMark ++ Path.normalize (Path.append (Path.directory path) ref))
  | none => return String.ofList (Path.normalize (Path.append (Path.directory cs) ref))

/-- The display name of a document without another: the canonical name of its file name. -/
def stem (location : String) : Except LocationError String := do
  let cs := location.toList
  let url ← Url.parse cs
  let path := if url.path.isEmpty then cs else url.path
  let file := Path.lastSegment (path.takeWhile (· != '#'))
  let name := Text.pascal (String.ofList (Path.withoutExtension file))
  return if name == "" then "Service" else name

end WsdlCatalog.Location
