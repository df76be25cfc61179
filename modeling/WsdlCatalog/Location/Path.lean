/-
  WsdlCatalog.Location.Path — paths of slash-separated segments.

  A path in normal form has no empty segment, no `.` and no `..` that a segment
  before it could take back. One leading slash, or exactly two, make it absolute; the
  empty path is `.`.
-/

import WsdlCatalog.Text.Cut

namespace WsdlCatalog.Path

def dot : List Char := ['.']
def dots : List Char := ['.', '.']

/-- The leading slashes that a path in normal form keeps: none, one, or exactly two. -/
def root : List Char → List Char
  | '/' :: '/' :: '/' :: _ => ['/']
  | '/' :: '/' :: _ => ['/', '/']
  | '/' :: _ => ['/']
  | _ => []

/-- One more segment on a path in normal form, whose segments are held backwards. -/
def descend (absolute : Bool) (segments : List (List Char)) (segment : List Char) :
    List (List Char) :=
  if segment == [] || segment == dot then segments
  else if segment == dots then
    match segments with
    | [] => if absolute then [] else [dots]
    | last :: before => if last == dots then dots :: segments else before
  else segment :: segments

def normalize (path : List Char) : List Char :=
  let start := root path
  let segments := (Text.split '/' path).foldl (descend !start.isEmpty) []
  match start ++ Text.join '/' segments.reverse with
  | [] => dot
  | normal => normal

/-- `reference` seen from the directory `base`. -/
def append (base reference : List Char) : List Char :=
  if reference.head? == some '/' || base.isEmpty then reference
  else if base.getLast? == some '/' then base ++ reference
  else base ++ '/' :: reference

/-- The directory of a path, without the slash before the last segment. -/
def directory (path : List Char) : List Char :=
  let head := (Text.cutLast '/' path).1
  if head.all (· == '/') then head else (head.reverse.dropWhile (· == '/')).reverse

def lastSegment (path : List Char) : List Char := (Text.cutLast '/' path).2

/-- A last segment without its extension; leading dots do not start one. -/
def withoutExtension (segment : List Char) : List Char :=
  match Text.cutLast '.' segment with
  | ([], _) => segment
  | (stem, _) => if stem.all (· == '.') then segment else stem.dropLast

end WsdlCatalog.Path
