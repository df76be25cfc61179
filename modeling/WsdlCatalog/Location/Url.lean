/-
  WsdlCatalog.Location.Url — the parts of a URL, and references resolved against one.

  A text is read as a URL after leading controls and spaces are dropped and tabs and
  line ends are removed. Every text has parts; only an authority can be refused.
-/

import WsdlCatalog.Location.Authority

namespace WsdlCatalog

structure Url where
  scheme : List Char
  authority : List Char
  path : List Char
  query : List Char
  fragment : List Char
  deriving DecidableEq, Repr

namespace Url

def isAsciiLetter (c : Char) : Bool := ('a' ≤ c && c ≤ 'z') || ('A' ≤ c && c ≤ 'Z')

def isSchemeChar (c : Char) : Bool :=
  isAsciiLetter c || c.isDigit || c == '+' || c == '-' || c == '.'

def cleaned (cs : List Char) : List Char :=
  (cs.dropWhile fun c => c.toNat ≤ 32).filter fun c => c != '\t' && c != '\r' && c != '\n'

/-- The scheme in lower case, if the text begins with one, and the text after its colon. -/
def cutScheme (cs : List Char) : List Char × List Char :=
  match Text.cut? ':' cs with
  | some (c :: before, after) =>
    if isAsciiLetter c && before.all isSchemeChar then ((c :: before).map Char.toLower, after)
    else ([], cs)
  | _ => ([], cs)

/-- The authority after two slashes, up to the next delimiter, and the rest. -/
def cutAuthority : List Char → List Char × List Char
  | '/' :: '/' :: rest => rest.span fun c => c != '/' && c != '?' && c != '#'
  | cs => ([], cs)

/-- The text before the first `sep` and the text after it, or all and nothing. -/
def cutAt (sep : Char) (cs : List Char) : List Char × List Char :=
  (Text.cut? sep cs).getD (cs, [])

/-- The parts of a text. Of two faults of an authority that of its brackets is reported. -/
def parse (text : List Char) : Except LocationError Url := do
  let (scheme, rest) := cutScheme (cleaned text)
  let (authority, rest) := cutAuthority rest
  Authority.checkBrackets authority
  let (rest, fragment) := cutAt '#' rest
  let (path, query) := cutAt '?' rest
  Authority.checkCharacters authority
  return ⟨scheme, authority, path, query, fragment⟩

def schemes : List (List Char) := ["http".toList, "https".toList, "file".toList]

def isUrl (text : List Char) : Except LocationError Bool := do
  return schemes.contains (← parse text).scheme

/-- Whether two slashes stand before the authority. They are left out where there is no authority
and the path begins with two of its own. -/
def marksAuthority (url : Url) : Bool :=
  !url.authority.isEmpty || !(['/', '/'].isPrefixOf url.path)

/-- The text of a URL whose scheme has authorities; an empty part leaves no delimiter behind. -/
def render (url : Url) : List Char :=
  let mark := if url.marksAuthority then ['/', '/'] else []
  let path := if url.path.isEmpty || url.path.head? == some '/' then url.path else '/' :: url.path
  url.scheme ++ ':' :: mark ++ url.authority ++ path
    ++ (if url.query.isEmpty then [] else '?' :: url.query)
    ++ (if url.fragment.isEmpty then [] else '#' :: url.fragment)

/-- `..` takes back the segment before it and `.` nothing; the path so far is held backwards. -/
def descend (segments : List (List Char)) (segment : List Char) : List (List Char) :=
  if segment == ['.', '.'] then segments.tail
  else if segment == ['.'] then segments
  else segment :: segments

/-- The segments without the empty ones strictly between the first and the last. -/
def withoutInnerEmpty (segments : List (List Char)) : List (List Char) :=
  match segments with
  | [] => []
  | first :: rest =>
    first :: (rest.dropLast.filter (!·.isEmpty) ++ rest.getLast?.toList)

/-- The path of a reference seen from a document at `base`. -/
def mergePath (base reference : List Char) : List Char :=
  let baseSegments := Text.split '/' base
  let directory := if baseSegments.getLast? == some [] then baseSegments else baseSegments.dropLast
  let segments :=
    if reference.head? == some '/' then Text.split '/' reference
    else withoutInnerEmpty (directory ++ Text.split '/' reference)
  let walked := segments.foldl descend []
  let last := segments.getLast?
  let walked := if last == some ['.'] || last == some ['.', '.'] then [] :: walked else walked
  match Text.join '/' walked.reverse with
  | [] => ['/']
  | path => path

/-- Whether paths of the scheme carry parameters after a semicolon in the last segment. -/
def hasParameters (scheme : List Char) : Bool :=
  scheme == "http".toList || scheme == "https".toList

/-- A path cut before the first semicolon of its last segment; the second part begins with it. -/
def cutParameters (scheme path : List Char) : List Char × List Char :=
  if hasParameters scheme then
    let (before, last) := Text.cutLast '/' path
    let (segment, parameters) := last.span (· != ';')
    (before ++ segment, if parameters == [';'] then [] else parameters)
  else (path, [])

/-- The location that `reference` names in a document at the URL `base`. -/
def resolve (base reference : List Char) : Except LocationError (List Char) := do
  if reference.isEmpty then return base
  let from_ ← parse base
  let target ← parse reference
  if !target.scheme.isEmpty && target.scheme != from_.scheme then return reference
  let scheme := from_.scheme
  let (path, parameters) := cutParameters scheme target.path
  if !target.authority.isEmpty then
    return render { target with scheme := scheme, path := path ++ parameters }
  let (basePath, baseParameters) := cutParameters scheme from_.path
  if path.isEmpty && parameters.isEmpty then
    return render
      { target with
        scheme := scheme, authority := from_.authority, path := basePath ++ baseParameters,
        query := if target.query.isEmpty then from_.query else target.query }
  return render
    { target with
      scheme := scheme, authority := from_.authority,
      path := mergePath basePath path ++ parameters }

end Url

end WsdlCatalog
