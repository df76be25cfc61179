/-
  WsdlCatalog.Xml.Prolog.Mark — the tokens before and after the root element, and those
  of a document type.
-/

import WsdlCatalog.Xml.Markup

namespace WsdlCatalog.Xml

inductive Mark where
  | space
  /-- A comment or a processing instruction. -/
  | aside
  /-- The declaration that may begin a document. -/
  | declaration
  /-- The beginning of a root element, which is no part of the prolog. -/
  | element
  /-- `<!` and a keyword. -/
  | opening (keyword : String)
  | closing
  | name (s : String)
  /-- A name with one colon. -/
  | qualified (s : String)
  /-- Name characters in an order that makes no name. -/
  | word (s : String)
  /-- A name and how often what it names may occur. -/
  | repeated (s : String)
  /-- What stands between quotes, as a text of its own. -/
  | literal (text : Cursor)
  /-- A number sign and a name. -/
  | keyword (s : String)
  | percent
  | parameter (name : String)
  | leftBracket
  | rightBracket
  | leftParen
  | rightParen
  /-- A closing parenthesis and how often the group may occur. -/
  | rightParenRepeated (sign : Char)
  | comma
  | bar
  /-- The beginning or the end of a conditional section. -/
  | conditional
  deriving DecidableEq, Repr

namespace Mark

/-- The text up to a quote, from a place on line `line` after the opening one. -/
def literalEnd (cur : Cursor) (start line : Nat) (quote : Char) (acc : List Char) :
    List Char → Except ReadError (List Char × Cursor)
  | [] => (cur.resume line []).short start
  | c :: rest =>
    if c == quote then
      let after := cur.resume line rest
      match rest with
      | [] => if cur.ending.isEnd then .ok (acc.reverse, after.settled) else after.invalid
      | d :: _ =>
        if isSpace d || d == '>' || d == '%' || d == '[' then .ok (acc.reverse, after)
        else after.invalid
    else if isXmlChar c then
      literalEnd cur start (Cursor.advance line c) quote (c :: acc) rest
    else (cur.resume line (c :: rest)).invalid

def literalAt (start : Nat) (quote : Char) (cur : Cursor) : Except ReadError (Mark × Cursor) := do
  let (chars, after) ← literalEnd cur start cur.line quote [] cur.chars
  return (.literal ⟨chars, start, .complete, cur.form⟩, after)

def isKeywordChar (form : Form) (c : Char) : Bool := form.isNameStart c && !form.isWide c

/-- The keyword after `<!`, and a space or a percent sign that begins a reference. -/
def openingAt (start : Nat) (cur : Cursor) : Except ReadError (Mark × Cursor) :=
  match cur.chars.span (isKeywordChar cur.form) with
  | ([], _) => cur.unfit start
  | (letters, rest) =>
    let after : Cursor := { cur with chars := rest }
    let opened : Except ReadError (Mark × Cursor) := .ok (.opening (String.ofList letters), after)
    match rest with
    | [] => after.unfit start
    | ['%'] => if cur.ending.isEnd then .error (.malformed .unclosedToken start) else opened
    | '%' :: d :: _ => if isSpace d || d == '%' then after.invalid else opened
    | c :: _ => if isSpace c then opened else after.invalid

def percentAt (start : Nat) (cur : Cursor) : Except ReadError (Mark × Cursor) :=
  if cur.chars.head?.any fun c => isSpace c || c == '%' then .ok (.percent, cur)
  else do
    let (found, cur) ← cur.name start
    match cur.chars with
    | ';' :: rest => return (.parameter (String.ofList found), { cur with chars := rest })
    | _ => cur.broken start

def atEnd (start : Nat) (mark : Mark) (cur : Cursor) : Except ReadError (Mark × Cursor) :=
  if cur.ending.isEnd then .ok (mark, cur.settled) else cur.short start

def keywordAt (start : Nat) (cur : Cursor) : Except ReadError (Mark × Cursor) := do
  let (found, cur) ← cur.name start
  let mark : Mark := .keyword (String.ofList found)
  match cur.chars with
  | [] => atEnd start mark cur
  | c :: _ =>
    if isSpace c || c == ')' || c == '>' || c == '%' || c == '|' then return (mark, cur)
    else cur.invalid

def classify (form : Form) (chars : List Char) : Mark :=
  let s := String.ofList chars
  match chars.span form.isNameChar with
  | (c :: _, []) => if form.isNameStart c then .name s else .word s
  | (c :: _, ':' :: rest) =>
    if form.isNameStart c && !rest.isEmpty && rest.all form.isNameChar then .qualified s
    else .word s
  | _ => .word s

def isHalfQualified (form : Form) (chars : List Char) : Bool :=
  chars.head?.any form.isNameStart && (chars.span form.isNameChar).2 == [':']

def wordAt (start : Nat) (cur : Cursor) : Except ReadError (Mark × Cursor) :=
  match cur.chars.span fun c => cur.form.isNameChar c || c == ':' with
  | ([], _) => cur.invalid
  | (chars, rest) =>
    let mark := classify cur.form chars
    let after : Cursor := { cur with chars := rest }
    match rest with
    | [] => if isHalfQualified cur.form chars then after.short start else atEnd start mark after
    | c :: rest =>
      if isSpace c || c == '>' || c == ')' || c == ',' || c == '|' || c == '[' || c == '%' then
        .ok (mark, after)
      else if c == '+' || c == '*' || c == '?' then
        match mark with
        | .word _ => after.invalid
        | _ => .ok (.repeated (String.ofList chars), { cur with chars := rest })
      else after.invalid

/-- What a less-than sign begins that is no declaration: only its first unit is looked at. -/
def elementAt (start : Nat) (cur after : Cursor) : Except ReadError (Mark × Cursor) :=
  match after.chars with
  | c :: _ =>
    if cur.form.isWide c || cur.form.isNameStart c then .ok (.element, cur) else after.invalid
  | [] => if cur.ending.leads then .ok (.element, cur) else after.unfit start

def rightParenAt (cur : Cursor) : Except ReadError (Mark × Cursor) :=
  match cur.chars with
  | [] => if cur.ending.isEnd then .ok (.rightParen, cur.settled) else cur.invalid
  | c :: rest =>
    if c == '*' || c == '?' || c == '+' then
      .ok (.rightParenRepeated c, { cur with chars := rest })
    else if isSpace c || c == '>' || c == ',' || c == '|' || c == ')' then .ok (.rightParen, cur)
    else cur.invalid

def scan : Scanner Mark := fun _ cur =>
  let start := cur.line
  let after (rest : List Char) : Cursor := { cur with chars := rest }
  match cur.chars with
  | [] => cur.short start
  | '<' :: '!' :: '-' :: '-' :: rest => do
    return (.aside, ← Markup.comment cur start cur.line rest)
  | '<' :: '!' :: '-' :: rest => (after rest).unfit start
  | '<' :: '!' :: '[' :: rest => .ok (.conditional, after rest)
  | '<' :: '!' :: rest => openingAt start (after rest)
  | '<' :: '?' :: rest => do
    match ← Markup.instruction start (after rest) with
    | (.declaration _, cur) => return (.declaration, cur)
    | (_, cur) => return (.aside, cur)
  | '<' :: rest => elementAt start cur (after rest)
  | '%' :: rest => percentAt start (after rest)
  | '#' :: rest => keywordAt start (after rest)
  | ',' :: rest => .ok (.comma, after rest)
  | '[' :: rest => .ok (.leftBracket, after rest)
  | ']' :: ']' :: '>' :: rest => .ok (.conditional, after rest)
  | [']', ']'] =>
    if cur.ending.isEnd then .error (.malformed .unclosedToken start)
    else .ok (.rightBracket, after [']'])
  | [']'] => .ok (.rightBracket, (after []).settled)
  | ']' :: rest => .ok (.rightBracket, after rest)
  | '(' :: rest => .ok (.leftParen, after rest)
  | '|' :: rest => .ok (.bar, after rest)
  | '>' :: rest => .ok (.closing, after rest)
  | ')' :: rest => rightParenAt (after rest)
  | c :: rest =>
    if isSpace c then .ok (.space, cur.skipSpace)
    else if c == '"' || c == '\'' then literalAt start c (after rest)
    else wordAt start cur

end Mark

end WsdlCatalog.Xml
