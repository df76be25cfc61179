/-
  WsdlCatalog.Xml.Error — why a text is no XML document, and where.

  A syntax error has a cause and the line on which reading stopped. The other
  conditions are no faults of the markup: an encoding that cannot be used, and an
  element or attribute name whose namespace has blanks that cut it into too many
  parts.
-/

namespace WsdlCatalog.Xml

inductive Cause where
  | noElement
  | unexpectedMarkup
  | invalidToken
  | unclosedToken
  | partialCharacter
  | mismatchedTag
  | duplicateAttribute
  | junkAfterRoot
  | undefinedEntity
  | recursiveEntity
  | asynchronousEntity
  | invalidCharacterNumber
  | unparsedEntity
  | externalEntityInAttribute
  | misplacedDeclaration
  | malformedDeclaration
  | wrongEncoding
  | unknownEncoding
  | unclosedCdata
  | illegalParameterReference
  | incompleteParameter
  | illegalPublicIdentifier
  | amplification
  | unboundPrefix
  | undeclaredPrefix
  | reservedXml
  | reservedXmlns
  | reservedNamespace
  deriving DecidableEq, Repr

def Cause.message : Cause → String
  | noElement => "no element found"
  | unexpectedMarkup => "syntax error"
  | invalidToken => "not well-formed (invalid token)"
  | unclosedToken => "unclosed token"
  | partialCharacter => "partial character"
  | mismatchedTag => "mismatched tag"
  | duplicateAttribute => "duplicate attribute"
  | junkAfterRoot => "junk after document element"
  | undefinedEntity => "undefined entity"
  | recursiveEntity => "recursive entity reference"
  | asynchronousEntity => "asynchronous entity"
  | invalidCharacterNumber => "reference to invalid character number"
  | unparsedEntity => "reference to binary entity"
  | externalEntityInAttribute => "reference to external entity in attribute"
  | misplacedDeclaration => "XML or text declaration not at start of entity"
  | malformedDeclaration => "XML declaration not well-formed"
  | wrongEncoding => "encoding specified in XML declaration is incorrect"
  | unknownEncoding => "unknown encoding"
  | unclosedCdata => "unclosed CDATA section"
  | illegalParameterReference => "illegal parameter entity reference"
  | incompleteParameter => "incomplete markup in parameter entity"
  | illegalPublicIdentifier => "illegal character(s) in public id"
  | amplification => "limit on input amplification factor (from DTD and entities) breached"
  | unboundPrefix => "unbound prefix"
  | undeclaredPrefix => "must not undeclare prefix"
  | reservedXml =>
    "reserved prefix (xml) must not be undeclared or bound to another namespace name"
  | reservedXmlns => "reserved prefix (xmlns) must not be declared or undeclared"
  | reservedNamespace => "prefix must not be bound to one of the reserved namespace names"

inductive ReadError where
  | malformed (cause : Cause) (line : Nat)
  /-- No encoding has this name. -/
  | noEncoding (name : String)
  /-- The encoding has characters of more than one octet. -/
  | wideEncoding
  /-- The encoding fails at octets beyond ASCII. -/
  | strictEncoding
  /-- The encoding does not read octets by themselves. -/
  | unreadableEncoding
  | dividedName
  deriving DecidableEq, Repr

def ReadError.message : ReadError → String
  | malformed cause _ => cause.message
  | noEncoding name => "unknown encoding: " ++ name
  | wideEncoding => "multi-byte encodings are not supported"
  | strictEncoding => "octets beyond the encoding"
  | unreadableEncoding => "encoding without characters of its own"
  | dividedName => "too many values to unpack (expected 2)"

/-- The error with the line of the place where what it is about was included. -/
def ReadError.at (line : Nat) : ReadError → ReadError
  | malformed cause _ => malformed cause line
  | e => e

/-- The error as it counts inside a value that is read by itself. -/
def ReadError.asToken : ReadError → ReadError
  | malformed _ line => malformed .invalidToken line
  | e => e

end WsdlCatalog.Xml
