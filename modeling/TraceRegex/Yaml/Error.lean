/-! # What can be wrong with a YAML text -/

namespace TraceRegex.Yaml

inductive Problem where
  -- bytes that are not text
  | badLeadingOctet
  | badTrailingOctet
  | missingOctets
  | badOctetCount
  | noCharacter
  | halfUnit
  | lowSurrogate
  | missingSurrogate
  | noLowSurrogate
  | controlCharacter
  -- tokens
  | noToken
  | tooDeep
  | missingColon
  | entryNotAllowed
  | keyNotAllowed
  | valueNotAllowed
  -- directives
  | missingDirectiveName
  | badDirectiveName
  | unknownDirective
  | missingVersion
  | longVersion
  | missingVersionDot
  | missingBlank
  | missingBlankOrBreak
  | missingCommentOrBreak
  -- anchors and tags
  | missingAnchorName
  | missingTagEnd
  | missingTagMark
  | missingTagText
  | badTagEscape
  | badTagLeadingOctet
  | badTagTrailingOctet
  -- scalars
  | zeroIndent
  | tabInIndent
  | tabInScalar
  | markerInScalar
  | endInScalar
  | unknownEscape
  | badEscapeDigits
  | badEscapeValue
  -- structure
  | missingDocumentStart
  | missingContent
  | undefinedHandle
  | missingItem
  | missingKey
  | missingCommaInList
  | missingCommaInMapping
  | repeatedVersion
  | otherVersion
  | repeatedHandle
  -- meaning
  | unknownAnchor (name : String)
  | circularAnchor (name : String)
  | wrongTag (found text wanted : String)
  | badBase64
  | notMergeable
  | tooManyAliases
deriving DecidableEq, Repr

def Problem.message : Problem → String
  | badLeadingOctet => "invalid leading UTF-8 octet"
  | badTrailingOctet => "invalid trailing UTF-8 octet"
  | missingOctets => "incomplete UTF-8 octet sequence"
  | badOctetCount => "invalid length of a UTF-8 sequence"
  | noCharacter => "invalid Unicode character"
  | halfUnit => "incomplete UTF-16 character"
  | lowSurrogate => "unexpected low surrogate area"
  | missingSurrogate => "incomplete UTF-16 surrogate pair"
  | noLowSurrogate => "expected low surrogate area"
  | controlCharacter => "control characters are not allowed"
  | noToken => "found character that cannot start any token"
  | tooDeep => "exceeded max depth of 10000"
  | missingColon => "could not find expected ':'"
  | entryNotAllowed => "block sequence entries are not allowed in this context"
  | keyNotAllowed => "mapping keys are not allowed in this context"
  | valueNotAllowed => "mapping values are not allowed in this context"
  | missingDirectiveName => "could not find expected directive name"
  | badDirectiveName => "found unexpected non-alphabetical character"
  | unknownDirective => "found unknown directive name"
  | missingVersion => "did not find expected version number"
  | longVersion => "found extremely long version number"
  | missingVersionDot => "did not find expected digit or '.' character"
  | missingBlank => "did not find expected whitespace"
  | missingBlankOrBreak => "did not find expected whitespace or line break"
  | missingCommentOrBreak => "did not find expected comment or line break"
  | missingAnchorName => "did not find expected alphabetic or numeric character"
  | missingTagEnd => "did not find the expected '>'"
  | missingTagMark => "did not find expected '!'"
  | missingTagText => "did not find expected tag URI"
  | badTagEscape => "did not find URI escaped octet"
  | badTagLeadingOctet => "found an incorrect leading UTF-8 octet"
  | badTagTrailingOctet => "found an incorrect trailing UTF-8 octet"
  | zeroIndent => "found an indentation indicator equal to 0"
  | tabInIndent => "found a tab character where an indentation space is expected"
  | tabInScalar => "found a tab character that violates indentation"
  | markerInScalar => "found unexpected document indicator"
  | endInScalar => "found unexpected end of stream"
  | unknownEscape => "found unknown escape character"
  | badEscapeDigits => "did not find expected hexdecimal number"
  | badEscapeValue => "found invalid Unicode character escape code"
  | missingDocumentStart => "did not find expected <document start>"
  | missingContent => "did not find expected node content"
  | undefinedHandle => "found undefined tag handle"
  | missingItem => "did not find expected '-' indicator"
  | missingKey => "did not find expected key"
  | missingCommaInList => "did not find expected ',' or ']'"
  | missingCommaInMapping => "did not find expected ',' or '\x7d'"
  | repeatedVersion => "found duplicate %YAML directive"
  | otherVersion => "found incompatible YAML document"
  | repeatedHandle => "found duplicate %TAG directive"
  | unknownAnchor name => "unknown anchor '" ++ name ++ "' referenced"
  | circularAnchor name => "anchor '" ++ name ++ "' value contains itself"
  | wrongTag found text wanted =>
    "cannot decode " ++ found ++ " `" ++ text ++ "` as a " ++ wanted
  | badBase64 => "!!binary value contains invalid base64 data"
  | notMergeable => "map merge requires map or sequence of maps as the value"
  | tooManyAliases => "document contains excessive aliasing"

/-- A problem and the number of the line that it is reported for, if there is one. -/
structure Error where
  problem : Problem
  line : Option Nat
deriving DecidableEq, Repr

def Error.message (e : Error) : String :=
  match e.line with
  | some line => s!"line {line}: " ++ e.problem.message
  | none => e.problem.message

end TraceRegex.Yaml
