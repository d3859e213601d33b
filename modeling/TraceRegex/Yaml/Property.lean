import TraceRegex.Text.Utf8
import TraceRegex.Yaml.Cursor

/-! # Anchors, tags and directives

An anchor names a node and an alias stands for the node with that name.  A tag says what kind of node
it is: it is written in full between angles, or as a handle and the rest.  Directives tell the version
of a document and what its handles mean.
-/

namespace TraceRegex.Yaml

/-- A tag as it is written.  The handle is empty if the tag is written in full. -/
structure TagText where
  handle : String
  suffix : String
deriving DecidableEq, Repr, Inhabited

inductive Directive where
  | version (major minor : Nat)
  | handle (handle start : String)
deriving DecidableEq, Repr

namespace Read

/-! ## Anchors -/

/-- Reads the name behind the mark of an anchor or an alias. -/
def anchorName : Read String := do
  let start ← mark
  skip 1
  need 1
  let name ← takeWhile isNameChar
  let c ← peek
  if name.isEmpty || !(endsWord c || "?:,]\x7d%@\x60".toList.contains c) then
    fail start .missingAnchorName
  return String.ofList name

/-! ## Tags -/

/-- Whether a tag can hold a character besides those of names. -/
def isTagChar (c : Char) : Bool := isNameChar c || ";/?:@&=+$,.!~*'()[]%".toList.contains c

/-- Reads the octets of one escaped character; `left` of them are to come, or it is the first. -/
def tagEscape (start : Mark) : Nat → Option Nat → List UInt8 → Read (List UInt8)
  | 0, _, octets => return octets
  | n + 1, left, octets => do
    if left = some 0 then return octets
    need 3
    match ← peekAt 0, hexDigit? (← peekAt 1), hexDigit? (← peekAt 2) with
    | '%', some high, some low =>
      let octet := (high * 16 + low).toUInt8
      match left with
      | none =>
        -- the first octet says how many the character has
        match Source.octetCount? octet with
        | none => fail start .badTagLeadingOctet
        | some count =>
          skip 3
          tagEscape start n (some (count - 1)) (octets ++ [octet])
      | some left =>
        if octet < 0x80 || 0xc0 ≤ octet then fail start .badTagTrailingOctet
        else
          skip 3
          tagEscape start n (some (left - 1)) (octets ++ [octet])
    | _, _, _ => fail start .badTagEscape

def tagRest (start : Mark) : Nat → List UInt8 → Read (List UInt8)
  | 0, octets => return octets
  | n + 1, octets => do
    let plain ← takeWhile fun c => isTagChar c && c != '%'
    let octets := octets ++ Text.bytesOfString (String.ofList plain)
    if (← peek) == '%' then tagRest start n (octets ++ (← tagEscape start 4 none []))
    else return octets

def tagText (start : Mark) (head : List Char) : Read String := do
  need 1
  let octets ← tagRest start (← bound) (Text.bytesOfString (String.ofList (head.drop 1)))
  if octets.isEmpty && head.isEmpty then fail start .missingTagText
  return String.ofList (Text.charsOfBytes octets)

/-- Reads a handle: a mark, a name, and a second mark unless this is the front of something else. -/
def tagHandle (start : Mark) (isDirective : Bool) : Read (List Char) := do
  need 1
  if (← peek) != '!' then fail start .missingTagMark
  let front ← take 1
  need 1
  let name ← takeWhile isNameChar
  if (← peek) == '!' then return front ++ name ++ (← take 1)
  if isDirective && !name.isEmpty then fail start .missingTagMark
  return front ++ name

def tag : Read TagText := do
  let start ← mark
  need 2
  let text : TagText ← if (← peekAt 1) == '<' then do
      skip 2
      let suffix ← tagText start []
      if (← peek) != '>' then fail start .missingTagEnd
      skip 1
      pure ⟨"", suffix⟩
    else do
      let handle ← tagHandle start false
      -- what was read is a handle only if it ends in an exclamation mark, otherwise the suffix
      -- starts with it
      if 1 < handle.length && handle.getLast? == some '!' then
        pure ⟨String.ofList handle, ← tagText start []⟩
      else
        let suffix ← tagText start handle
        pure (if suffix.isEmpty then ⟨"", "!"⟩ else ⟨"!", suffix⟩)
  need 1
  if !endsWord (← peek) then fail start .missingBlankOrBreak
  return text

/-! ## Directives -/

def versionNumber (start : Mark) : Read Nat := do
  need 1
  let digits ← takeWhile Char.isDigit
  if digits.isEmpty then fail start .missingVersion
  if 2 < digits.length then fail start .longVersion
  return digits.foldl (fun n c => n * 10 + (c.toNat - '0'.toNat)) 0

def directiveBody (start : Mark) (name : String) : Read Directive := do
  if name = "YAML" then
    skipWhile isBlank
    let major ← versionNumber start
    if (← peek) != '.' then fail start .missingVersionDot
    skip 1
    return .version major (← versionNumber start)
  else if name = "TAG" then
    skipWhile isBlank
    let handle ← tagHandle start true
    need 1
    if !isBlank (← peek) then fail start .missingBlank
    skipWhile isBlank
    let text ← tagText start []
    need 1
    if !endsWord (← peek) then fail start .missingBlankOrBreak
    return .handle (String.ofList handle) text
  else fail start .unknownDirective

def directive : Read Directive := do
  let start ← mark
  skip 1
  need 1
  let name ← takeWhile isNameChar
  if name.isEmpty then fail start .missingDirectiveName
  if !endsWord (← peek) then fail start .badDirectiveName
  let directive ← directiveBody start (String.ofList name)
  need 1
  skipWhile isBlank
  if (← peek) == '#' then skipLine
  if !endsLine (← peek) then fail start .missingCommentOrBreak
  need 2
  skipBreak
  return directive

end Read

end TraceRegex.Yaml
