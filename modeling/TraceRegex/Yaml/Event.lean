import TraceRegex.Yaml.Token

/-! # Events

A document as a sequence of events: scalars, aliases, and the starts and ends of collections.  What can
come next depends on the collections that are open, and on how far the innermost of them has come.
-/

namespace TraceRegex.Yaml

/-- What belongs to a node besides its content. -/
structure Properties where
  anchor : Option String
  /-- The tag, empty if there is none. -/
  tag : String
deriving DecidableEq, Repr, Inhabited

def Properties.none : Properties := ⟨.none, ""⟩

/-- A part of a document.  Nodes have a place. -/
inductive Event where
  | streamEnd
  | documentStart
  | documentEnd
  | alias (name : String) (start : Mark)
  | scalar (properties : Properties) (text : String) (isPlain : Bool) (start : Mark)
  | sequenceStart (properties : Properties) (start : Mark)
  | sequenceEnd
  | mappingStart (properties : Properties) (start : Mark)
  | mappingEnd
deriving DecidableEq, Repr, Inhabited

inductive Expected where
  /-- The first document, which needs no mark. -/
  | firstDocument
  | nextDocument
  | documentContent
  | documentEnd
  | blockNode
  | blockSequenceFirst
  | blockSequenceItem
  /-- An item of a sequence that stands at the column of its key. -/
  | indentlessItem
  | blockMappingFirst
  | blockMappingKey
  | blockMappingValue
  | flowSequenceFirst
  | flowSequenceItem
  /-- The key of a mapping with one entry that is an item in flow style. -/
  | pairKey
  | pairValue
  | pairEnd
  | flowMappingFirst
  | flowMappingKey
  | flowMappingValue
  /-- The value of a key without a colon. -/
  | flowMappingNoValue
deriving DecidableEq, Repr, Inhabited

/-- The events so far: what is open, and what the handles of tags mean. -/
structure Parser where
  lexer : Lexer
  expected : Expected
  /-- What comes after the current node, the innermost first. -/
  after : List Expected
  starts : List Mark
  handles : List (String × String)
deriving Inhabited

def Parser.start (source : Source) : Parser := ⟨.start source, .firstDocument, [], [], []⟩

abbrev Parse := StateT Parser (Except Error)

namespace Parse

/-- Finds tokens. -/
def lexing {α : Type} (lex : Lex α) : Parse α := fun s =>
  match lex.run s.lexer with
  | .ok (a, lexer) => .ok (a, { s with lexer })
  | .error e => .error e

def peek : Parse Token := lexing Lex.peek

def take : Parse Unit := lexing Lex.take

def takeAndPeek : Parse Token := do
  take
  peek

/-- Fails because of a token, in something that started at `context`. -/
def fail {α : Type} (context : Mark) (problem : Problem) (place : Mark) : Parse α :=
  let line := if context.line = 0 then place.line else context.line
  throw ⟨problem, if line = 0 then none else some line⟩

def expect (expected : Expected) : Parse Unit := modify fun s => { s with expected }

def expectAfter (expected : Expected) : Parse Unit :=
  modify fun s => { s with after := expected :: s.after }

/-- Goes on with what comes after the node that has ended. -/
def resume : Parse Unit :=
  modify fun s => { s with expected := s.after.headD .nextDocument, after := s.after.tail }

def noteStart (start : Mark) : Parse Unit := modify fun s => { s with starts := start :: s.starts }

def forgetStart : Parse Unit := modify fun s => { s with starts := s.starts.tail }

def failInside {α : Type} (problem : Problem) (place : Mark) : Parse α := do
  fail ((← get).starts.headD .first) problem place

/-- A scalar that is not there. -/
def missing (start : Mark) : Event := .scalar .none "" true start

/-! ## Directives -/

/-- What handles mean unless a directive says otherwise. -/
def standardHandles : List (String × String) := [("!", "!"), ("!!", "tag:yaml.org,2002:")]

/-- Takes in directives.  The first argument bounds their number. -/
def directives : Nat → (hasVersion : Bool) → Parse Unit
  | 0, _ => return ()
  | n + 1, hasVersion => do
    let token ← peek
    match token.kind with
    | .directive (.version major minor) =>
      if hasVersion then fail .first .repeatedVersion token.start
      if major != 1 || minor != 1 then fail .first .otherVersion token.start
      take
      directives n true
    | .directive (.handle handle start) =>
      if ((← get).handles.lookup handle).isSome then fail .first .repeatedHandle token.start
      modify fun s => { s with handles := s.handles ++ [(handle, start)] }
      take
      directives n hasVersion
    | _ => modify fun s => { s with handles := s.handles ++ standardHandles }

/-- An upper bound for the steps of a loop that takes a token in each of them. -/
def bound : Parse Nat := lexing (Lex.reading Read.bound)

/-! ## Documents -/

/-- Whether a token is not part of a node. -/
def isOutside : TokenKind → Bool
  | .directive _ => true
  | .documentStart => true
  | .documentEnd => true
  | .streamEnd => true
  | _ => false

def skipDocumentEnds : Nat → Parse Unit
  | 0 => return ()
  | n + 1 => do
    if (← peek).kind = .documentEnd then
      take
      skipDocumentEnds n

/-- Starts a document, or finds the end of the text. -/
def documentStart (isFirst : Bool) : Parse Event := do
  if !isFirst then skipDocumentEnds (← bound)
  let token ← peek
  if token.kind = .streamEnd then
    take
    return .streamEnd
  -- only the first document may begin without its marker
  else if isFirst && (token.kind = .documentEnd || !isOutside token.kind) then
    directives (← bound) false
    expectAfter .documentEnd
    expect .blockNode
    return .documentStart
  else
    directives (← bound) false
    let token ← peek
    if token.kind != .documentStart then fail .first .missingDocumentStart token.start
    expectAfter .documentEnd
    expect .documentContent
    take
    return .documentStart

def documentEnd : Parse Event := do
  if (← peek).kind = .documentEnd then take
  modify fun s => { s with handles := [] }
  expect .nextDocument
  return .documentEnd

/-! ## Nodes -/

/-- The tag that a handle and the rest stand for. -/
def fullTag (context : Mark) (text : TagText) (place : Mark) : Parse String := do
  if text.handle.isEmpty then return text.suffix
  match (← get).handles.lookup text.handle with
  | some start =>
    let tag := start ++ text.suffix
    if tag.isEmpty then fail context .undefinedHandle place else return tag
  | none => fail context .undefinedHandle place

/-- Takes an anchor and a tag, in any order. -/
def properties : Parse Properties := do
  let first ← peek
  match first.kind with
  | .anchor name =>
    let token ← takeAndPeek
    match token.kind with
    | .tag text =>
      let _ ← takeAndPeek
      return ⟨some name, ← fullTag first.start text token.start⟩
    | _ => return ⟨some name, ""⟩
  | .tag text =>
    let token ← takeAndPeek
    match token.kind with
    | .anchor name =>
      let _ ← takeAndPeek
      return ⟨some name, ← fullTag first.start text first.start⟩
    | _ => return ⟨none, ← fullTag first.start text first.start⟩
  | _ => return .none

/-- A node.  A sequence in block style may stand at the column of a key above it. -/
def node (isBlock mayBeIndentless : Bool) : Parse Event := do
  let first ← peek
  match first.kind with
  -- an alias has no properties, those of its target count
  | .alias name =>
    resume
    take
    return .alias name first.start
  | _ =>
    let start := first.start
    let properties ← properties
    let token ← peek
    match token.kind with
    | .blockEntry =>
      if mayBeIndentless then
        expect .indentlessItem
        return .sequenceStart properties start
      else empty start properties token
    | .scalar text isPlain =>
      resume
      take
      return .scalar properties text isPlain start
    | .flowSequenceStart =>
      expect .flowSequenceFirst
      return .sequenceStart properties start
    | .flowMappingStart =>
      expect .flowMappingFirst
      return .mappingStart properties start
    | .blockSequenceStart =>
      if isBlock then
        expect .blockSequenceFirst
        return .sequenceStart properties start
      else empty start properties token
    | .blockMappingStart =>
      if isBlock then
        expect .blockMappingFirst
        return .mappingStart properties start
      else empty start properties token
    | _ => empty start properties token
where
  /-- A node without content, which an anchor or a tag makes up for. -/
  empty (start : Mark) (properties : Properties) (token : Token) : Parse Event := do
    if properties.anchor.isSome || !properties.tag.isEmpty then
      resume
      return .scalar properties "" true start
    else fail start .missingContent token.start

/-! ## Collections in block style -/

def blockSequenceItem : Parse Event := do
  let token ← peek
  match token.kind with
  | .blockEntry =>
    let next ← takeAndPeek
    if next.kind != .blockEntry && next.kind != .blockEnd then
      expectAfter .blockSequenceItem
      node true false
    else
      expect .blockSequenceItem
      return missing token.start
  | .blockEnd =>
    resume
    forgetStart
    take
    return .sequenceEnd
  | _ => failInside .missingItem token.start

/-- Whether a token shows that the key or the value before it is missing. -/
def isAfterMissing (kind : TokenKind) : Bool :=
  kind = .key || kind = .value || kind = .blockEnd

def indentlessItem : Parse Event := do
  let token ← peek
  if token.kind = .blockEntry then
    let next ← takeAndPeek
    if next.kind != .blockEntry && !isAfterMissing next.kind then
      expectAfter .indentlessItem
      node true false
    else
      expect .indentlessItem
      return missing token.start
  else
    resume
    return .sequenceEnd

def blockMappingKey : Parse Event := do
  let token ← peek
  match token.kind with
  | .key =>
    let next ← takeAndPeek
    if isAfterMissing next.kind then
      expect .blockMappingValue
      return missing token.start
    else
      expectAfter .blockMappingValue
      node true true
  | .blockEnd =>
    resume
    forgetStart
    take
    return .mappingEnd
  | _ => failInside .missingKey token.start

def blockMappingValue : Parse Event := do
  let token ← peek
  if token.kind = .value then
    let next ← takeAndPeek
    if isAfterMissing next.kind then
      expect .blockMappingKey
      return missing token.start
    else
      expectAfter .blockMappingKey
      node true true
  else
    expect .blockMappingKey
    return missing token.start

/-! ## Collections in flow style -/

/-- Takes the comma in front of an entry, unless it is the first one.  `close` ends the collection. -/
def nextEntry (isFirst : Bool) (close : TokenKind) (problem : Problem) : Parse Token := do
  let token ← peek
  if token.kind = close || isFirst then return token
  if token.kind = .flowEntry then takeAndPeek else failInside problem token.start

def flowSequenceItem (isFirst : Bool) : Parse Event := do
  let token ← nextEntry isFirst .flowSequenceEnd .missingCommaInList
  match token.kind with
  | .flowSequenceEnd =>
    resume
    forgetStart
    take
    return .sequenceEnd
  | .key =>
    expect .pairKey
    take
    return .mappingStart .none token.start
  | _ =>
    expectAfter .flowSequenceItem
    node false false

def pairKey : Parse Event := do
  let token ← peek
  if token.kind != .value && token.kind != .flowEntry && token.kind != .flowSequenceEnd then
    expectAfter .pairValue
    node false false
  else
    take
    expect .pairValue
    return missing token.start

def pairValue : Parse Event := do
  let token ← peek
  if token.kind = .value then
    let next ← takeAndPeek
    if next.kind != .flowEntry && next.kind != .flowSequenceEnd then
      expectAfter .pairEnd
      node false false
    else
      expect .pairEnd
      return missing next.start
  else
    expect .pairEnd
    return missing token.start

def flowMappingKey (isFirst : Bool) : Parse Event := do
  let token ← nextEntry isFirst .flowMappingEnd .missingCommaInMapping
  match token.kind with
  | .flowMappingEnd =>
    resume
    forgetStart
    take
    return .mappingEnd
  | .key =>
    let next ← takeAndPeek
    if next.kind != .value && next.kind != .flowEntry && next.kind != .flowMappingEnd then
      expectAfter .flowMappingValue
      node false false
    else
      expect .flowMappingValue
      return missing next.start
  | _ =>
    expectAfter .flowMappingNoValue
    node false false

def flowMappingValue : Parse Event := do
  let token ← peek
  if token.kind = .value then
    let next ← takeAndPeek
    if next.kind != .flowEntry && next.kind != .flowMappingEnd then
      expectAfter .flowMappingKey
      node false false
    else
      expect .flowMappingKey
      return missing next.start
  else
    expect .flowMappingKey
    return missing token.start

def enter : Parse Unit := do
  noteStart (← peek).start
  take

def next : Parse Event := do
  match (← get).expected with
  | .firstDocument => documentStart true
  | .nextDocument => documentStart false
  | .documentContent =>
    let token ← peek
    if isOutside token.kind then
      resume
      return missing token.start
    else node true false
  | .documentEnd => documentEnd
  | .blockNode => node true false
  | .blockSequenceFirst => enter; blockSequenceItem
  | .blockSequenceItem => blockSequenceItem
  | .indentlessItem => indentlessItem
  | .blockMappingFirst => enter; blockMappingKey
  | .blockMappingKey => blockMappingKey
  | .blockMappingValue => blockMappingValue
  | .flowSequenceFirst => enter; flowSequenceItem true
  | .flowSequenceItem => flowSequenceItem false
  | .pairKey => pairKey
  | .pairValue => pairValue
  | .pairEnd =>
    let _ ← peek
    expect .flowSequenceItem
    return .mappingEnd
  | .flowMappingFirst => enter; flowMappingKey true
  | .flowMappingKey => flowMappingKey false
  | .flowMappingValue => flowMappingValue
  | .flowMappingNoValue =>
    let token ← peek
    expect .flowMappingKey
    return missing token.start

end Parse

end TraceRegex.Yaml
