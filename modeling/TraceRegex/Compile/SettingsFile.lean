import TraceRegex.Compile.Settings
import TraceRegex.Yaml.Node

/-! # Settings files

Settings are kept in a YAML mapping.  What it does not mention, or leaves empty, stays at its standard
value; keys that mean nothing are skipped.  A merge takes in the entries of other mappings, as far as
their keys are not there yet.
-/

namespace TraceRegex

/-! ## Bytes as text of 64 characters

Three bytes are written as four characters; signs at the end fill up the last four.
-/

namespace Text

def sixBits? (c : Char) : Option Nat :=
  if c.isUpper then some (c.toNat - 'A'.toNat)
  else if c.isLower then some (c.toNat - 'a'.toNat + 26)
  else if c.isDigit then some (c.toNat - '0'.toNat + 52)
  else if c == '+' then some 62
  else if c == '/' then some 63
  else none

def bytesOfGroups? : List Char → Option (List UInt8)
  | [] => some []
  | [a, b, '=', '='] => do
    let n := (← sixBits? a) * 64 + (← sixBits? b)
    return [(n / 16).toUInt8]
  | [a, b, c, '='] => do
    let n := ((← sixBits? a) * 64 + (← sixBits? b)) * 64 + (← sixBits? c)
    return [(n / 1024).toUInt8, (n / 4).toUInt8]
  | a :: b :: c :: d :: rest => do
    let n := (((← sixBits? a) * 64 + (← sixBits? b)) * 64 + (← sixBits? c)) * 64 + (← sixBits? d)
    return (n / 65536).toUInt8 :: (n / 256).toUInt8 :: n.toUInt8 :: (← bytesOfGroups? rest)
  | _ => none

/-- The bytes that a text of 64 characters stands for.  Line ends do not count. -/
def bytesOfBase64? (cs : List Char) : Option (List UInt8) :=
  bytesOfGroups? (cs.filter fun c => c != '\n' && c != '\r')

end Text

/-! ## Errors -/

inductive SettingsFileError where
  | notYaml (cause : Yaml.Error)
  /-- Values that are not of the right kind, with one line of text for each. -/
  | wrongKinds (lines : List (List UInt8))
  /-- A mapping with a merge has a collection for a key. -/
  | collectionKey
  | invalid (cause : SettingsError)
deriving DecidableEq, Repr

/-- The text of an error, unless there is none. -/
def SettingsFileError.text? : SettingsFileError → Option (List UInt8)
  | .notYaml cause => some (Text.bytesOfString ("invalid configuration: yaml: " ++ cause.message))
  | .wrongKinds lines =>
    some (Text.bytesOfString "invalid configuration: yaml: unmarshal errors:"
      ++ lines.flatMap (Text.bytesOfString "\n  " ++ ·))
  | .collectionKey => none
  | .invalid cause => some (Text.bytesOfString cause.message)

namespace SettingsFile

/-! ## Decoding -/

structure Decoding where
  target : List UInt8
  format : List UInt8
  minimize : Bool
  wrong : List (List UInt8)
  /-- The keys that a merge must not set, if one is under way. -/
  merged : Option (List (List UInt8))
  /-- The places of the aliases that are being followed. -/
  followed : List Nat
  /-- The number of nodes that were looked at, and how many of them behind an alias. -/
  visits : Nat
  aliasVisits : Nat
deriving Inhabited

def Decoding.start : Decoding where
  target := Text.bytesOfString Settings.standard.target.name
  format := Text.bytesOfString Settings.standard.format.name
  minimize := Settings.standard.minimize
  wrong := []
  merged := none
  followed := []
  visits := 1
  aliasVisits := 0

abbrev Decode := StateT Decoding (Except SettingsFileError)

namespace Decode

def fail {α : Type} (problem : Yaml.Problem) : Decode α := throw (.notYaml ⟨problem, none⟩)

def note (line : List UInt8) : Decode Unit := modify fun d => { d with wrong := line :: d.wrong }

/-- Whether too large a part of the nodes is behind aliases.  The part that is allowed shrinks from 99 to
    10 of 100 as documents grow. -/
def hasTooManyAliases (visits aliasVisits : Nat) : Bool :=
  let scale := 3600000
  let excess := min (visits - 400000) scale
  100 < aliasVisits && 1000 < visits
    && visits * (99 * scale - 89 * excess) < aliasVisits * (100 * scale)

def visit : Decode Unit := do
  modify fun d => { d with
    visits := d.visits + 1
    aliasVisits := if d.followed.isEmpty then d.aliasVisits else d.aliasVisits + 1 }
  let d ← get
  if hasTooManyAliases d.visits d.aliasVisits then fail .tooManyAliases

/-- Does something with the node behind an alias, which must not be followed already. -/
def follow {α : Type} (anchored : Array Yaml.Node) (name : String) (place target : Nat)
    (use : Yaml.Node → Decode α) : Decode α := do
  if (← get).followed.contains place then fail (.circularAnchor name)
  modify fun d => { d with followed := place :: d.followed }
  let a ← use (anchored.getD target default)
  modify fun d => { d with followed := d.followed.tail }
  return a

/-- The value of a scalar as it is shown: cut, if it is long. -/
def shown (tag text : String) : List UInt8 :=
  let bytes := Text.bytesOfString text
  if tag = Yaml.sequenceTag || tag = Yaml.mappingTag then bytes
  else
    Text.bytesOfString " `"
      ++ (if 10 < bytes.length then bytes.take 7 ++ Text.bytesOfString "..." else bytes)
      ++ Text.bytesOfString "`"

def noteKind (line : Nat) (tag text wanted : String) : Decode Unit :=
  note (Text.bytesOfString (s!"line {line}: cannot unmarshal " ++ tag) ++ shown tag text
    ++ Text.bytesOfString (" into " ++ wanted))

/-! ## Keys -/

/-- What tells keys apart: the kind of node and its text. -/
def keyIdentity : Yaml.Node → Nat × String
  | .scalar _ _ text => (0, text)
  | .sequence .. => (1, "")
  | .mapping .. => (2, "")
  | .alias _ name _ _ => (3, name)

def lineOf : Yaml.Node → Nat
  | .scalar line _ _ => line
  | .sequence line _ _ => line
  | .mapping line _ _ => line
  | .alias line _ _ _ => line

/-- Notes the keys that occur again, and says whether there are none. -/
def noteRepeatedKeys : List (Yaml.Node × Yaml.Node) → Decode Bool
  | [] => return true
  | (key, _) :: rest => do
    let again := rest.filter fun (other, _) => keyIdentity other == keyIdentity key
    again.forM fun (other, _) =>
      note (Text.bytesOfString (s!"line {lineOf other}: mapping key "
        ++ Text.quoted (keyIdentity other).2.toList
        ++ s!" already defined at line {lineOf key}"))
    return (← noteRepeatedKeys rest) && again.isEmpty

/-! ## Scalars -/

def meaning (tag text : String) : Decode (Yaml.Meaning × List UInt8) := do
  if tag = Yaml.binaryTag then
    match Text.bytesOfBase64? text.toList with
    | some bytes => return (.text, bytes)
    | none => fail .badBase64
  else
    match Yaml.meaningAs tag text with
    | .ok m => return (m, Text.bytesOfString text)
    | .error problem => fail problem

/-- The value of a node that has to be a scalar of some kind.  There is none if it stands for nothing, or
    if it is of another kind, which is noted.  The first argument bounds the aliases to follow. -/
def scalar {α : Type} (anchored : Array Yaml.Node) (wanted : String)
    (accept : Yaml.Meaning → List UInt8 → Option α) : Nat → Yaml.Node → Decode (Option α)
  | 0, _ => return none
  | n + 1, node => do
    visit
    match node with
    | .alias _ name place target =>
      follow anchored name place target (scalar anchored wanted accept n)
    | .scalar line tag text =>
      let (m, bytes) ← meaning tag text
      if m = .null then return none
      match accept m bytes with
      | some a => return some a
      | none => noteKind line tag text wanted; return none
    | .sequence line tag _ => noteKind line tag "" wanted; return none
    | .mapping line tag entries =>
      -- repeated keys are noted in place of the kind
      if ← noteRepeatedKeys entries then noteKind line tag "" wanted
      return none

def textOf (_ : Yaml.Meaning) (bytes : List UInt8) : Option (List UInt8) := some bytes

/-- The words that are taken for a truth value where one is needed. -/
def truthWords : List (String × Bool) := [
  ("y", true), ("Y", true), ("yes", true), ("Yes", true), ("YES", true),
  ("on", true), ("On", true), ("ON", true),
  ("n", false), ("N", false), ("no", false), ("No", false), ("NO", false),
  ("off", false), ("Off", false), ("OFF", false)]

def truthOf (m : Yaml.Meaning) (bytes : List UInt8) : Option Bool :=
  match m with
  | .truth b => some b
  | .text => (truthWords.find? fun w => Text.bytesOfString w.1 == bytes).map (·.2)
  | _ => none

/-! ## Settings -/

inductive Field where
  | target
  | format
  | minimize
deriving DecidableEq, Repr

def Field.name : Field → String
  | .target => "target"
  | .format => "format"
  | .minimize => "minimize"

def Field.ofName? (name : List UInt8) : Option Field :=
  [Field.target, .format, .minimize].find? fun f => Text.bytesOfString f.name == name

/-- Sets a field, unless the node stands for nothing or is of the wrong kind. -/
def setField (anchored : Array Yaml.Node) (fuel : Nat) (field : Field) (value : Yaml.Node) :
    Decode Unit := do
  match field with
  | .target =>
    if let some bytes ← scalar anchored "sere.Target" textOf fuel value then
      modify fun d => { d with target := bytes }
  | .format =>
    if let some bytes ← scalar anchored "sere.Format" textOf fuel value then
      modify fun d => { d with format := bytes }
  | .minimize =>
    if let some b ← scalar anchored "bool" truthOf fuel value then
      modify fun d => { d with minimize := b }

def isMergeKey : Yaml.Node → Bool
  | .scalar _ tag text => text = "<<" && tag = Yaml.mergeTag
  | _ => false

/-- Whether a merge must not set a key.  From now on it must not. -/
def isMerged (name : List UInt8) : Decode Bool := do
  match (← get).merged with
  | none => return false
  | some names =>
    if names.contains name then return true
    modify fun d => { d with merged := some (name :: names) }
    return false

/-- Takes in the entries of a mapping; `done` holds the fields that were set. -/
def addEntries (anchored : Array Yaml.Node) (fuel : Nat) (done : List Field) :
    List (Yaml.Node × Yaml.Node) → Decode Unit
  | [] => return ()
  | (key, value) :: rest => do
    -- merges come last, since they must not change what is set here
    if isMergeKey key then addEntries anchored fuel done rest
    else
      match ← scalar anchored "string" textOf fuel key with
      | none => addEntries anchored fuel done rest
      | some name =>
        match (← isMerged name), Field.ofName? name with
        | false, some field =>
          if done.contains field then
            note (Text.bytesOfString (s!"line {lineOf key}: field " ++ field.name
              ++ " already set in type sere.CompileConfig"))
            addEntries anchored fuel done rest
          else
            setField anchored fuel field value
            addEntries anchored fuel (field :: done) rest
        | _, _ => addEntries anchored fuel done rest

/-- The text of a key, if it is text.  A collection cannot be one among merges. -/
def keyText? (anchored : Array Yaml.Node) : Nat → Yaml.Node → Decode (Option (List UInt8))
  | 0, _ => return none
  | n + 1, node => do
    visit
    match node with
    | .alias _ name place target => follow anchored name place target (keyText? anchored n)
    | .scalar _ tag text =>
      let (m, bytes) ← meaning tag text
      return if m = .text then some bytes else none
    | .sequence .. => throw .collectionKey
    | .mapping _ _ entries => if ← noteRepeatedKeys entries then throw .collectionKey else return none

def isMapping (anchored : Array Yaml.Node) : Yaml.Node → Bool
  | .mapping .. => true
  | .alias _ _ _ target =>
    match anchored.getD target default with
    | .mapping .. => true
    | _ => false
  | _ => false

/-- Takes in a mapping, or the mappings of a sequence, next to entries that win. -/
def merge (anchored : Array Yaml.Node) (fuel : Nat) (add : Yaml.Node → Decode Unit)
    (entries : List (Yaml.Node × Yaml.Node)) (value : Yaml.Node) : Decode Unit := do
  let before := (← get).merged
  -- inside another merge its keys win, and they are already known
  if before.isNone then
    let keys := (entries.map (·.1)).filter (!isMergeKey ·)
    let names ← keys.filterMapM (keyText? anchored fuel)
    modify fun d => { d with merged := some names }
  match value with
  | .sequence _ _ items => items.forM fun item => do
    if !isMapping anchored item then fail .notMergeable
    add item
  | _ =>
    if !isMapping anchored value then fail .notMergeable
    add value
  if before.isNone then modify fun d => { d with merged := none }

/-- Takes in a node that has to be a mapping.  The first argument bounds how deeply merges can be
    nested. -/
def addNode (anchored : Array Yaml.Node) : Nat → Yaml.Node → Decode Unit
  | 0, _ => return ()
  | n + 1, node => do
    visit
    match node with
    | .alias _ name place target => follow anchored name place target (addNode anchored n)
    | .scalar line tag text =>
      let (m, _) ← meaning tag text
      if m != .null then noteKind line tag text "sere.CompileConfig"
    | .sequence line tag _ => noteKind line tag "" "sere.CompileConfig"
    | .mapping _ _ entries =>
      if ← noteRepeatedKeys entries then
        addEntries anchored n [] entries
        match entries.find? (isMergeKey ·.1) with
        | some (_, value) => merge anchored n (addNode anchored n) entries value
        | none => return ()

end Decode

/-- Decodes a document.  `fuel` bounds how deeply aliases and merges can be nested. -/
def decode (fuel : Nat) (document : Yaml.Document) : Except SettingsFileError Settings := do
  let d ← match document.root with
    | some root => do pure (← (Decode.addNode document.anchored fuel root).run .start).2
    | none => pure .start
  if !d.wrong.isEmpty then throw (.wrongKinds d.wrong.reverse)
  let changes : SettingChanges := ⟨some d.target, some d.format, some d.minimize⟩
  (Settings.standard.change changes).mapError .invalid

end SettingsFile

def Settings.ofYaml (bytes : List UInt8) : Except SettingsFileError Settings := do
  let document ← (Yaml.Document.read bytes).mapError .notYaml
  SettingsFile.decode ((bytes.length + 2) * (bytes.length + 2)) document

end TraceRegex
