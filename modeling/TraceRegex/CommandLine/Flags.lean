/-! # Command-line flags

Arguments that start with a dash are flags.  A flag has a long name and may have a short one, of one
character; it is a switch, a text or a number.  A value follows its flag as the next argument or
behind an equals sign.  Flags and other arguments can come in any order; after two dashes nothing is
a flag any more.
-/

namespace TraceRegex.CommandLine

inductive FlagKind where
  | switch
  | text
  | number
deriving DecidableEq, Repr, Inhabited

structure Flag where
  name : String
  short : Option Char
  kind : FlagKind
deriving DecidableEq, Repr, Inhabited

inductive FlagValue where
  | switch (on : Bool)
  | text (value : String)
  | number (value : Nat)
deriving DecidableEq, Repr, Inhabited

/-- The flags that were given, the last one first, and the other arguments. -/
structure Arguments where
  flags : List (String × FlagValue)
  others : List String
deriving DecidableEq, Repr, Inhabited

structure FlagError where
deriving DecidableEq, Repr

/-! ## Values -/

def truthOf? (text : String) : Option Bool :=
  if ["1", "t", "T", "TRUE", "true", "True"].contains text then some true
  else if ["0", "f", "F", "FALSE", "false", "False"].contains text then some false
  else none

def digitValue? (c : Char) : Option Nat :=
  if c.isDigit then some (c.toNat - '0'.toNat)
  else if c.toLower.isLower then some (c.toLower.toNat - 'a'.toNat + 10)
  else none

/-- Whether underscores stand only between digits.  `afterDigit` says whether a digit is before. -/
def underscoresSeparate (afterDigit : Bool) : List Char → Bool
  | [] => true
  | '_' :: rest => afterDigit && !rest.isEmpty && rest.head? != some '_'
      && underscoresSeparate false rest
  | _ :: rest => underscoresSeparate true rest

/-- The base that a number is written in and its digits; `true` if a marker shows the base. -/
def baseOf : List Char → Nat × List Char × Bool
  | '0' :: m :: d :: rest =>
    if m.toLower = 'b' then (2, d :: rest, true)
    else if m.toLower = 'o' then (8, d :: rest, true)
    else if m.toLower = 'x' then (16, d :: rest, true)
    else (8, m :: d :: rest, true)
  | '0' :: rest => (8, rest, true)
  | digits => (10, digits, false)

/-- The largest number that a flag can have, the largest of 64 bits. -/
def maxNumber : Nat := 0xffffffffffffffff

def numberOf? (text : String) : Option Nat := do
  if text.isEmpty then none
  let (base, digits, isMarked) := baseOf text.toList
  if !underscoresSeparate isMarked digits then none
  let n ← (digits.filter (· != '_')).foldlM (fun n c => do
    let d ← digitValue? c
    if d < base then some (n * base + d) else none) 0
  if n ≤ maxNumber then some n else none

def FlagKind.read? (kind : FlagKind) (text : String) : Option FlagValue :=
  match kind with
  | .switch => (truthOf? text).map .switch
  | .text => some (.text text)
  | .number => (numberOf? text).map .number

/-! ## Reading arguments -/

def longFlag? (known : List Flag) (name : String) : Option Flag := known.find? (·.name == name)

def shortFlag? (known : List Flag) (c : Char) : Option Flag := known.find? (·.short == some c)

def Arguments.setFlag (a : Arguments) (flag : Flag) (text : String) :
    Except FlagError Arguments :=
  match flag.kind.read? text with
  | some value => .ok { a with flags := (flag.name, value) :: a.flags }
  | none => .error ⟨⟩

def splitEquals (cs : List Char) : List Char × Option (List Char) :=
  let name := cs.takeWhile (· != '=')
  match cs.drop name.length with
  | _ :: value => (name, some value)
  | [] => (name, none)

/-- How the flags of a test run start, which every command puts up with. -/
def testFlagStart : List Char := ['t', 'e', 's', 't', '.']

/-- Reads the short flags of one argument.  The arguments after it can supply a value.  What looks
    like a flag of a test run is left out. -/
def readShort (known : List Flag) (a : Arguments) (after : List String) :
    List Char → Except FlagError (Arguments × List String)
  | [] => .ok (a, after)
  | c :: rest =>
    if testFlagStart.isPrefixOf (c :: rest) then .ok (a, after)
    else
    match shortFlag? known c with
    | none => .error ⟨⟩
    | some flag =>
      match rest with
      | '=' :: v :: value => do return (← a.setFlag flag (String.ofList (v :: value)), after)
      | _ =>
        -- several switches can share an argument, any other flag takes the rest as its value
        if flag.kind = .switch then do
          let a ← a.setFlag flag "true"
          readShort known a after rest
        else if rest.isEmpty then
          match after with
          | value :: after => do return (← a.setFlag flag value, after)
          | [] => .error ⟨⟩
        else do return (← a.setFlag flag (String.ofList rest), after)

def readLong (known : List Flag) (a : Arguments) (after : List String) (body : List Char) :
    Except FlagError (Arguments × List String) :=
  let (name, value) := splitEquals body
  match longFlag? known (String.ofList name) with
  | none => .error ⟨⟩
  | some flag =>
    match value with
    | some value => do return (← a.setFlag flag (String.ofList value), after)
    | none =>
      if flag.kind = .switch then do return (← a.setFlag flag "true", after)
      else
        match after with
        | value :: after => do return (← a.setFlag flag value, after)
        | [] => .error ⟨⟩

/-- Reads arguments.  Each round takes at least one of them, so their number bounds the rounds. -/
def readFrom (known : List Flag) : Nat → Arguments → List String → Except FlagError Arguments
  | 0, a, rest => .ok { a with others := a.others ++ rest }
  | _ + 1, a, [] => .ok a
  | n + 1, a, arg :: rest =>
    match arg.toList with
    -- no flags come after two dashes
    | ['-', '-'] => .ok { a with others := a.others ++ rest }
    | '-' :: '-' :: body => do
      let (a, rest) ← readLong known a rest body
      readFrom known n a rest
    | '-' :: c :: body => do
      let (a, rest) ← readShort known a rest (c :: body)
      readFrom known n a rest
    | _ => readFrom known n { a with others := a.others ++ [arg] } rest

def readArguments (known : List Flag) (args : List String) : Except FlagError Arguments :=
  readFrom known args.length ⟨[], []⟩ args

namespace Arguments

def value? (a : Arguments) (name : String) : Option FlagValue := a.flags.lookup name

def text? (a : Arguments) (name : String) : Option String :=
  match a.value? name with
  | some (.text s) => some s
  | _ => none

def switch? (a : Arguments) (name : String) : Option Bool :=
  match a.value? name with
  | some (.switch b) => some b
  | _ => none

def number? (a : Arguments) (name : String) : Option Nat :=
  match a.value? name with
  | some (.number n) => some n
  | _ => none

end Arguments

/-! ## Finding the command -/

/-- Whether an argument is a flag that takes the next one as its value.  A flag that is not known is
    taken for one. -/
def takesNext (known : List Flag) (arg : String) : Bool :=
  let isSwitch (flag : Option Flag) : Bool := (flag.map (·.kind == .switch)).getD false
  match arg.toList with
  | '-' :: '-' :: name => !name.contains '=' && !isSwitch (longFlag? known (String.ofList name))
  | ['-', c] => c != '=' && !isSwitch (shortFlag? known c)
  | _ => false

/-- The arguments that are neither flags nor their values.  A flag without a value at the end of the
    line hides what is left. -/
def wordsOf (known : List Flag) : List String → List String
  | [] => []
  | arg :: rest =>
    if arg = "--" then []
    else if takesNext known arg then
      match rest with
      | [] => []
      | [_] => []
      | _ :: rest => wordsOf known rest
    else if arg.isEmpty || arg.toList.head? == some '-' then wordsOf known rest
    else arg :: wordsOf known rest

/-- The arguments without the first one that is the given word and not the value of a flag. -/
def dropWord (known : List Flag) (word : String) : List String → List String
  | [] => []
  | arg :: rest =>
    if arg = "--" then arg :: rest
    else if takesNext known arg then
      match rest with
      | [] => [arg]
      | value :: rest => arg :: value :: dropWord known word rest
    else if arg = word then rest
    else arg :: dropWord known word rest

end TraceRegex.CommandLine
