import TraceRegex.CommandLine.Console
import TraceRegex.CommandLine.Flags
import TraceRegex.CommandLine.Report
import TraceRegex.Compile.Basic
import TraceRegex.Compile.SettingsFile
import TraceRegex.Text.Lines

/-! # The commands

`compile` turns an expression into a snapshot, `dot` draws its automaton, `run` runs a snapshot over
letters, and `inspect` shows what is in a snapshot.
-/

namespace TraceRegex.CommandLine

/-! ## Flags -/

def commonFlags : List Flag := [
  ⟨"verbose", some 'v', .switch⟩,
  ⟨"quiet", some 'q', .switch⟩]

def helpFlag : Flag := ⟨"help", some 'h', .switch⟩

def compileFlags : List Flag := [
  ⟨"file", some 'f', .text⟩,
  ⟨"output", some 'o', .text⟩,
  ⟨"config", none, .text⟩,
  ⟨"target", none, .text⟩,
  ⟨"no-minimize", none, .switch⟩]

inductive CommandName where
  | compile
  | run
  | inspect
  | dot
deriving DecidableEq, Repr

namespace CommandName

def all : List CommandName := [.compile, .run, .inspect, .dot]

def name : CommandName → String
  | .compile => "compile"
  | .run => "run"
  | .inspect => "inspect"
  | .dot => "dot"

def ofName? (name : String) : Option CommandName := all.find? (·.name == name)

def flags : CommandName → List Flag
  | .compile => compileFlags ++ [⟨"format", none, .text⟩]
  | .run => [⟨"extended", some 'e', .switch⟩, ⟨"no-colour", none, .switch⟩]
  | .inspect => []
  | .dot => compileFlags

def usage : CommandName → String
  | .compile => "Usage:\n  sere compile [flags] expression\n"
  | .run => "Usage:\n  sere run [flags] snapshot [letters_file]\n"
  | .inspect => "Usage:\n  sere inspect [flags] snapshot\n"
  | .dot => "Usage:\n  sere dot [flags] expression\n"

end CommandName

def programUsage : String := "Usage:\n  sere [flags]\n  sere [command]\n"

/-! ## Input -/

variable {m : Type → Type} [Monad m] [Console m]

def trimBytes (bytes : List UInt8) : List UInt8 :=
  let glyphs := Text.glyphsOfBytes bytes
  let width (front : List Text.Glyph) : Nat :=
    (front.takeWhile (Text.isBlank ·.char)).foldl (fun n g => n + g.width) 0
  let lead := width glyphs
  let kept := bytes.length - lead - width glyphs.reverse
  (bytes.drop lead).take kept

/-- The text of an expression, which is given as an argument or in a file. -/
def readExpression (command : CommandName) (args : Arguments) : Command m (List UInt8) := do
  let file := (args.text? "file").getD ""
  match file.isEmpty, args.others with
  | false, [] =>
    match ← Command.readFile file with
    | .ok bytes => return trimBytes bytes
    | .error e => Command.fail .badInput e.message
  | true, [text] => return Text.bytesOfString text
  | _, _ => Command.fail .usage command.usage

def readSettings (file : String) : Command m Settings := do
  match ← Command.readFile file with
  | .error e => Command.fail .badInput (file ++ ": " ++ e.message)
  | .ok bytes =>
    match Settings.ofYaml bytes with
    | .ok settings => return settings
    | .error e =>
      if let some text := e.text? then
        Command.printBytes (Text.bytesOfString (file ++ ": ") ++ text ++ Text.bytesOfString "\n")
      throw .badInput

/-- The settings that a file and the flags ask for; flags win. -/
def settingsOf (args : Arguments) : Command m Settings := do
  let file := (args.text? "config").getD ""
  let settings ← if file.isEmpty then pure Settings.standard else readSettings file
  let changes : SettingChanges :=
    { target := (args.text? "target").map Text.bytesOfString
      format := (args.text? "format").map Text.bytesOfString
      minimize := (args.switch? "no-minimize").map (!·) }
  match settings.change changes with
  | .ok settings => return settings
  | .error e => Command.fail .badInput e.message

def compileText (text : List UInt8) (settings : Settings) : Command m Compiled := do
  match Expression.compileText settings (Text.glyphsOfBytes text) with
  | .ok (compiled, _) => return compiled
  | .error e =>
    Command.printBytes (syntaxReport text e)
    throw .badInput

def readSnapshot (file : String) : Command m (Snapshot × List String) := do
  match ← Command.readFile file with
  | .error e => Command.fail .badInput e.message
  | .ok bytes =>
    match Snapshot.decode bytes with
    | .ok r => return r
    | .error e => Command.fail .badInput (file ++ ": " ++ e.message)

/-! ## Letters -/

def separatesAtoms (b : UInt8) : Bool :=
  b.toNat == ','.toNat || b.toNat == ' '.toNat || b.toNat == '\t'.toNat

def atomTexts (current : List UInt8) : List UInt8 → List (List UInt8)
  | [] => if current.isEmpty then [] else [current.reverse]
  | b :: rest =>
    if separatesAtoms b then
      if current.isEmpty then atomTexts [] rest else current.reverse :: atomTexts [] rest
    else atomTexts (b :: current) rest

/-- Reads an atom.  Bytes that are not text are neither a name nor a number. -/
def atomOfBytes (names : List String) (bytes : List UInt8) : Except String Nat :=
  match Text.textOfBytes? bytes with
  | some text => (Letter.atomOf names text).mapError UnknownAtom.message
  | none => .error ("unknown atom " ++ Text.quotedBytes bytes)

/-- The letters on lines, the first of which has the given number.  Lines that start with a hash are
    comments. -/
def lettersOf (names : List String) (line : Nat) : List (List UInt8) → Except String Word
  | [] => .ok []
  | bytes :: rest => do
    let text := trimBytes bytes
    if text.head?.map (·.toNat) == some '#'.toNat then lettersOf names (line + 1) rest
    else
      match (atomTexts [] text).mapM (atomOfBytes names) with
      | .ok atoms => return Letter.ofList atoms :: (← lettersOf names (line + 1) rest)
      | .error e => throw (s!"line {line}: " ++ e)

def readWord (names : List String) (bytes : List UInt8) : Command m Word := do
  let lines := Text.linesOfBytes bytes
  match lettersOf names 1 lines.lines with
  | .error e => Command.fail .badInput e
  | .ok word => if lines.isCut then Command.fail .badInput Text.lineTooLong else return word

/-! ## Running the commands -/

def orStop {α : Type} : Except Fault α → Command m α
  | .ok a => return a
  | .error _ => throw .badInput

def compileCommand (args : Arguments) : Command m Unit := do
  let text ← readExpression .compile args
  let settings ← settingsOf args
  let compiled ← compileText text settings
  match compiled.bytes with
  | .ok bytes => Command.writeResult ((args.text? "output").getD "") bytes
  | .error e => Command.fail .notEncodable e.message

def dotCommand (args : Arguments) : Command m Unit := do
  let text ← readExpression .dot args
  let settings ← settingsOf args
  let compiled ← compileText text settings
  Command.writeResult ((args.text? "output").getD "")
    (Text.bytesOfString (compiled.result.dot compiled.names))

def verdictsOf (s : Snapshot) (word : Word) (isSearch colour : Bool) :
    Except Fault (List String) := do
  if isSearch then
    let x := SearchExecutor.ofSnapshot s
    return (x.verdict :: (← x.trace word)).map fun v => (searchColour v).paint colour v.name
  else
    let x ← Executor.ofSnapshot s
    return (x.verdict :: (← x.trace word)).map fun v => (verdictColour v).paint colour v.name

/-- The letters to run over: from a file, or else from the standard input. -/
def readLetterSource : List String → Command m (List UInt8)
  | file :: _ => do
    match ← Command.readFile file with
    | .ok bytes => return bytes
    | .error e => Command.fail .badInput e.message
  | [] => ExceptT.lift Console.readInput

def runCommand (args : Arguments) : Command m Unit := do
  match args.others with
  | snapshotFile :: letterFile =>
    if 1 < letterFile.length then Command.fail .usage (CommandName.usage .run)
    let (s, names) ← readSnapshot snapshotFile
    let word ← readWord names (← readLetterSource letterFile)
    let isTerminal : Bool ← ExceptT.lift Console.isTerminal
    let colour := isTerminal && !(args.switch? "no-colour").getD false
    let verdicts ← orStop (verdictsOf s word ((args.switch? "extended").getD false) colour)
    Command.print (String.join ((runLines names word verdicts).map (· ++ "\n")))
  | [] => Command.fail .usage (CommandName.usage .run)

def inspectCommand (args : Arguments) : Command m Unit := do
  match args.others with
  | [file] =>
    let (s, names) ← readSnapshot file
    let lines ← orStop (snapshotLines s names)
    Command.print (String.join (lines.map (· ++ "\n")))
  | _ => Command.fail .usage (CommandName.usage .inspect)

def runNamed (command : CommandName) (args : List String) : Command m Unit := do
  match readArguments (command.flags ++ commonFlags ++ [helpFlag]) args with
  | .error _ => throw .usage
  | .ok args =>
    if (args.switch? "help").getD false then Command.printLine command.usage
    else
      match command with
      | .compile => compileCommand args
      | .run => runCommand args
      | .inspect => inspectCommand args
      | .dot => dotCommand args

def runBare (args : List String) : Command m Unit := do
  match readArguments (⟨"version", none, .switch⟩ :: commonFlags ++ [helpFlag]) args with
  | .error _ => throw .usage
  | .ok args =>
    if (args.switch? "version").getD false then Command.printLine "sere (unknown version)"
    else Command.printLine programUsage

def runProgram (args : List String) : Command m Unit := do
  let known := ⟨"version", none, .switch⟩ :: commonFlags
  match wordsOf known args with
  | [] => runBare args
  | word :: _ =>
    match CommandName.ofName? word with
    | some command => runNamed command (dropWord known word args)
    | none => if word = "help" then Command.printLine programUsage else throw .usage

end TraceRegex.CommandLine
