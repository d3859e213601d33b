import TraceRegex.CommandLine.Commands
import TraceRegex.CommandLine.Console
import TraceRegex.Expression.Language
import TraceRegex.Words.File
import TraceRegex.Words.Generate

/-! # Making lists of words

A second program: for the expression in a file it writes one file of words that the expression accepts
and one of words that it rejects.
-/

namespace TraceRegex.CommandLine

/-! ## The program -/

def wordListFlags : List Flag := [
  ⟨"min-len", none, .number⟩,
  ⟨"max-len", none, .number⟩,
  ⟨"count", none, .number⟩,
  ⟨"max-words", none, .number⟩,
  ⟨"seed", none, .number⟩,
  ⟨"dir", none, .text⟩]

def wordListUsage : String := "Usage:\n  testgen [flags]\n"

/-- Whether an expression has no prefix closure. -/
def isPlain : Expression → Bool
  | .condition _ => true
  | .empty => true
  | .union e f => isPlain e && isPlain f
  | .intersect e f => isPlain e && isPlain f
  | .concat e f => isPlain e && isPlain f
  | .fusion e f => isPlain e && isPlain f
  | .star e => isPlain e
  | .plus e => isPlain e
  | .prefixes _ => false
  | .complement e => isPlain e

/-- The test that sorts words: the meaning of the expression or, if it has a prefix closure, its
    automaton. -/
def wordTest (e : Expression) (names : List String) : Word → Bool :=
  if isPlain e then fun w => (e.accepts w).toOption.getD false
  else
    let compiled := ((e.compile .standard names).run Context.empty).1
    fun w => compiled.automaton.eval w = .ok

def planOf (args : Arguments) : Word.Plan where
  minLength := (args.number? "min-len").getD 0
  maxLength := (args.number? "max-len").getD 4
  count := (args.number? "count").getD 64
  maxWords := (args.number? "max-words").getD 4096
  seed := ((args.number? "seed").getD 0).toUInt64

variable {m : Type → Type} [Monad m] [Console m]

/-- Writes a list of words; a file that cannot be written ends the program. -/
def writeWords (file : String) (names : List String) (words : List Word) : Command m Unit := do
  match ← ExceptT.lift (Console.writeFile file (Text.bytesOfString (Word.fileOf names words))) with
  | .ok () => return ()
  | .error _ => throw .badInput

def runWordLists (args : List String) : Command m Unit := do
  match readArguments (wordListFlags ++ [helpFlag]) args with
  | .error _ => throw .usage
  | .ok args =>
    if (args.switch? "help").getD false then Command.printLine wordListUsage
    else
      match args.others with
      | [name] =>
        let directory := (args.text? "dir").getD "testdata"
        match ← Command.readFile (joinPath directory (name ++ ".sere")) with
        | .error e => Command.fail .usage e.message
        | .ok bytes =>
          match Expression.parse (Text.glyphsOfBytes (trimBytes bytes)) with
          | .error e => Command.fail .usage e.render
          | .ok (e, names) =>
            let (accepted, rejected) ←
              orStop (Word.generate (planOf args) names.length (wordTest e names))
            writeWords (joinPath directory (name ++ ".auto.accepts")) names accepted
            writeWords (joinPath directory (name ++ ".auto.rejects")) names rejected
      | _ => Command.fail .usage wordListUsage

end TraceRegex.CommandLine
