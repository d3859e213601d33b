import TraceRegex.CommandLine.WordLists

/-! # The program -/

namespace TraceRegex.CommandLine

/-- What is wrong with a path, by the number that the machine gives for it. -/
def PathProblem.ofCode? (code : UInt32) : Option PathProblem :=
  if code = 2 then some .missing
  else if code = 20 then some .notDirectory
  else if code = 21 then some .isDirectory
  else if code = 36 then some .nameTooLong
  else none

def problemOf? : IO.Error → Option PathProblem
  | .noFileOrDirectory .. => some .missing
  | .inappropriateType _ code _ => PathProblem.ofCode? code
  | .invalidArgument _ code _ => PathProblem.ofCode? code
  | _ => none

/-- A file operation whose failure is a value. -/
def guardFile {α : Type} (failure : PathProblem → FileError) (action : IO α) :
    IO (Except FileError α) := do
  try
    return .ok (← action)
  catch e =>
    return .error (((problemOf? e).map failure).getD (.other (toString e)))

/-- Why a file cannot be read.  A directory can be opened. -/
def readingFailure (name : String) (problem : PathProblem) : FileError :=
  if problem = .isDirectory then .notRead name problem else .notOpened name problem

instance : Console IO where
  readFile name := guardFile (readingFailure name) do return (← IO.FS.readBinFile name).toList
  writeFile name bytes := guardFile (.notOpened name) (IO.FS.writeBinFile name ⟨bytes.toArray⟩)
  readInput := do return (← (← IO.getStdin).readBinToEnd).toList
  writeOutput bytes := do (← IO.getStdout).write ⟨bytes.toArray⟩
  isTerminal := do (← IO.getStdout).isTty

end TraceRegex.CommandLine

open TraceRegex.CommandLine in
/-- Runs a command, or makes lists of words if the first argument is `testgen`. -/
def main (args : List String) : IO UInt32 :=
  match args with
  | "testgen" :: args => Command.exitCode (runWordLists args)
  | args => Command.exitCode (runProgram args)
