import TraceRegex.Text.Utf8

/-! # Consoles

What a command needs of the world around it: files, the standard input and the standard output.
Commands are written over any monad that offers these.  Files are named by paths, with their parts
separated by slashes.
-/

namespace TraceRegex.CommandLine

/-! ## Paths -/

def isRooted (path : String) : Bool := path.toList.head? == some '/'

def partsOf (path : String) : List String := path.splitOn "/"

/-- Adds a part to the parts of a path, which are in reverse. -/
def addPart (rooted : Bool) (parts : List String) (part : String) : List String :=
  if part.isEmpty || part == "." then parts
  else if part == ".." then
    match parts with
    | [] => if rooted then [] else [".."]
    | last :: rest => if last == ".." then ".." :: parts else rest
  else part :: parts

/-- The shortest path that means the same, as long as all parts of the path are there. -/
def cleanPath (path : String) : String :=
  let parts := (partsOf path).foldl (addPart (isRooted path)) []
  let joined := "/".intercalate parts.reverse
  if isRooted path then "/" ++ joined else if parts.isEmpty then "." else joined

def joinPath (directory file : String) : String :=
  if directory.isEmpty then cleanPath file else cleanPath (directory ++ "/" ++ file)

/-! ## Files and streams -/

inductive PathProblem where
  | missing
  | notDirectory
  | isDirectory
  | nameTooLong
deriving DecidableEq, Repr

def PathProblem.message : PathProblem → String
  | .missing => "no such file or directory"
  | .notDirectory => "not a directory"
  | .isDirectory => "is a directory"
  | .nameTooLong => "file name too long"

inductive FileError where
  | notOpened (name : String) (problem : PathProblem)
  | notRead (name : String) (problem : PathProblem)
  | other (message : String)
deriving DecidableEq, Repr

def FileError.message : FileError → String
  | .notOpened name problem => "open " ++ name ++ ": " ++ problem.message
  | .notRead name problem => "read " ++ name ++ ": " ++ problem.message
  | .other message => message

class Console (m : Type → Type) where
  readFile : String → m (Except FileError (List UInt8))
  writeFile : String → List UInt8 → m (Except FileError Unit)
  readInput : m (List UInt8)
  writeOutput : List UInt8 → m Unit
  isTerminal : m Bool

structure Exit where
  code : UInt32
deriving DecidableEq, Repr

namespace Exit

def success : Exit := ⟨0⟩
def usage : Exit := ⟨1⟩
def badInput : Exit := ⟨2⟩
def notEncodable : Exit := ⟨3⟩
def notWritten : Exit := ⟨4⟩

end Exit

abbrev Command (m : Type → Type) := ExceptT Exit m

namespace Command

variable {m : Type → Type} [Monad m] [Console m]

def printBytes (bytes : List UInt8) : Command m Unit :=
  ExceptT.lift (Console.writeOutput bytes)

def print (text : String) : Command m Unit := printBytes (Text.bytesOfString text)

def printLine (text : String) : Command m Unit := print (text ++ "\n")

def fail {α : Type} (exit : Exit) (text : String) : Command m α := do
  printLine text
  throw exit

def readFile (name : String) : Command m (Except FileError (List UInt8)) :=
  ExceptT.lift (Console.readFile name)

/-- Writes to a file, or to the standard output when the name is empty. -/
def writeResult (name : String) (bytes : List UInt8) : Command m Unit := do
  if name.isEmpty then printBytes bytes
  else
    match ← ExceptT.lift (Console.writeFile name bytes) with
    | .ok () => return ()
    | .error e => fail .notWritten e.message

def exitCode (command : Command m Unit) : m UInt32 := do
  match ← command.run with
  | .ok () => return Exit.success.code
  | .error exit => return exit.code

end Command

end TraceRegex.CommandLine
