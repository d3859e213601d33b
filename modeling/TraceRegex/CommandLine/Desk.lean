import TraceRegex.CommandLine.Console

/-! # A console in memory

Files and the standard streams as plain values, so that a command can be run without a machine around
it and its result is a function of its arguments.  A path is followed part by part, and each part but
the last has to be a directory.
-/

namespace TraceRegex.CommandLine

inductive Device where
  | nothing
  | input
  | output
deriving DecidableEq, Repr

inductive Entry where
  | directory
  | file (bytes : List UInt8)
  | device (device : Device)
deriving DecidableEq, Repr

/-- Where a path leads to.  The names on the way are in reverse. -/
inductive Place where
  | below (names : List String)
  | above
  | rooted (names : List String)
deriving DecidableEq, Repr

namespace Place

def start (path : String) : Place := if isRooted path then .rooted [] else .below []

def parent : Place → Place
  | .below [] => .above
  | .below (_ :: names) => .below names
  | .above => .above
  | .rooted names => .rooted names.tail

/-- The place with a name in a directory, unless nothing is known about it. -/
def child? (name : String) : Place → Option Place
  | .below names => some (.below (name :: names))
  | .above => none
  | .rooted names => some (.rooted (name :: names))

end Place

def standardEntry? : List String → Option Entry
  | [] => some .directory
  | [name] => if ["bin", "dev", "etc", "home", "lib", "proc", "root", "sys", "tmp", "usr", "var"].contains name
      then some .directory else none
  | ["dev", "null"] => some (.device .nothing)
  | ["dev", "stderr"] => some (.device .nothing)
  | ["dev", "stdin"] => some (.device .input)
  | ["dev", "stdout"] => some (.device .output)
  | _ => none

/-- A file: the names on the way to it and its bytes. -/
abbrev DeskFile := List String × List UInt8

structure Desk where
  given : List DeskFile
  written : List DeskFile
  input : List UInt8
  output : List UInt8
deriving Inhabited

abbrev AtDesk := StateM Desk

/-- The number of bytes that no path may reach. -/
def maxPathLength : Nat := 4096

def maxNameLength : Nat := 255

namespace Desk

def withFiles (files : List (String × List UInt8)) (input : List UInt8) : Desk where
  given := files.map fun (name, bytes) => (partsOf (cleanPath name), bytes)
  written := []
  input := input
  output := []

def entry? (d : Desk) : Place → Option Entry
  | .above => some .directory
  | .rooted names => standardEntry? names.reverse
  | .below names =>
    let path := names.reverse
    match d.written.lookup path <|> d.given.lookup path with
    | some bytes => some (.file bytes)
    | none =>
      if path.isEmpty || (d.given ++ d.written).any fun f => path.isPrefixOf f.1
        then some .directory else none

def look (d : Desk) (p : Place) (name : String) : Except PathProblem Place :=
  if d.entry? p != some .directory then .error .notDirectory
  else if name.isEmpty || name == "." then .ok p
  else if name == ".." then .ok p.parent
  else if maxNameLength < name.utf8ByteSize then .error .nameTooLong
  else
    match p.child? name with
    | some q => .ok q
    | none => .error .missing

def step (d : Desk) (p : Place) (name : String) : Except PathProblem Place := do
  let q ← d.look p name
  if (d.entry? q).isSome then return q else throw .missing

/-- Stops at paths that no machine takes. -/
def checkPath (path : String) : Except PathProblem Unit :=
  if path.isEmpty then .error .missing
  else if maxPathLength ≤ path.utf8ByteSize then .error .nameTooLong
  else .ok ()

def find (d : Desk) (path : String) : Except PathProblem Entry := do
  checkPath path
  let p ← (partsOf path).foldlM d.step (.start path)
  match d.entry? p with
  | some entry => return entry
  | none => throw .missing

/-- The place of a file to be written.  Its directory has to be there, and it must not be a directory
    itself; a path with a slash at its end is that of a directory. -/
def placeToWrite (d : Desk) (path : String) : Except PathProblem Place := do
  checkPath path
  let parts := partsOf path
  let named := (parts.reverse.dropWhile (·.isEmpty)).reverse
  let p ← named.dropLast.foldlM d.step (.start path)
  if d.entry? p != some .directory then throw .notDirectory
  let last := named.getLast?.getD "."
  if last == "." || last == ".." || named.length != parts.length then throw .isDirectory
  let q ← d.look p last
  if d.entry? q == some .directory then throw .isDirectory
  return q

def write (d : Desk) (path : List String) (bytes : List UInt8) : Desk :=
  { d with written := d.written.filter (·.1 != path) ++ [(path, bytes)] }

def created (d : Desk) : List (String × List UInt8) :=
  (d.written.filter fun f => !d.given.any (·.1 == f.1)).map fun f => ("/".intercalate f.1, f.2)

end Desk

instance : Console AtDesk where
  readFile name := do
    let d ← get
    match d.find name with
    | .ok (.file bytes) => return .ok bytes
    | .ok (.device .input) =>
      set { d with input := [] }
      return .ok d.input
    | .ok (.device _) => return .ok []
    | .ok .directory => return .error (.notRead name .isDirectory)
    | .error problem => return .error (.notOpened name problem)
  writeFile name bytes := do
    let d ← get
    match d.placeToWrite name with
    | .ok (.below names) =>
      set (d.write names.reverse bytes)
      return .ok ()
    | .ok p =>
      if d.entry? p == some (.device .output) then set { d with output := d.output ++ bytes }
      return .ok ()
    | .error problem => return .error (.notOpened name problem)
  readInput := do
    let d ← get
    set { d with input := [] }
    return d.input
  writeOutput bytes := modify fun d => { d with output := d.output ++ bytes }
  isTerminal := return false

end TraceRegex.CommandLine
