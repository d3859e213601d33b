import TraceRegex.Text.Quoted

/-! # Settings of a compilation -/

namespace TraceRegex

inductive Target where
  | nondeterministic
  | deterministic
deriving DecidableEq, Repr, Inhabited

inductive Format where
  | binary
  | json
deriving DecidableEq, Repr, Inhabited

/-- Why settings are refused.  A name need not be text. -/
inductive SettingsError where
  | unknownTarget (name : List UInt8)
  | unknownFormat (name : List UInt8)
deriving DecidableEq, Repr

def SettingsError.message : SettingsError → String
  | .unknownTarget name => "unknown target " ++ Text.quotedBytes name
  | .unknownFormat name => "unknown format " ++ Text.quotedBytes name

def Target.name : Target → String
  | .nondeterministic => "nfasl"
  | .deterministic => "dfasl"

def Target.ofName (name : List UInt8) : Except SettingsError Target :=
  if name = Text.bytesOfString Target.nondeterministic.name then .ok .nondeterministic
  else if name = Text.bytesOfString Target.deterministic.name then .ok .deterministic
  else .error (.unknownTarget name)

def Format.name : Format → String
  | .binary => "binary"
  | .json => "json"

def Format.ofName (name : List UInt8) : Except SettingsError Format :=
  if name = Text.bytesOfString Format.binary.name then .ok .binary
  else if name = Text.bytesOfString Format.json.name then .ok .json
  else .error (.unknownFormat name)

structure Settings where
  target : Target
  format : Format
  /-- Whether to minimize the automaton, rather than only to clean it. -/
  minimize : Bool
deriving DecidableEq, Repr, Inhabited

structure SettingChanges where
  target : Option (List UInt8)
  format : Option (List UInt8)
  minimize : Option Bool
deriving DecidableEq, Repr, Inhabited

namespace Settings

/-- A minimized nondeterministic automaton in the binary format. -/
def standard : Settings := ⟨.nondeterministic, .binary, true⟩

/-- The settings with some of them changed.  The target is looked at first. -/
def change (s : Settings) (changes : SettingChanges) : Except SettingsError Settings := do
  let target ← match changes.target with
    | some name => Target.ofName name
    | none => pure s.target
  let format ← match changes.format with
    | some name => Format.ofName name
    | none => pure s.format
  return { target, format, minimize := changes.minimize.getD s.minimize }

end Settings

end TraceRegex
