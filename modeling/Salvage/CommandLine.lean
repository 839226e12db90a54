import Salvage.Recovery

/-! # The command line

Arguments are read from left to right. Options that hold for all commands may stand before
or behind the command's name, and the later place has precedence. A command line is either
rejected, or asks for the version, or says what to recover.
-/

namespace Salvage

inductive Command where
  | csv
  | sql
  | json
  | fields
  | auto
deriving DecidableEq, Repr

namespace Command

def name : Command → String
  | .csv => "csv"
  | .sql => "sql"
  | .json => "json"
  | .fields => "fields"
  | .auto => "auto"

def ofName? (s : String) : Option Command :=
  [.csv, .sql, .json, .fields, .auto].find? fun c => c.name == s

/-- The format that the command reads every input in. -/
def format? : Command → Option InputFormat
  | .csv => some .csv
  | .sql => some .sql
  | .json => some .json
  | .fields => some .fields
  | .auto => none

end Command

/-- An option with a value. -/
inductive ValueOption where
  | delimiter
  | split
  | maxBytes
deriving DecidableEq, Repr

namespace ValueOption

def longName : ValueOption → String
  | .delimiter => "delimiter"
  | .split => "split"
  | .maxBytes => "max-input-bytes"

def letter? : ValueOption → Option Char
  | .delimiter => some 'd'
  | _ => none

/-- The options that a place knows: that of a command, or that before all commands. -/
def known : Option Command → List ValueOption
  | some .csv => [.delimiter, .maxBytes]
  | some .sql => [.split, .maxBytes]
  | _ => [.maxBytes]

end ValueOption

/-- An option without a value. -/
inductive Switch where
  | verbose
  | version
deriving DecidableEq, Repr

namespace Switch

def longName : Switch → String
  | .verbose => "verbose"
  | .version => "version"

def letter : Switch → Char
  | .verbose => 'v'
  | .version => 'V'

/-- The version can be asked for before all commands only. -/
def known : Option Command → List Switch
  | some _ => [.verbose]
  | none => [.verbose, .version]

end Switch

/-- The options given in one place. -/
structure Settings where
  delimiter : Option Char
  split : Option Ddl.SplitMode
  maxBytes : Option Nat
  verbose : Bool

def Settings.initial : Settings := ⟨none, none, none, false⟩

/-- Why the reading of arguments stops early. -/
inductive Stop where
  | rejected
  | version
deriving DecidableEq, Repr

def splitModeOfName? (s : List Char) : Option Ddl.SplitMode :=
  if s = "naive".toList then some .naive
  else if s = "paren-depth".toList then some .parenDepth
  else none

/-- A number that 64 bits hold, which a plus sign may precede. -/
def byteLimit? (s : List Char) : Option Nat :=
  let ds := match s with
    | '+' :: r => r
    | s => s
  if ds ≠ [] ∧ ds.all Char.isDigit ∧ ofDigits ds < Nat.pow 2 64 then some (ofDigits ds) else none

def soleChar? : List Char → Option Char
  | [c] => some c
  | _ => none

namespace Settings

/-- Stores a value that an option may have once. -/
def once {α : Type} (old new : Option α) : Except Stop (Option α) :=
  if old.isSome || new.isNone then .error .rejected else .ok new

/-- Gives an option its value. -/
def set (st : Settings) (o : ValueOption) (value : List Char) : Except Stop Settings :=
  match o with
  | .delimiter => (once st.delimiter (soleChar? value)).map fun d => { st with delimiter := d }
  | .split => (once st.split (splitModeOfName? value)).map fun m => { st with split := m }
  | .maxBytes => (once st.maxBytes (byteLimit? value)).map fun n => { st with maxBytes := n }

/-- Turns a switch on, which may happen once. -/
def turnOn (st : Settings) : Switch → Except Stop Settings
  | .verbose => if st.verbose then .error .rejected else .ok { st with verbose := true }
  | .version => .error .version

end Settings

/-- The settings behind an argument, and the option that has its value in the next one. -/
abbrev Awaiting := Settings × Option ValueOption

/-- An argument behind its two dashes, such as `split`, `split=naive` or `verbose`. -/
def longOption (place : Option Command) (st : Settings) (body : List Char) :
    Except Stop Awaiting :=
  let name := String.ofList (body.takeWhile (· != '='))
  let value? := (body.dropWhile (· != '=')).tail?
  match (ValueOption.known place).find? (·.longName == name) with
  | some o =>
    match value? with
    | some value => (st.set o value).map (·, none)
    | none => .ok (st, some o)
  | none =>
    match (Switch.known place).find? (·.longName == name), value? with
    | some s, none => (st.turnOn s).map (·, none)
    | _, _ => .error .rejected

/-- The value that is attached to an option's letter. -/
def attachedValue : List Char → List Char
  | '=' :: r => r
  | s => s

/-- An argument behind its one dash: letters of switches, and at the end perhaps that of an
option with its value. -/
def shortOptions (place : Option Command) (st : Settings) : List Char → Except Stop Awaiting
  | [] => .ok (st, none)
  | c :: r =>
    match (Switch.known place).find? (·.letter == c) with
    | some s =>
      match st.turnOn s with
      | .error e => .error e
      | .ok st => shortOptions place st r
    | none =>
      match (ValueOption.known place).find? (·.letter? == some c) with
      | none => .error .rejected
      | some o => if r = [] then .ok (st, some o) else (st.set o (attachedValue r)).map (·, none)

/-- What an argument is, by its dashes. A single dash is a plain argument. -/
inductive Argument where
  | endOfOptions
  | long (body : List Char)
  | short (letters : List Char)
  | plain

def Argument.ofText : List Char → Argument
  | ['-', '-'] => .endOfOptions
  | '-' :: '-' :: body => .long body
  | '-' :: c :: r => .short (c :: r)
  | _ => .plain

/-- An argument with dashes in front of its options. -/
def readOptions (place : Option Command) (st : Settings) : Argument → Except Stop Awaiting
  | .long body => longOption place st body
  | .short letters => shortOptions place st letters
  | _ => .error .rejected

/-- Gives the awaited value, which does not look like an option. -/
def giveValue (st : Settings) (o : ValueOption) (value : String) : Except Stop Settings :=
  match Argument.ofText value.toList with
  | .plain => st.set o value.toList
  | _ => .error .rejected

/-- The settings and the paths behind the name of a command. -/
def readInputs (c : Command) (st : Settings) : List String → Except Stop (Settings × List String)
  | [] => .ok (st, [])
  | a :: rest =>
    match Argument.ofText a.toList with
    | .endOfOptions => .ok (st, rest)
    | .plain => (readInputs c st rest).map fun (st, paths) => (st, a :: paths)
    | argument =>
      match readOptions (some c) st argument with
      | .error e => .error e
      | .ok (st, none) => readInputs c st rest
      | .ok (st, some o) =>
        match rest with
        | [] => .error .rejected
        | value :: rest =>
          match giveValue st o value with
          | .error e => .error e
          | .ok st => readInputs c st rest

/-- What to recover, and how. -/
structure Invocation where
  command : Command
  settings : Settings
  paths : List String

/-- The invocation of a command. There is at least one path, and no path is empty. -/
def invoke (c : Command) (before : Settings) (args : List String) : Except Stop Invocation :=
  match readInputs c .initial args with
  | .error e => .error e
  | .ok (st, paths) =>
    if paths = [] ∨ "" ∈ paths then .error .rejected
    else .ok ⟨c, { st with maxBytes := st.maxBytes <|> before.maxBytes }, paths⟩

/-- Reads arguments up to the name of a command, and the command's own behind it. -/
def readArguments (st : Settings) : List String → Except Stop Invocation
  | [] => .error .rejected
  | a :: rest =>
    match Argument.ofText a.toList with
    | .endOfOptions => .error .rejected
    | .plain =>
      match Command.ofName? a with
      | some c => invoke c st rest
      | none => .error .rejected
    | argument =>
      match readOptions none st argument with
      | .error e => .error e
      | .ok (st, none) => readArguments st rest
      | .ok (st, some o) =>
        match rest with
        | [] => .error .rejected
        | value :: rest =>
          match giveValue st o value with
          | .error e => .error e
          | .ok st => readArguments st rest

/-- What a run prints, and the code it exits with. -/
structure Report where
  exitCode : Nat
  output : String
  errors : String

def versionText : String := "schema-recover 0.1.0\n"

/-- The report of a command line that cannot be followed. -/
def Report.rejected : Report := ⟨2, "", ""⟩

namespace Invocation

def options (i : Invocation) (path : String) : Options where
  format := i.command.format?.getD (.ofPath path)
  delimiter := i.settings.delimiter
  split := i.settings.split.getD .naive
  maxBytes := i.settings.maxBytes.getD defaultMaxBytes

/-- The results of all inputs, in order, given the content of those that are there. -/
def results (i : Invocation) (content : String → Option ByteArray) :
    List (String × Except RecoveryError Salvaged) :=
  i.paths.map fun path => (path, salvage (i.options path) path (content path))

/-- Each result on the output and each failure on a line of the errors. -/
def report (i : Invocation) (content : String → Option ByteArray) : Report :=
  let results := i.results content
  let outputs := results.filterMap fun (_, r) => r.toOption.map fun x => x.toValue.pretty ++ "\n"
  let errors := results.filterMap fun (path, r) =>
    match r with
    | .ok _ => none
    | .error e => some (path ++ ": " ++ e.message ++ "\n")
  ⟨if errors.isEmpty then 0 else 1, String.join outputs, String.join errors⟩

end Invocation

/-- The report of a command line, given the content of the files that are there. -/
def runCommandLine (args : List String) (content : String → Option ByteArray) : Report :=
  match readArguments .initial args with
  | .error .rejected => .rejected
  | .error .version => ⟨0, versionText, ""⟩
  | .ok i => i.report content

end Salvage
