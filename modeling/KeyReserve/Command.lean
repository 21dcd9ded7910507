import KeyReserve.Config.File
import KeyReserve.Node.Lifecycle

/-!
# The command line

The program checks a configuration: it brings up the links of a node that is not connected to
anything, and says by its status whether all of them came up. On demand it prints the configuration
that it has gathered instead.

Arguments are read from the left. An option with a value takes it from behind an equals sign or
from the next argument, which must not look like an option itself; behind the short name of the
option the value may follow at once. Nothing but options is expected, and none of them twice.

## Main definitions

* `Command`, `Command.ofArgs?`: what is asked for, and the arguments that ask for it;
* `Command.run`: the outcome, for files that are given as functions of their paths.
-/

namespace KeyReserve

/-- What a call of the program asks for. -/
inductive Command where
  | showHelp
  | showVersion
  /-- To check a configuration, or only to print it, out of one file or of those looked for. -/
  | check (file : Option String) (printOnly : Bool)
  deriving DecidableEq

namespace Command

/-- Whether an argument can be the value of an option. -/
def isValue (arg : String) : Bool := arg = "-" || !arg.startsWith "-"

/-- The value behind the equals sign of an option, if the argument is that option with one. -/
def attached? (option arg : String) : Option String :=
  let lead := (option ++ "=").toList
  if lead.isPrefixOf arg.toList then some (String.ofList (arg.toList.drop lead.length)) else none

/-- Sets the file, which is done once and to some name. -/
def setFile (file : Option String) (value : String) : Option (Option String) :=
  if value.isEmpty || file.isSome then none else some (some value)

/-- Reads the arguments that follow those by which a file may have been named already and printing
asked for. -/
def ofArgsFrom (file : Option String) (printOnly : Bool) : List String → Option Command
  | [] => some (.check file printOnly)
  | ["--"] => some (.check file printOnly)
  | arg :: args =>
    if arg = "--dump-config" then
      if printOnly then none else ofArgsFrom file true args
    else if arg = "--help" then
      some .showHelp
    else if arg = "--version" then
      some .showVersion
    else if arg = "--config" || arg = "-c" then
      match args with
      | [] => none
      | value :: args =>
        if isValue value then
          match setFile file value with
          | none => none
          | some file => ofArgsFrom file printOnly args
        else
          none
    else
      match attached? "--config" arg with
      | some value =>
        match setFile file value with
        | none => none
        | some file => ofArgsFrom file printOnly args
      | none =>
        match arg.toList with
        | '-' :: 'h' :: _ => some .showHelp
        | '-' :: 'V' :: _ => some .showVersion
        | '-' :: 'c' :: value =>
          let value :=
            match value with
            | '=' :: value => value
            | value => value
          match setFile file (String.ofList value) with
          | none => none
          | some file => ofArgsFrom file printOnly args
        | _ => none

/-- What the arguments ask for, if they are well formed. -/
def ofArgs? (args : List String) : Option Command := ofArgsFrom none false args

/-- The text that explains the options. -/
def help : String :=
  "QKD key-buffer node\n\n" ++
  "Usage: qkdnet [OPTIONS]\n\n" ++
  "Options:\n" ++
  "  -c, --config <FILE>  Path to configuration file (overrides default search paths)\n" ++
  "      --dump-config    Print the effective configuration as YAML and exit\n" ++
  "  -h, --help           Print help\n" ++
  "  -V, --version        Print version\n"

/-- The name and the version of the program. -/
def version : String := "qkdnet 0.1.0\n"

/-- What is left of a call: its status, what it prints and what it complains of. -/
structure Outcome where
  status : UInt32
  output : String := ""
  complaints : List String := []
  deriving DecidableEq

/-- The paths that a command may read. -/
def paths (search : List String) : Command → List String
  | .showHelp => []
  | .showVersion => []
  | .check (some file) _ => [file]
  | .check none _ => search

/-- The configuration that a command is about. -/
def config (read : String → Config.Source) (search : List String) :
    Option String → Except Config.LoadError Config
  | some file => Config.loadFile read file
  | none => (Config.load read search).map (·.1)

/-- Brings a node up with all its links and takes it down again. Status one says that there is no
node, status two that a link stays down. -/
def tryOut (c : Config) : Outcome :=
  match Node.create c .accepting with
  | .error e => { status := 1, complaints := [e.message] }
  | .ok n =>
    match n.start 0 with
    | (.error e, _) => { status := 1, complaints := [e.message] }
    | (.ok failures, _) =>
      { status := if failures.isEmpty then 0 else 2, complaints := failures.map (·.message) }

/-- The outcome of a well-formed call. -/
def run (read : String → Config.Source) (search : List String) : Command → Outcome
  | .showHelp => { status := 0, output := help }
  | .showVersion => { status := 0, output := version }
  | .check file printOnly =>
    match config read search file with
    | .error e => { status := 1, complaints := [e.message] }
    | .ok c => if printOnly then { status := 0, output := c.print } else tryOut c

/-- The outcome of any call. Ill-formed arguments give status two. -/
def runArgs (read : String → Config.Source) (search : List String) (args : List String) :
    Outcome :=
  match ofArgs? args with
  | none => { status := 2, complaints := [help] }
  | some c => c.run read search

end Command

end KeyReserve
