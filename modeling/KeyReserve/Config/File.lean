import KeyReserve.Config.Document
import KeyReserve.Yaml.Reader
import KeyReserve.Yaml.Writer

/-!
# Configuration files

A configuration is gathered from files that are looked for in several places, where a later file
overrides an earlier one setting by setting. Files are given to the functions here by what reading
their paths brings, so that no function depends on a file system.

## Main definitions

* `Config.parse`, `Config.print`: a configuration out of a text and as a text;
* `Config.loadFile`, `Config.load`: a configuration out of one file, and out of those of several
  that exist;
* `Config.searchPaths`: where files are looked for.
-/

namespace KeyReserve

namespace Config

/-- The configuration that a text means, if it means one. -/
def parse (text : String) : Option Config := (Yaml.read text).bind ofTree

/-- A configuration as a text. -/
def print (c : Config) : String := Yaml.write c.toTree

/-- What reading a path brings. -/
inductive Source where
  | missing
  /-- There is something that cannot be read, such as a directory. -/
  | unreadable
  | bytes (content : ByteArray)

/-- Why a file does not give a configuration. -/
inductive LoadError where
  /-- The file cannot be read, or what it holds is no text. -/
  | unreadable (path : String)
  /-- The text of the file means no configuration. -/
  | malformed (path : String)
  deriving DecidableEq

/-- The wording of a failure to load. -/
def LoadError.message : LoadError → String
  | .unreadable path => "failed to read config file " ++ path
  | .malformed path => "failed to parse config file " ++ path

/-- The configuration in a file. -/
def loadFile (read : String → Source) (path : String) : Except LoadError Config :=
  match read path with
  | .missing => .error (.unreadable path)
  | .unreadable => .error (.unreadable path)
  | .bytes content =>
    match String.fromUTF8? content with
    | none => .error (.unreadable path)
    | some text =>
      match parse text with
      | none => .error (.malformed path)
      | some c => .ok c

/-- Whether there is anything at a path. -/
def Source.isThere : Source → Bool
  | .missing => false
  | _ => true

/-- What the files that exist at some paths add to a configuration, with the paths of those
files. -/
def loadOnto (read : String → Source) (c : Config) :
    List String → Except LoadError (Config × List String)
  | [] => .ok (c, [])
  | p :: ps =>
    if (read p).isThere then do
      let file ← loadFile read p
      let (c, loaded) ← loadOnto read (c.merge file) ps
      .ok (c, p :: loaded)
    else
      loadOnto read c ps

/-- The configuration out of the files that exist at some paths, with the paths of those files. -/
def load (read : String → Source) (paths : List String) :
    Except LoadError (Config × List String) :=
  loadOnto read standard paths

/-! ## Where files are looked for -/

/-- The path of an entry of a directory. -/
def joinPath (directory entry : String) : String :=
  if directory.isEmpty || directory.endsWith "/" then directory ++ entry
  else directory ++ "/" ++ entry

/-- The name of configuration files. -/
def fileName : String := "qkdnet.yaml"

/-- Where the programs of a user keep their configurations: in the directory named for that, if
the name is an absolute path, else in a directory of the user's home. -/
def configHome? (home xdg : Option String) : Option String :=
  match xdg with
  | some d => if d.startsWith "/" then some d else home.map (joinPath · ".config")
  | none => home.map (joinPath · ".config")

/-- Where files are looked for, those that override the others last: for the whole system, for a
user, in the user's home, and where the program is started. -/
def searchPaths (home xdg : Option String) : List String :=
  [joinPath "/etc/qkdnet" fileName] ++
  ((configHome? home xdg).map fun d => joinPath (joinPath d "qkdnet") fileName).toList ++
  (home.map (joinPath · ".qkdnet.yaml")).toList ++
  [joinPath "." fileName]

end Config

end KeyReserve
