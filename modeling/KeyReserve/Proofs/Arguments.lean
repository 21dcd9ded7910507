import KeyReserve.Command

/-!
# Arguments that ask for a check

A call without arguments asks for the check of what is found in the usual places. Options ask for
that of a file instead, and for the configuration to be printed only; either may be given without the
other, and both in either order.

## Main definitions

* `Command.NamesFile`: the ways to name a file;
* `Command.Asks`: the calls that ask for a check, and what each of them asks for.

## Main results

* `Command.ofArgs?_of_asks`: such calls are understood.
-/

namespace KeyReserve

namespace Command

/-- Arguments that name a file: it follows a name of its option, or is attached to the long one. -/
inductive NamesFile (file : String) : List String → Prop
  | long (h : isValue file = true) : NamesFile file ["--config", file]
  | short (h : isValue file = true) : NamesFile file ["-c", file]
  | attached : NamesFile file ["--config=" ++ file]

/-- Arguments that ask for a check, of a file or of what is found, or for printing only. -/
inductive Asks : List String → Option String → Bool → Prop
  | check : Asks [] none false
  | print : Asks ["--dump-config"] none true
  | checkFile {args : List String} {file : String} (hfile : file ≠ "") (h : NamesFile file args) :
      Asks args (some file) false
  | printFile {args : List String} {file : String} (hfile : file ≠ "") (h : NamesFile file args) :
      Asks ("--dump-config" :: args) (some file) true
  | filePrint {args : List String} {file : String} (hfile : file ≠ "") (h : NamesFile file args) :
      Asks (args ++ ["--dump-config"]) (some file) true

theorem attached?_append (option value : String) :
    attached? option (option ++ "=" ++ value) = some value := by
  have htext : (option ++ "=" ++ value).toList = (option ++ "=").toList ++ value.toList :=
    String.toList_append
  rw [attached?, if_pos (List.isPrefixOf_iff_prefix.2 (htext ▸ List.prefix_append _ _)), htext,
    List.drop_left, String.ofList_toList]

theorem setFile_none {file : String} (h : file ≠ "") : setFile none file = some (some file) := by
  simp [setFile, h]

/-- An option behind which a value is attached is no other word that is understood. -/
theorem config_append_ne {file word : String}
    (h : word ∈ ["--", "--dump-config", "--help", "--version", "--config", "-c"]) :
    "--config=" ++ file ≠ word := by
  have hlead : ∀ word ∈ ["--", "--dump-config", "--help", "--version", "--config", "-c"],
      ¬ "--config=".toList <+: word.toList := by decide
  rintro rfl
  refine hlead _ h ?_
  rw [String.toList_append]
  exact List.prefix_append _ _

/-- Once a file has been named, the arguments behind its name are read. -/
theorem ofArgsFrom_of_namesFile {args : List String} {file : String} (hfile : file ≠ "")
    (h : NamesFile file args) (printOnly : Bool) (rest : List String) :
    ofArgsFrom none printOnly (args ++ rest) = ofArgsFrom (some file) printOnly rest := by
  cases h with
  | long h => simp [ofArgsFrom, h, setFile_none hfile]
  | short h => simp [ofArgsFrom, h, setFile_none hfile]
  | attached =>
    have hvalue : attached? "--config" ("--config=" ++ file) = some file :=
      attached?_append "--config" file
    show ofArgsFrom none printOnly (("--config=" ++ file) :: rest) = _
    cases rest <;> simp [ofArgsFrom, config_append_ne, hvalue, setFile_none hfile]

theorem ofArgsFrom_dump (file : Option String) (args : List String) :
    ofArgsFrom file false ("--dump-config" :: args) = ofArgsFrom file true args := by
  cases args <;> simp [ofArgsFrom]

/-- What a call asks for is understood. -/
theorem ofArgs?_of_asks {args : List String} {file : Option String} {printOnly : Bool}
    (h : Asks args file printOnly) : ofArgs? args = some (.check file printOnly) := by
  unfold ofArgs?
  cases h with
  | check => rfl
  | print => rfl
  | checkFile hfile h =>
    have hread := ofArgsFrom_of_namesFile hfile h false []
    rwa [List.append_nil] at hread
  | printFile hfile h =>
    have hread := ofArgsFrom_of_namesFile hfile h true []
    rw [List.append_nil] at hread
    exact (ofArgsFrom_dump none _).trans hread
  | filePrint hfile h => exact ofArgsFrom_of_namesFile hfile h false ["--dump-config"]

end Command

end KeyReserve
