import KeyReserve.Command

/-!
# The program

Reads the files that a call may need and hands them to the command.
-/

namespace KeyReserve

/-- What reading a path brings. -/
def readSource (path : String) : IO Config.Source := do
  try
    let content ← IO.FS.readBinFile path
    return .bytes content
  catch
    | .noFileOrDirectory _ _ _ => return .missing
    | _ => return .unreadable

end KeyReserve

open KeyReserve
/-- Carries out a call of the program. -/
def main (args : List String) : IO UInt32 := do
  let search := Config.searchPaths (← IO.getEnv "HOME") (← IO.getEnv "XDG_CONFIG_HOME")
  let paths := ((Command.ofArgs? args).map (·.paths search)).getD []
  let mut sources := #[]
  for path in paths do
    sources := sources.push (path, ← readSource path)
  let read path := (sources.toList.lookup path).getD .missing
  let outcome := Command.runArgs read search args
  for complaint in outcome.complaints do
    IO.eprintln complaint
  IO.print outcome.output
  return outcome.status
