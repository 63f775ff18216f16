import NaturalDeduction.CommandLine

/-!
# The program

Looks at the paths that the arguments name, and prints what the command line answers.
-/

namespace NaturalDeduction

/-- What is found under a path on disk. -/
partial def readTree (path : String) : IO (Option FileTree) := do
  let place := (← IO.currentDir) / path
  if ← place.isDir then
    let mut found := []
    for entry in ← place.readDir do
      if let some tree ← readTree entry.path.toString then
        found := (entry.fileName, tree) :: found
    return some (.directory found)
  else if ← place.pathExists then
    match ← (IO.FS.readBinFile path).toBaseIO with
    | .ok contents => return some (.file contents)
    | .error e => return some (.unreadable e.toString)
  else return none

end NaturalDeduction

open NaturalDeduction in
/-- Runs the program on its arguments. -/
def main (args : List String) : IO UInt32 := do
  let mut found : List (String × FileTree) := []
  for path in CommandLine.paths args do
    if let some tree ← readTree path then
      found := (path, tree) :: found
  let look := fun path ↦ (found.find? (·.1 == path)).map (·.2)
  let answer := CommandLine.answer look args
  IO.print answer.output
  return answer.code.toUInt32
