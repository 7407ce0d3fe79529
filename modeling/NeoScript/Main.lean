import NeoScript.CommandLine.Commands

/-!
# Main — the command line on the files of the system
-/

namespace NeoScript

def succeeds (action : IO Unit) : IO Bool := do
  match ← action.toBaseIO with
  | .ok _ => return true
  | .error _ => return false

instance : Host IO where
  readFile path := do
    match ← (IO.FS.readBinFile path).toBaseIO with
    | .ok bytes => return some bytes.toList
    | .error _ => return none
  fileExists path := do
    match ← (IO.FS.Handle.mk path .read).toBaseIO with
    | .ok _ => return some true
    | .error (.noFileOrDirectory ..) => return some false
    | .error _ => return none
  writeFile path bytes := succeeds (IO.FS.writeBinFile path ⟨bytes.toArray⟩)
  createDirectories path := succeeds (IO.FS.createDirAll path)
  print text := IO.print text

end NeoScript

open NeoScript in
def main (arguments : List String) : IO UInt32 := do
  let ending ← (CommandLine.run arguments : IO Ending)
  match ending with
  | .failed fault => IO.eprintln ("Error: " ++ fault.message)
  | .misused _ => IO.eprintln CommandLine.helpText
  | _ => return 0
  return UInt32.ofNat ending.exitCode
