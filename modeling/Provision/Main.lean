import Provision.CommandLine.Run

/-!
The program: runs the command line on the files of the machine.
-/

namespace Provision

def succeeds (action : IO Unit) : IO Bool := do
  try
    action
    return true
  catch _ => return false

/-- The files of the machine. A new file is written beside its place and then moved there. -/
def machine : Files.FileSystem IO where
  read path := do
    try
      return some (← IO.FS.readFile path)
    catch _ => return none
  isFile path := succeeds do discard (IO.FS.readBinFile path)
  makeDirectories path := succeeds (IO.FS.createDirAll path)
  put path contents := do
    let fresh := Files.join (Files.directoryOf path) ".infragen-new"
    if !(← succeeds (IO.FS.writeFile fresh contents)) then return .error .write
    if ← succeeds (IO.FS.rename fresh path) then return .ok ()
    discard (succeeds (IO.FS.removeFile fresh))
    return .error .persist

end Provision

def main (arguments : List String) : IO UInt32 := do
  let environment ← IO.getEnv "INFRAGEN_TARGETS"
  let outcome ← Provision.CommandLine.run Provision.machine environment arguments
  for notice in outcome.notices do
    IO.eprintln notice.text
  IO.print outcome.output
  return outcome.exitCode.toUInt32
