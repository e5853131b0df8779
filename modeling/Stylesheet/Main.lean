/-
  Stylesheet.Main — the program: reads the file the arguments name, runs, and prints.
-/

import Stylesheet.CommandLine.Run

namespace Stylesheet.CommandLine

def entryAt (path : Text) : IO Entry := do
  try
    let bytes ← IO.FS.readBinFile (String.ofList path)
    return .file bytes.toList
  catch
    | .inappropriateType .. => return .directory
    | _ => return .missing

def serve (wanted : Request) : IO Outcome := do
  let entry ←
    match wanted with
    | .job job => entryAt job.path
    | _ => pure .missing
  return wanted.run fun _ => entry

end Stylesheet.CommandLine

open Stylesheet.CommandLine

def main (arguments : List String) : IO UInt32 := do
  let outcome ← serve (request (arguments.map String.toList))
  let stdout ← IO.getStdout
  let stderr ← IO.getStderr
  stdout.putStr (String.ofList outcome.stdout)
  stderr.putStr (String.ofList outcome.stderr)
  if let some failure := outcome.failure then
    stderr.putStrLn (String.ofList failure.message)
  return outcome.exitCode.toUInt32
