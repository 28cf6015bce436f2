import Unbundled.CommandLine
import Unbundled.Http

/-! # The program

The command line in front of the library. Standard input names the files of the project, one a line,
up to an empty line or to the end; `dev` reads them into a `Disk`. Each further line is the target of
a request, and its response goes to standard output. Everything that is decided is decided in
`Command.execute` and `Http.handle`.
-/

namespace Unbundled.Program

/-- The lines of a stream up to an empty one. -/
partial def readNames (stream : IO.FS.Stream) : IO (List String) := do
  let line := ((← stream.getLine).trimAscii).toString
  if line.isEmpty then return []
  return line :: (← readNames stream)

/-- The words in which the program refuses JSON. -/
def library : Library where
  manifest _ := "not a package manifest".toList
  config _ := "not a configuration".toList

/-- The disk that holds the named files, below the working folder. -/
def loadDisk (names : List String) : IO Disk := do
  let mut disk : Disk := ⟨.folder [], [], library⟩
  for name in names do
    let content ← IO.FS.readBinFile name
    disk := disk.put ⟨name.toList⟩ (.file content.toList)
  return disk

/-- Prints a response. -/
def printResponse (stream : IO.FS.Stream) (r : Http.Response) : IO Unit := do
  stream.putStrLn s!"HTTP/1.1 {r.status}"
  stream.putStrLn ("content-type: " ++ String.ofList r.contentType)
  if let some value := r.cacheControl then
    stream.putStrLn ("cache-control: " ++ String.ofList value)
  stream.putStrLn ""
  stream.write ⟨r.body.toArray⟩
  stream.putStrLn ""
  stream.flush

/-- Answers requests until the input ends. -/
partial def answerRequests (disk : Disk) (settings : Settings) (input output : IO.FS.Stream) :
    IO Unit := do
  let target := ((← input.getLine).trimAscii).toString
  if target.isEmpty then return
  printResponse output
    (Http.handle disk ⟨settings.root, settings.rewriteComponentImports⟩ target.toList)
  answerRequests disk settings input output

/-- Whether the arguments ask for the server. -/
def asksToServe : Except Command.UsageFault Command → Bool
  | .ok (.dev _ _) => true
  | _ => false

end Unbundled.Program

open Unbundled Program in
/-- The program. -/
def main (arguments : List String) : IO UInt32 := do
  let input ← IO.getStdin
  let output ← IO.getStdout
  let port := (← IO.getEnv "MINIVITE_PORT").map String.toList
  let arguments := arguments.map String.toList
  let names ← if asksToServe (Command.parse port arguments) then readNames input else pure []
  let disk ← loadDisk names
  let result := Command.execute disk port arguments
  output.putStr (String.ofList result.output)
  output.flush
  match result with
  | .failed fault => (← IO.getStderr).putStrLn ("Error: " ++ String.ofList fault.message)
  | .refused _ => (← IO.getStderr).putStr (String.ofList Command.usage)
  | .serving settings => answerRequests disk settings input output
  | .ended _ _ => pure ()
  return UInt32.ofNat result.exitCode
