import Treewalk.Command.Outcome

/-!
# The program

Reads what a command line needs, carries it out and writes the outcome.
-/

namespace Treewalk

partial def readAll (stream : IO.FS.Stream) (done : ByteArray) : IO ByteArray := do
  let chunk ← stream.read 65536
  if chunk.isEmpty then return done else readAll stream (done ++ chunk)

def readFile (name : String) : IO (Except FileFault (List UInt8)) := do
  try
    return .ok (← IO.FS.readBinFile name).toList
  catch
    | .noFileOrDirectory _ _ _ => return .error .missing
    | .inappropriateType _ 21 _ => return .error .isFolder
    | .inappropriateType _ _ _ => return .error .inFile
    | e => return .error (.other e.toString)

def readNamed (c : Command) : IO (Except FileFault (List UInt8)) :=
  match c.fileName? with
  | some name => readFile name
  | none => return .error .missing

def readInput (c : Command) : IO (List UInt8) := do
  match c.action with
  | .run (some _) | .interact => return (← readAll (← IO.getStdin) .empty).toList
  | _ => return []

def carryOut (words : List String) : IO (Option Outcome) := do
  match Command.ofWords words with
  | .error m => return some (.misuse m)
  | .ok c =>
      let content ← readNamed c
      return c.perform Session.ampleFuel (fun _ => content) (← readInput c)

end Treewalk

def main (words : List String) : IO UInt32 := do
  match ← Treewalk.carryOut words with
  | none => return 70
  | some outcome =>
      (← IO.getStdout).putStr outcome.out
      (← IO.getStderr).putStr outcome.err
      return outcome.exitCode.toUInt32
