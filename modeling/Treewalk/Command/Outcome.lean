import Treewalk.Command.Folder
import Treewalk.Command.Line
import Treewalk.Session.Basic
import Treewalk.Token.Json
import Treewalk.Tree.Outline

/-!
# What a command does

The outcome of a command is an exit code and the texts of two channels.  It
depends on the bytes of the file that the command names and on the bytes that
can be read while it runs.
-/

namespace Treewalk

structure Outcome where
  exitCode : Nat
  out : String
  err : String
  deriving DecidableEq, Repr

inductive HostFault where
  | file (name : String) (fault : FileFault)
  | encoding (name : String) (fault : Text.Utf8Fault)
  | input
  deriving DecidableEq, Repr

namespace HostFault

def context : HostFault → String
  | .file name fault =>
      if fault.opened then "Failed to read file " ++ Text.quote name
      else "Failed to open file " ++ Text.quote name
  | .encoding name _ => "File " ++ Text.quote name ++ " is not valid UTF-8"
  | .input => "Failed to read from stdin"

def cause : HostFault → String
  | .file _ fault => fault.message
  | .encoding _ fault => fault.message
  | .input => "stream did not contain valid UTF-8"

def message (fault : HostFault) : String :=
  "Error: " ++ fault.context ++ "\n\nCaused by:\n    " ++ fault.cause ++ "\n"

end HostFault

namespace Outcome

def noInput : Outcome := ⟨0, "No input filepath was provided. Exiting...\n", ""⟩

def misuse (m : Misuse) : Outcome :=
  ⟨2, "", "error: " ++ m.message ++ "\n\n" ++
    "usage: tokenize [--json] [file] | parse [file] | run [file] | repl\n" ++
    "options: --log, --buffer, --timeout-ms <n>, --max-depth <n>, --loop-errors <abort|report>\n"⟩

def hostFault (out err : String) (fault : HostFault) : Outcome := ⟨1, out, err ++ fault.message⟩

def tokenize (json : Bool) (source : String) : Outcome :=
  let scan := Scan.ofText source
  let tokens := scan.tokens ++ [scan.finish]
  { exitCode := if scan.faults.isEmpty then 0 else 65
    out :=
      if json then (Text.Json.list (tokens.map Token.json)).pretty 0 ++ "\n"
      else Text.unlines (tokens.map Token.listing)
    err := Text.unlines (scan.faults.map fun e => e.problem.message) }

def parse (source : String) : Outcome :=
  match ((Session.start .standard false [] .ticking).read source).1 with
  | .ok program => ⟨0, programOutline program ++ "\n", ""⟩
  | .error problems =>
      ⟨65, "", (problems.foldl Report.problem ((Report.start false).setSource source)).err.text⟩

def run (fuel : Nat) (config : Config) (input : List UInt8) (source : String) : Option Outcome :=
  ((Session.start config true input .ticking).run fuel source).map fun (status, s) =>
    ⟨status.exitCode, s.report.out.text, s.report.err.text⟩

def isFarewell (line : String) : Bool := Text.trim line.toList = "##EXIT".toList

/-- Ask for lines and run each, at most `turns` times.  `out` and `err` have been
written before. -/
def interactFrom (fuel turns : Nat) (s : Session) (out err : String) : Option Outcome :=
  match turns with
  | 0 => some ⟨0, out, err⟩
  | turns + 1 =>
      let out := out ++ "> "
      let (bytes, rest) := Text.takeLine s.machine.input
      match Text.decodeUtf8 bytes with
      | .error _ => some (hostFault out err .input)
      | .ok line =>
          if bytes.isEmpty || isFarewell line then some ⟨0, out, err⟩
          else
            match (s.setInput rest).run fuel line with
            | none => none
            | some (_, s) =>
                let r := s.report
                interactFrom fuel turns (s.mapReport fun r => r.resetError.clear)
                  (out ++ r.out.text) (err ++ r.err.text)

/-- Every turn takes at least one byte, so the turns are enough to reach the end
of the input. -/
def interact (fuel : Nat) (config : Config) (input : List UInt8) : Option Outcome :=
  interactFrom fuel (input.length + 1) (Session.start config true input .ticking) "" ""

end Outcome

namespace Command

def fileName? (c : Command) : Option String :=
  match c.action with
  | .tokenize file _ => file
  | .parse file => file
  | .run file => file
  | .interact => none

def withSource (read : String → Except FileFault (List UInt8)) (file : Option String)
    (body : String → Option Outcome) : Option Outcome :=
  match file with
  | none => some .noInput
  | some name =>
      match read name with
      | .error fault => some (.hostFault "" "" (.file name fault))
      | .ok bytes =>
          match Text.decodeUtf8 bytes with
          | .error fault => some (.hostFault "" "" (.encoding name fault))
          | .ok source => body source

def perform (fuel : Nat) (read : String → Except FileFault (List UInt8)) (input : List UInt8)
    (c : Command) : Option Outcome :=
  match c.action with
  | .tokenize file json => withSource read file fun source => some (.tokenize json source)
  | .parse file => withSource read file fun source => some (.parse source)
  | .run file => withSource read file (Outcome.run fuel c.config input)
  | .interact => Outcome.interact fuel c.config input

end Command

def runCommandLine (fuel : Nat) (words : List String)
    (read : String → Except FileFault (List UInt8)) (input : List UInt8) : Option Outcome :=
  match Command.ofWords words with
  | .ok c => c.perform fuel read input
  | .error m => some (.misuse m)

end Treewalk
