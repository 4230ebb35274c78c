import Treewalk.Problem
import Treewalk.Text.Lines

/-!
# Reports

A report has a channel for the output of programs and one for problems.  Each
either keeps whole lines until they are taken, or writes text through at once.
Problems with a program text are followed by an excerpt of it.
-/

namespace Treewalk

structure Sink where
  buffered : Bool
  lines : Array String
  written : String
  deriving DecidableEq, Repr

namespace Sink

def empty (buffered : Bool) : Sink := ⟨buffered, #[], ""⟩

def writeLine (s : Sink) (line : String) : Sink :=
  if s.buffered then { s with lines := s.lines.push line }
  else { s with written := s.written ++ line ++ "\n" }

/-- Text that no line feed follows; a sink that keeps lines keeps it as one. -/
def writePart (s : Sink) (text : String) : Sink :=
  if s.buffered then { s with lines := s.lines.push text }
  else { s with written := s.written ++ text }

def drain (s : Sink) : Sink := { s with lines := #[] }

/-- All that was written: text through, and then the kept lines. -/
def text (s : Sink) : String := s.written ++ Text.unlines s.lines.toList

def clear (s : Sink) : Sink := .empty s.buffered

end Sink

structure Report where
  out : Sink
  err : Sink
  hadError : Bool
  hadFailure : Bool
  lastFailure : Option String
  source : String
  deriving DecidableEq, Repr

namespace Report

def start (buffered : Bool) : Report :=
  ⟨.empty buffered, .empty buffered, false, false, none, ""⟩

def print (r : Report) (line : String) : Report := { r with out := r.out.writeLine line }

def prompt (r : Report) (text : String) : Report := { r with out := r.out.writePart text }

def complain (r : Report) (line : String) : Report := { r with err := r.err.writeLine line }

def resetError (r : Report) : Report := { r with hadError := false }

def clear (r : Report) : Report := { r with out := r.out.clear, err := r.err.clear }

def setSource (r : Report) (source : String) : Report := { r with source := source }

/-! ### Excerpts -/

def excerptRow (gutter : Nat) (number text : String) : String :=
  Text.alignRight gutter number ++ " | " ++ text

/-- The line with the problem, the lines before and after it, and a mark under
`width` characters from `column` on.  A line that the source does not have gives
no excerpt. -/
def excerpt (source : String) (line column width : Nat) : List String :=
  let source := source.toList
  match Text.line? source line with
  | none => []
  | some current =>
      let gutter := (toString (line + 1)).length
      let row := fun n (text : List Char) => excerptRow gutter (toString n) (String.ofList text)
      let mark := Text.spaces (column - 1) ++ String.ofList (List.replicate (max width 1) '^')
      ((Text.line? source (line - 1)).map (row (line - 1))).toList ++
        [row line current, excerptRow gutter "" mark] ++
        ((Text.line? source (line + 1)).map (row (line + 1))).toList

def syntaxError (r : Report) (position : Position) (width : Nat) (location message : String) :
    Report :=
  let rows := headline position location message ::
    excerpt r.source position.line position.column width
  { rows.foldl complain r with hadError := true }

def failure (r : Report) (f : Failure) : Report :=
  { r.complain f.message with hadFailure := true, lastFailure := some f.message }

def problem (r : Report) : Problem → Report
  | .scan message position => r.syntaxError position 1 "" message
  | .parse message token => r.syntaxError token.position token.width token.location message
  | .resolve message token => r.syntaxError token.position token.width token.location message
  | .runtime f => r.failure f
  | .host message => r.syntaxError ⟨0, 0⟩ 1 "" message
  | .encoding fault => r.syntaxError ⟨0, 0⟩ 1 "" fault.message

end Report

end Treewalk
