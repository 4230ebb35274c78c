import Treewalk.Machine.Basic

/-!
# Command lines

A command line is a list of words.  Options may stand before or behind the name
of the command; where one is given in both places, the one behind the name
counts.  Within one place no option may be repeated.  `--` ends the options.
-/

namespace Treewalk

inductive Misuse where
  | noCommand
  | unknownCommand (name : String)
  | unknownOption (word : String)
  | misplacedOption (name : String)
  | repeatedOption (name : String)
  | missingValue (name : String)
  | unexpectedValue (name : String)
  | badValue (name : String) (value : String)
  | emptyFileName
  | unexpectedWord (word : String)
  deriving DecidableEq, Repr

def Misuse.message : Misuse → String
  | .noCommand => "a command is required"
  | .unknownCommand name => "unknown command '" ++ name ++ "'"
  | .unknownOption word => "unknown option '" ++ word ++ "'"
  | .misplacedOption name => "'--" ++ name ++ "' does not belong here"
  | .repeatedOption name => "'--" ++ name ++ "' is given twice"
  | .missingValue name => "'--" ++ name ++ "' requires a value"
  | .unexpectedValue name => "'--" ++ name ++ "' takes no value"
  | .badValue name value => "'" ++ value ++ "' is no value for '--" ++ name ++ "'"
  | .emptyFileName => "a file name is not empty"
  | .unexpectedWord word => "unexpected word '" ++ word ++ "'"

/-! ### Options -/

inductive Choice where
  | log
  | buffer
  | json
  | timeout (milliseconds : Nat)
  | loopErrors (policy : LoopPolicy)
  | maxDepth (calls : Nat)
  deriving DecidableEq, Repr

namespace Choice

def name : Choice → String
  | .log => "log"
  | .buffer => "buffer"
  | .json => "json"
  | .timeout _ => "timeout-ms"
  | .loopErrors _ => "loop-errors"
  | .maxDepth _ => "max-depth"

def timeout? : Choice → Option Nat
  | .timeout milliseconds => some milliseconds
  | _ => none

def loopErrors? : Choice → Option LoopPolicy
  | .loopErrors policy => some policy
  | _ => none

def maxDepth? : Choice → Option Nat
  | .maxDepth calls => some calls
  | _ => none

def flag? : String → Option Choice
  | "log" => some .log
  | "buffer" => some .buffer
  | "json" => some .json
  | _ => none

def number? (text : String) : Option Nat :=
  let digits : List Char := match text.toList with
    | '+' :: digits => digits
    | digits => digits
  let value := digits.foldl (fun n c => 10 * n + (c.toNat - '0'.toNat)) 0
  if digits ≠ [] ∧ digits.all Char.isDigit ∧ value < 18446744073709551616 then some value else none

def policy? : String → Option LoopPolicy
  | "abort" => some .abort
  | "report" => some .report
  | _ => none

def reader? : String → Option (String → Option Choice)
  | "timeout-ms" => some fun value => (number? value).map .timeout
  | "loop-errors" => some fun value => (policy? value).map .loopErrors
  | "max-depth" => some fun value => (number? value).map .maxDepth
  | _ => none

end Choice

/-! ### Words -/

inductive Word where
  | plain
  | ending
  | short
  | long (name : String) (value : Option String)
  deriving DecidableEq, Repr

def Word.ofText (text : String) : Word :=
  match text.toList with
  | ['-', '-'] => .ending
  | '-' :: '-' :: option =>
      let name := String.ofList (option.takeWhile (· ≠ '='))
      match option.dropWhile (· ≠ '=') with
      | [] => .long name none
      | _ :: value => .long name (some (String.ofList value))
  | '-' :: _ :: _ => .short
  | _ => .plain

inductive Argument where
  | choice (c : Choice)
  | operand (text : String)
  | ending
  deriving DecidableEq, Repr

namespace Argument

def isChoice : Argument → Bool
  | .choice _ => true
  | _ => false

def choice? : Argument → Option Choice
  | .choice c => some c
  | _ => none

def operand? : Argument → Option String
  | .operand text => some text
  | _ => none

def valued (name value : String) (read : String → Option Choice) : Except Misuse Argument :=
  match read value with
  | some c => .ok (.choice c)
  | none => .error (.badValue name value)

/-- An option that takes a value uses up the next word, if that is a plain one. -/
def ofWords : List String → Except Misuse (List Argument)
  | [] => .ok []
  | word :: words =>
      match Word.ofText word with
      | .plain => do return .operand word :: (← ofWords words)
      | .ending => .ok (.ending :: words.map .operand)
      | .short => .error (.unknownOption word)
      | .long name value =>
          match Choice.flag? name, Choice.reader? name, value, words with
          | some c, _, none, words => do return .choice c :: (← ofWords words)
          | some _, _, some _, _ => .error (.unexpectedValue name)
          | none, some read, some value, words => do
              return (← valued name value read) :: (← ofWords words)
          | none, some read, none, value :: words =>
              if Word.ofText value = .plain then do
                return (← valued name value read) :: (← ofWords words)
              else .error (.missingValue name)
          | none, some _, none, [] => .error (.missingValue name)
          | none, none, _, _ => .error (.unknownOption word)

end Argument

/-! ### Commands -/

inductive Action where
  | tokenize (file : Option String) (json : Bool)
  | parse (file : Option String)
  | run (file : Option String)
  | interact
  deriving DecidableEq, Repr

structure Command where
  action : Action
  config : Config
  deriving DecidableEq, Repr

namespace Command

def repeated? : List String → Option String
  | [] => none
  | name :: names => if name ∈ names then some name else repeated? names

def checkDistinct (choices : List Choice) : Except Misuse Unit :=
  match repeated? (choices.map Choice.name) with
  | some name => .error (.repeatedOption name)
  | none => .ok ()

def file? : List String → Except Misuse (Option String)
  | [] => .ok none
  | [name] => if name = "" then .error .emptyFileName else .ok (some name)
  | _ :: word :: _ => .error (.unexpectedWord word)

def plainAction (json : Bool) (action : Action) : Except Misuse Action :=
  if json then .error (.misplacedOption Choice.json.name) else .ok action

def readAction (name : String) (json : Bool) (operands : List String) : Except Misuse Action :=
  match name with
  | "tokenize" => do return .tokenize (← file? operands) json
  | "parse" => do plainAction json (.parse (← file? operands))
  | "run" => do plainAction json (.run (← file? operands))
  | "repl" =>
      match operands with
      | [] => plainAction json .interact
      | word :: _ => .error (.unexpectedWord word)
  | name => .error (.unknownCommand name)

def configure (choices : List Choice) : Config :=
  { loopPolicy := (choices.findSome? Choice.loopErrors?).getD .abort
    maxDepth := (choices.findSome? Choice.maxDepth?).getD 256
    budget := (choices.findSome? Choice.timeout?).map (· * 1000)
    buffered := choices.contains .buffer }

def ofWords (words : List String) : Except Misuse Command := do
  let arguments ← Argument.ofWords words
  let before := (arguments.takeWhile Argument.isChoice).filterMap Argument.choice?
  match arguments.dropWhile Argument.isChoice with
  | .operand name :: others =>
      let behind := others.filterMap Argument.choice?
      checkDistinct before
      checkDistinct behind
      if before.contains .json then throw (.misplacedOption Choice.json.name)
      let action ← readAction name (behind.contains .json) (others.filterMap Argument.operand?)
      return ⟨action, configure (behind ++ before)⟩
  | _ => throw .noCommand

end Command

end Treewalk
