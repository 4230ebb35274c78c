import Treewalk.Token.Basic

/-!
# Cutting a text into tokens

A text is the concatenation of segments: tokens, blanks, comments and faults.
Each begins where the one before it ends, and each holds at least one
character, so cutting ends with the text.  Tokens and faults are the items that
a scan yields, in the order of their segments; the end of the input follows.
-/

namespace Treewalk

inductive ScanFault where
  | unexpected (c : Char)
  | openText
  | openComment
  deriving DecidableEq, Repr

def ScanFault.message : ScanFault → String
  | .unexpected c => "Unexpected character '" ++ c.toString ++ "'."
  | .openText => "Unterminated string."
  | .openComment => "Unterminated comment."

inductive Shape where
  | token (kind : Kind)
  | blank
  | comment
  | fault (cause : ScanFault)
  deriving DecidableEq, Repr

/-! ### Character classes -/

def isDigit (c : Char) : Bool := decide ('0' ≤ c ∧ c ≤ '9')

def isLetter (c : Char) : Bool :=
  decide ('a' ≤ c ∧ c ≤ 'z' ∨ 'A' ≤ c ∧ c ≤ 'Z' ∨ c = '_' ∨ c = '$' ∨ c = '€')

def isWordChar (c : Char) : Bool := isLetter c || isDigit c

def isSpace (c : Char) : Bool := decide (c = ' ' ∨ c = '\r' ∨ c = '\t' ∨ c = '\n')

/-! ### Literals -/

/-- The value of a text literal: a backslash stands for itself when doubled,
makes control characters of `n`, `t` and `r`, swallows a line feed, and is kept
before anything else. -/
def unescape : List Char → List Char
  | '\\' :: '\\' :: rest => '\\' :: unescape rest
  | '\\' :: 'n' :: rest => '\n' :: unescape rest
  | '\\' :: 't' :: rest => '\t' :: unescape rest
  | '\\' :: 'r' :: rest => '\r' :: unescape rest
  | '\\' :: '\n' :: rest => unescape rest
  | '\\' :: c :: rest => '\\' :: c :: unescape rest
  | c :: rest => c :: unescape rest
  | [] => []

def digitValue (digits : List Char) : Nat :=
  digits.foldl (fun n c => n * 10 + (c.toNat - '0'.toNat)) 0

/-- The digits behind a point, when `text` begins with a point and a digit. -/
def fraction (text : List Char) : List Char :=
  match text with
  | '.' :: c :: rest => if isDigit c then c :: rest.takeWhile isDigit else []
  | _ => []

def blockLength? : List Char → Option Nat
  | '*' :: '/' :: _ => some 2
  | _ :: rest => (blockLength? rest).map (· + 1)
  | [] => none

/-! ### Segments

`Shape × Nat` says what the text `c :: rest` begins with, and how many
characters of `rest` belong to it. -/

def lineLength (text : List Char) : Nat := (text.takeWhile (· ≠ '\n')).length

def textSegment (quote : Char) (rest : List Char) : Shape × Nat :=
  let stops := fun c => c = quote ∨ (quote = '\'' ∧ c = '\n')
  let body := rest.takeWhile fun c => !decide (stops c)
  match rest.drop body.length with
  | c :: _ =>
      if c = quote then (.token (.text (String.ofList (unescape body))), body.length + 1)
      else (.fault .openText, body.length)
  | [] => (.fault .openText, body.length)

def numberSegment (c : Char) (rest : List Char) : Shape × Nat :=
  let whole := rest.takeWhile isDigit
  let behind := fraction (rest.drop whole.length)
  let value := Number.ofDigits (digitValue (c :: (whole ++ behind))) behind.length
  let point := if behind.isEmpty then 0 else 1
  (.token (.number value), whole.length + point + behind.length)

def wordSegment (c : Char) (rest : List Char) : Shape × Nat :=
  let word := rest.takeWhile isWordChar
  match Keyword.ofSpelling? (String.ofList (c :: word)) with
  | some k => (.token (.keyword k), word.length)
  | none => (.token .identifier, word.length)

def commentSegment? (c : Char) (rest : List Char) : Option (Shape × Nat) :=
  match c, rest with
  | '/', '/' :: _ => some (.comment, lineLength rest)
  | '/', '*' :: body =>
      match blockLength? body with
      | some n => some (.comment, n + 1)
      | none => some (.fault .openComment, rest.length)
  | _, _ => none

def symbolSegment (c : Char) (rest : List Char) : Shape × Nat :=
  match Symbol.atHead? (c :: rest) with
  | some s => (.token (.symbol s), s.chars.length - 1)
  | none => (.fault (.unexpected c), 0)

/-- A `#!` on the first line hides the rest of that line. -/
def segment (line : Nat) (c : Char) (rest : List Char) : Shape × Nat :=
  if isSpace c then (.blank, 0)
  else if c = '"' ∨ c = '\'' then textSegment c rest
  else if isDigit c then numberSegment c rest
  else if isLetter c then wordSegment c rest
  else if c = '#' ∧ rest.head? = some '!' ∧ line = 1 then (.comment, lineLength rest)
  else (commentSegment? c rest).getD (symbolSegment c rest)

structure Segment where
  start : Position
  text : List Char
  shape : Shape
  deriving DecidableEq, Repr

def segments (start : Position) : List Char → List Segment
  | [] => []
  | c :: rest =>
      let cut := segment start.line c rest
      let taken := c :: rest.take cut.2
      ⟨start, taken, cut.1⟩ :: segments (start.after taken) (rest.drop cut.2)
termination_by text => text.length
decreasing_by simp only [List.length_cons, List.length_drop]; omega

theorem flatMap_segments (start : Position) (text : List Char) :
    (segments start text).flatMap Segment.text = text := by
  fun_induction segments start text with
  | case1 => rfl
  | case2 start c rest cut taken ih =>
      rw [List.flatMap_cons, ih]
      simp [taken]

/-! ### Items -/

structure ScanError where
  cause : ScanFault
  position : Position
  deriving DecidableEq, Repr

inductive Item where
  | token (t : Token)
  | fault (e : ScanError)
  deriving DecidableEq, Repr

def Segment.item? (s : Segment) : Option Item :=
  match s.shape with
  | .token kind => some (.token ⟨kind, String.ofList s.text, s.start⟩)
  | .fault cause => some (.fault ⟨cause, s.start⟩)
  | .blank | .comment => none

def Item.token? : Item → Option Token
  | .token t => some t
  | .fault _ => none

def Item.fault? : Item → Option ScanError
  | .token _ => none
  | .fault e => some e

structure Scan where
  items : List Item
  finish : Token
  deriving DecidableEq, Repr

namespace Scan

def ofChars (text : List Char) : Scan :=
  { items := (segments .start text).filterMap Segment.item?
    finish := .finish (Position.start.after text) }

def ofText (source : String) : Scan := ofChars source.toList

def tokens (s : Scan) : List Token := s.items.filterMap Item.token?

def faults (s : Scan) : List ScanError := s.items.filterMap Item.fault?

/-- All items in order, the end of the input last. -/
def stream (s : Scan) : List Item := s.items ++ [.token s.finish]

end Scan

end Treewalk
