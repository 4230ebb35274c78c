/-!
# Reading UTF-8

Bytes are read into characters one sequence at a time.  Where a sequence is
broken, the fault says where it begins and how many of its bytes could still
have begun a character; a sequence that the end of the bytes cuts short is a
fault of its own.
-/

namespace Treewalk.Text

inductive Utf8Fault where
  | invalid (index : Nat) (length : Nat)
  | incomplete (index : Nat)
  deriving DecidableEq, Repr

def Utf8Fault.message : Utf8Fault → String
  | .invalid index length =>
      "invalid utf-8 sequence of " ++ toString length ++ " bytes from index " ++ toString index
  | .incomplete index => "incomplete utf-8 byte sequence from index " ++ toString index

/-- The outcome of reading one sequence: a character and the number of bytes
that follow the leading one, a broken sequence, or one cut short. -/
inductive Utf8Step where
  | char (c : Char) (following : Nat)
  | broken (length : Nat)
  | cut
  deriving DecidableEq, Repr

def leadByte (n : Nat) : Option (Nat × Nat) :=
  if n < 0x80 then some (0, n)
  else if n < 0xc2 then none
  else if n < 0xe0 then some (1, n - 0xc0)
  else if n < 0xf0 then some (2, n - 0xe0)
  else if n < 0xf5 then some (3, n - 0xf0)
  else none

/-- The range of the byte after the leading one: it excludes overlong
sequences, surrogates and numbers past the last character. -/
def secondRange (lead : Nat) : Nat × Nat :=
  if lead = 0xe0 then (0xa0, 0xbf)
  else if lead = 0xed then (0x80, 0x9f)
  else if lead = 0xf0 then (0x90, 0xbf)
  else if lead = 0xf4 then (0x80, 0x8f)
  else (0x80, 0xbf)

def readTail (missing seen bits : Nat) (range : Nat × Nat) (bytes : List UInt8) : Utf8Step :=
  match missing, bytes with
  | 0, _ => .char (Char.ofNat bits) (seen - 1)
  | _ + 1, [] => .cut
  | missing + 1, b :: bytes =>
      if range.1 ≤ b.toNat ∧ b.toNat ≤ range.2 then
        readTail missing (seen + 1) (bits * 64 + (b.toNat - 0x80)) (0x80, 0xbf) bytes
      else
        .broken seen

def readSequence (lead : UInt8) (bytes : List UInt8) : Utf8Step :=
  match leadByte lead.toNat with
  | none => .broken 1
  | some (missing, bits) => readTail missing 1 bits (secondRange lead.toNat) bytes

/-- Read `bytes`, the first of which has the given index, after the characters
of `done`, which are kept in reverse. -/
def readUtf8 (index : Nat) (done : List Char) : List UInt8 → Except Utf8Fault (List Char)
  | [] => .ok done.reverse
  | lead :: bytes =>
      match readSequence lead bytes with
      | .char c following =>
          readUtf8 (index + 1 + following) (c :: done) (bytes.drop following)
      | .broken length => .error (.invalid index length)
      | .cut => .error (.incomplete index)
termination_by bytes => bytes.length
decreasing_by simp only [List.length_cons, List.length_drop]; omega

def decodeUtf8 (bytes : List UInt8) : Except Utf8Fault String :=
  (readUtf8 0 [] bytes).map String.ofList

end Treewalk.Text
