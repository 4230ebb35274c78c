/-!
# Punctuation and operators

Each symbol has one spelling.  `Symbol.all` lists the longer spellings first, so
the first one that a text begins with is the longest.
-/

namespace Treewalk

inductive Symbol where
  | leftParen | rightParen | leftBracket | rightBracket | leftBrace | rightBrace
  | comma | dot | semicolon | question | colon | arrow
  | minus | plus | slash | star | starStar | percent
  | minusMinus | plusPlus | plusEqual | minusEqual | starEqual | slashEqual
  | starStarEqual | ampersand | pipe | caret | shiftLeft | shiftRight
  | bang | bangEqual | equal | equalEqual | greater | greaterEqual
  | less | lessEqual | andAnd | orOr | caretCaret
  deriving DecidableEq, Repr

namespace Symbol

def chars : Symbol → List Char
  | .leftParen => ['(']
  | .rightParen => [')']
  | .leftBracket => ['[']
  | .rightBracket => [']']
  | .leftBrace => ['{']
  | .rightBrace => ['}']
  | .comma => [',']
  | .dot => ['.']
  | .semicolon => [';']
  | .question => ['?']
  | .colon => [':']
  | .arrow => ['-', '>']
  | .minus => ['-']
  | .plus => ['+']
  | .slash => ['/']
  | .star => ['*']
  | .starStar => ['*', '*']
  | .percent => ['%']
  | .minusMinus => ['-', '-']
  | .plusPlus => ['+', '+']
  | .plusEqual => ['+', '=']
  | .minusEqual => ['-', '=']
  | .starEqual => ['*', '=']
  | .slashEqual => ['/', '=']
  | .starStarEqual => ['*', '*', '=']
  | .ampersand => ['&']
  | .pipe => ['|']
  | .caret => ['^']
  | .shiftLeft => ['<', '<']
  | .shiftRight => ['>', '>']
  | .bang => ['!']
  | .bangEqual => ['!', '=']
  | .equal => ['=']
  | .equalEqual => ['=', '=']
  | .greater => ['>']
  | .greaterEqual => ['>', '=']
  | .less => ['<']
  | .lessEqual => ['<', '=']
  | .andAnd => ['&', '&']
  | .orOr => ['|', '|']
  | .caretCaret => ['^', '^']

def spelling (s : Symbol) : String := String.ofList s.chars

def label : Symbol → String
  | .leftParen => "LEFT_PAREN"
  | .rightParen => "RIGHT_PAREN"
  | .leftBracket => "LEFT_BRACK"
  | .rightBracket => "RIGHT_BRACK"
  | .leftBrace => "LEFT_BRACE"
  | .rightBrace => "RIGHT_BRACE"
  | .comma => "COMMA"
  | .dot => "DOT"
  | .semicolon => "SEMICOLON"
  | .question => "QUESTION"
  | .colon => "COLON"
  | .arrow => "ARROW"
  | .minus => "MINUS"
  | .plus => "PLUS"
  | .slash => "SLASH"
  | .star => "STAR"
  | .starStar => "STAR_STAR"
  | .percent => "PERCENT"
  | .minusMinus => "MINUS_MINUS"
  | .plusPlus => "PLUS_PLUS"
  | .plusEqual => "PLUS_EQUAL"
  | .minusEqual => "MINUS_EQUAL"
  | .starEqual => "STAR_EQUAL"
  | .slashEqual => "SLASH_EQUAL"
  | .starStarEqual => "STAR_STAR_EQUAL"
  | .ampersand => "BW_AND"
  | .pipe => "BW_OR"
  | .caret => "BW_XOR"
  | .shiftLeft => "BW_LSHIFT"
  | .shiftRight => "BW_RSHIFT"
  | .bang => "BANG"
  | .bangEqual => "BANG_EQUAL"
  | .equal => "EQUAL"
  | .equalEqual => "EQUAL_EQUAL"
  | .greater => "GREATER"
  | .greaterEqual => "GREATER_EQUAL"
  | .less => "LESS"
  | .lessEqual => "LESS_EQUAL"
  | .andAnd => "AND"
  | .orOr => "OR"
  | .caretCaret => "XOR"

def all : List Symbol :=
  [.starStarEqual, .arrow, .starStar, .minusMinus, .plusPlus, .plusEqual, .minusEqual,
   .starEqual, .slashEqual, .shiftLeft, .shiftRight, .bangEqual, .equalEqual,
   .greaterEqual, .lessEqual, .andAnd, .orOr, .caretCaret, .leftParen, .rightParen,
   .leftBracket, .rightBracket, .leftBrace, .rightBrace, .comma, .dot, .semicolon,
   .question, .colon, .minus, .plus, .slash, .star, .percent, .ampersand, .pipe, .caret,
   .bang, .equal, .greater, .less]

theorem mem_all (s : Symbol) : s ∈ all := by
  cases s <;> decide

theorem all_pairwise_length :
    all.Pairwise fun a b => b.chars.length ≤ a.chars.length := by
  decide

theorem find?_chars (s : Symbol) : all.find? (fun t => t.chars = s.chars) = some s := by
  cases s <;> rfl

theorem chars_injective {s t : Symbol} (h : s.chars = t.chars) : s = t := by
  have found := find?_chars s
  rw [h, find?_chars t] at found
  exact (Option.some.inj found).symm

/-- The longest symbol at the head of `text`. -/
def atHead? (text : List Char) : Option Symbol :=
  all.find? fun s => s.chars.isPrefixOf text

end Symbol

end Treewalk
