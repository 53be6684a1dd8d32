/-
  ScopeScript.Token

  The tokens of the language: reserved words, literals, names and symbols. Each
  word and symbol has one spelling, which is its source text and how messages
  show it, and one label, which names it in token listings.
-/
import ScopeScript.Span
import ScopeScript.Decimal.Layout
import ScopeScript.Text.Quoted

namespace ScopeScript

/-! ## Reserved words -/

/-- The reserved words. None of them begins a statement. -/
inductive Keyword where
  | ifWord | elseWord | whileWord | functionWord | returnWord
  | nullWord | breakWord | continueWord | trueWord | falseWord
deriving DecidableEq

namespace Keyword

def all : List Keyword :=
  [ifWord, elseWord, whileWord, functionWord, returnWord,
   nullWord, breakWord, continueWord, trueWord, falseWord]

def spelling : Keyword → String
  | ifWord => "if"
  | elseWord => "else"
  | whileWord => "while"
  | functionWord => "function"
  | returnWord => "return"
  | nullWord => "null"
  | breakWord => "break"
  | continueWord => "continue"
  | trueWord => "true"
  | falseWord => "false"

def label : Keyword → String
  | ifWord => "If"
  | elseWord => "Else"
  | whileWord => "While"
  | functionWord => "Function"
  | returnWord => "Return"
  | nullWord => "Null"
  | breakWord => "Break"
  | continueWord => "Continue"
  | trueWord => "True"
  | falseWord => "False"

/-- The reserved word with a given spelling. -/
def ofSpelling? (word : String) : Option Keyword :=
  all.find? (·.spelling = word)

theorem mem_all (k : Keyword) : k ∈ all := by
  cases k <;> decide

end Keyword

/-! ## Symbols -/

/-- Operators and punctuation. -/
inductive Symbol where
  | plus | minus | star | slash | percent | power
  | increment | decrement
  | assign | plusAssign | minusAssign | starAssign | slashAssign | percentAssign | powerAssign
  | equal | notEqual | less | greater | lessEqual | greaterEqual
  | leftParen | rightParen | leftBracket | rightBracket | leftBrace | rightBrace
  | colon | semicolon | comma | dot | atSign
deriving DecidableEq

namespace Symbol

def spelling : Symbol → String
  | plus => "+"
  | minus => "-"
  | star => "*"
  | slash => "/"
  | percent => "%"
  | power => "**"
  | increment => "++"
  | decrement => "--"
  | assign => "="
  | plusAssign => "+="
  | minusAssign => "-="
  | starAssign => "*="
  | slashAssign => "/="
  | percentAssign => "%="
  | powerAssign => "**="
  | equal => "=="
  | notEqual => "!="
  | less => "<"
  | greater => ">"
  | lessEqual => "<="
  | greaterEqual => ">="
  | leftParen => "("
  | rightParen => ")"
  | leftBracket => "["
  | rightBracket => "]"
  | leftBrace => "\x7b"
  | rightBrace => "\x7d"
  | colon => ":"
  | semicolon => ";"
  | comma => ","
  | dot => "."
  | atSign => "@"

def label : Symbol → String
  | plus => "Plus"
  | minus => "Minus"
  | star => "Star"
  | slash => "Slash"
  | percent => "Percent"
  | power => "StarStar"
  | increment => "PlusPlus"
  | decrement => "MinusMinus"
  | assign => "Eq"
  | plusAssign => "PlusEq"
  | minusAssign => "MinusEq"
  | starAssign => "StarEq"
  | slashAssign => "SlashEq"
  | percentAssign => "PercentEq"
  | powerAssign => "StarStarEq"
  | equal => "EqEq"
  | notEqual => "NotEq"
  | less => "Lt"
  | greater => "Gt"
  | lessEqual => "LtEq"
  | greaterEqual => "GtEq"
  | leftParen => "LParen"
  | rightParen => "RParen"
  | leftBracket => "LBracket"
  | rightBracket => "RBracket"
  | leftBrace => "LBrace"
  | rightBrace => "RBrace"
  | colon => "Colon"
  | semicolon => "Semi"
  | comma => "Comma"
  | dot => "Dot"
  | atSign => "At"

/-- All symbols, those with a longer spelling first. -/
def longestFirst : List Symbol :=
  [powerAssign,
   power, increment, decrement, plusAssign, minusAssign, starAssign, slashAssign, percentAssign,
   equal, notEqual, lessEqual, greaterEqual,
   plus, minus, star, slash, percent, assign, less, greater,
   leftParen, rightParen, leftBracket, rightBracket, leftBrace, rightBrace,
   colon, semicolon, comma, dot, atSign]

theorem mem_longestFirst (s : Symbol) : s ∈ longestFirst := by
  cases s <;> decide

/-- The table is ordered by falling length, so the first spelling that matches
    a text is the longest that does. -/
theorem longestFirst_pairwise :
    longestFirst.Pairwise (fun a b => b.spelling.length ≤ a.spelling.length) := by
  decide

end Symbol

/-! ## Tokens -/

inductive Token where
  | keyword (word : Keyword)
  | double (value : Double)
  | int (value : Int32)
  | string (value : String)
  | name (value : String)
  | symbol (sign : Symbol)
deriving DecidableEq

namespace Token

/-- How a message shows the token. A string is quoted whatever its quotes were
    in the source. -/
def text : Token → String
  | keyword k => k.spelling
  | double d => Decimal.write Decimal.shown d
  | int n => intText n.toInt
  | string s => Text.quoted s
  | name s => s
  | symbol s => s.spelling

/-- How a token listing shows the token: its label, with the value it carries. -/
def listing : Token → String
  | keyword k => k.label
  | double d => "DoubleLit(" ++ Decimal.write Decimal.listed d ++ ")"
  | int n => "IntLit(" ++ intText n.toInt ++ ")"
  | string s => "StringLit(" ++ Text.quoted s ++ ")"
  | name s => "Ident(" ++ Text.quoted s ++ ")"
  | symbol s => s.label

def isReserved : Token → Bool
  | keyword _ => true
  | _ => false

end Token

/-- A token and the bytes it was read from. -/
structure Lexeme where
  token : Token
  span : Span
deriving DecidableEq

end ScopeScript
