import EventScript.Decimal.Shortest
import EventScript.Span
import EventScript.Text.Quoted

/-!
Tokens of event scripts, and how they are shown in messages.
-/
namespace EventScript

inductive Keyword where
  | schema | loop | branch | otherwise | each | among
deriving DecidableEq

def Keyword.all : List Keyword := [.schema, .loop, .branch, .otherwise, .each, .among]

def Keyword.text : Keyword → String
  | schema => "schema"
  | loop => "repeat"
  | branch => "if"
  | otherwise => "else"
  | each => "foreach"
  | among => "in"

def Keyword.ofText? (word : String) : Option Keyword := all.find? (·.text = word)

inductive Mark where
  | openParen | closeParen | openBrace | closeBrace | comma | equals | arrow
  | plus | minus | star | slash
deriving DecidableEq

def Mark.all : List Mark :=
  [.openParen, .closeParen, .openBrace, .closeBrace, .comma, .equals, .arrow, .plus, .minus, .star,
    .slash]

def Mark.text : Mark → String
  | openParen => "("
  | closeParen => ")"
  | openBrace => "\x7b"
  | closeBrace => "\x7d"
  | comma => ","
  | equals => "="
  | arrow => "->"
  | plus => "+"
  | minus => "-"
  | star => "*"
  | slash => "/"

inductive Token where
  | number (value : Number)
  | string (value : String)
  /-- Rich text between back quotes, its markup kept as written. -/
  | text (markup : String)
  | ident (name : String)
  | keyword (word : Keyword)
  | mark (mark : Mark)
  | endOfInput
deriving DecidableEq

namespace Token

def display : Token → String
  | number n => n.display
  | string s => Text.quoted s
  | text markup => "\x60" ++ markup ++ "\x60"
  | ident name => name
  | keyword word => word.text
  | mark m => m.text
  | endOfInput => "<eof>"

/-- How a token is named in "expected this, found that". -/
def describe : Token → String
  | number n => "number \x60" ++ n.display ++ "\x60"
  | string _ => "string literal"
  | text _ => "text literal"
  | ident name => "identifier \x60" ++ name ++ "\x60"
  | endOfInput => "end of input"
  | t => "\x60" ++ t.display ++ "\x60"

end Token

structure SpannedToken where
  token : Token
  span : Span
deriving DecidableEq

end EventScript
