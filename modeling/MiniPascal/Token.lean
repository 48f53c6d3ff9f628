import MiniPascal.Value

/-!
The vocabulary: reserved words, marks, identifiers and number constants.

`Token.Kind` is a token without its payload, which is all that the grammar looks at. Reserved words
and identifiers come from one rule, `Token.ofWord`, applied to a word in lower case.
-/

set_option autoImplicit false
set_option relaxedAutoImplicit false

namespace MiniPascal

inductive Keyword where
  | program
  | var
  | procedure
  | integer
  | real
  | beginBlock
  | endBlock
  deriving DecidableEq, Repr

def Keyword.text : Keyword → String
  | .program => "PROGRAM"
  | .var => "VAR"
  | .procedure => "PROCEDURE"
  | .integer => "INTEGER"
  | .real => "REAL"
  | .beginBlock => "BEGIN"
  | .endBlock => "END"

inductive Mark where
  | plus
  | minus
  | star
  | slash
  | doubleSlash
  | leftParen
  | rightParen
  | colon
  | assign
  | comma
  | semicolon
  | dot
  deriving DecidableEq, Repr

def Mark.text : Mark → String
  | .plus => "+"
  | .minus => "-"
  | .star => "*"
  | .slash => "/"
  | .doubleSlash => "//"
  | .leftParen => "("
  | .rightParen => ")"
  | .colon => ":"
  | .assign => ":="
  | .comma => ","
  | .semicolon => ";"
  | .dot => "."

inductive Token where
  | keyword (word : Keyword)
  | mark (sign : Mark)
  | identifier (name : String)
  | integer (n : Int64)
  | real (r : Float)
  | eof
  deriving DecidableEq, Repr

namespace Token

inductive Kind where
  | keyword (word : Keyword)
  | mark (sign : Mark)
  | identifier
  | integer
  | real
  | eof
  deriving DecidableEq, Repr

def kind : Token → Kind
  | .keyword word => .keyword word
  | .mark sign => .mark sign
  | .identifier _ => .identifier
  | .integer _ => .integer
  | .real _ => .real
  | .eof => .eof

def Kind.text : Kind → String
  | .keyword word => word.text
  | .mark sign => "'" ++ sign.text ++ "'"
  | .identifier => "identifier"
  | .integer => "integer constant"
  | .real => "real constant"
  | .eof => "end of input"

def text : Token → String
  | .identifier name => Kind.identifier.text ++ " '" ++ name ++ "'"
  | .integer n => Kind.integer.text ++ " " ++ (Value.integer n).text
  | .real r => Kind.real.text ++ " " ++ (Value.real r).text
  | token => token.kind.text

/-- Whether two tokens differ at most in their payload. -/
def sameKind (first second : Token) : Bool := first.kind == second.kind

/-- The token of a word in lower case: a reserved word, the operator `div`, or else an
identifier. -/
def ofWord (word : String) : Token :=
  match word with
  | "program" => .keyword .program
  | "var" => .keyword .var
  | "procedure" => .keyword .procedure
  | "integer" => .keyword .integer
  | "real" => .keyword .real
  | "begin" => .keyword .beginBlock
  | "end" => .keyword .endBlock
  | "div" => .mark .doubleSlash
  | name => .identifier name

end Token

end MiniPascal
