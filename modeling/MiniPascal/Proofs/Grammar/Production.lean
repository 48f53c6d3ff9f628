import MiniPascal.Token

/-!
# The grammar

The productions of the language in extended Backus-Naur form, over kinds of tokens. A phrase is a
right-hand side, `production` gives one to each name of the grammar, and `Phrase.Derives` says which
sequences of kinds a phrase derives. Nothing here knows of trees or of a way to read them.

A production says which sequences there are, not how an operator groups; that is the business of
`Wording`.
-/

set_option autoImplicit false
set_option relaxedAutoImplicit false

namespace MiniPascal

inductive Nonterminal where
  | program
  | block
  | compound
  | statement
  | expression
  | term
  | factor
  | identifiers
  | typeName
  deriving DecidableEq, Repr

inductive Phrase where
  | token (kind : Token.Kind)
  | rule (name : Nonterminal)
  | empty
  | sequence (first second : Phrase)
  | either (first second : Phrase)
  | repeated (item : Phrase)
  deriving DecidableEq, Repr

namespace Phrase

def keyword (word : Keyword) : Phrase := .token (.keyword word)

def mark (sign : Mark) : Phrase := .token (.mark sign)

/-- All of the phrases, one behind the other. -/
def all (phrases : List Phrase) : Phrase := phrases.foldr sequence empty

def optional (phrase : Phrase) : Phrase := either phrase empty

/-- One or more times. -/
def several (item : Phrase) : Phrase := sequence item (repeated item)

/-- One or more items with a mark between any two. -/
def separated (sign : Mark) (item : Phrase) : Phrase :=
  sequence item (repeated (sequence (mark sign) item))

def group : Phrase := all [rule .identifiers, mark .colon, rule .typeName]

def variableSection : Phrase := sequence (keyword .var) (several (sequence group (mark .semicolon)))

def parameters : Phrase :=
  all [mark .leftParen, separated .semicolon group, mark .rightParen]

def procedure : Phrase :=
  all [keyword .procedure, token .identifier, optional parameters, mark .semicolon, rule .block,
    mark .semicolon]

end Phrase

open Phrase in
/-- The right-hand side of each production. -/
def production : Nonterminal → Phrase
  | .program =>
    all [keyword .program, token .identifier, mark .semicolon, rule .block, mark .dot, token .eof]
  | .block => all [repeated variableSection, repeated procedure, rule .compound]
  | .compound =>
    all [keyword .beginBlock, separated .semicolon (rule .statement), keyword .endBlock]
  | .statement =>
    either (rule .compound)
      (either (all [token .identifier, mark .assign, rule .expression]) empty)
  | .expression =>
    sequence (rule .term) (repeated (sequence (either (mark .plus) (mark .minus)) (rule .term)))
  | .term =>
    sequence (rule .factor)
      (repeated (sequence (either (mark .star) (either (mark .doubleSlash) (mark .slash)))
        (rule .factor)))
  | .factor =>
    either (sequence (either (mark .plus) (mark .minus)) (rule .factor))
      (either (token .integer)
        (either (token .real)
          (either (all [mark .leftParen, rule .expression, mark .rightParen])
            (token .identifier))))
  | .identifiers => separated .comma (token .identifier)
  | .typeName => either (keyword .integer) (keyword .real)

/-- The sequences of kinds that a phrase derives. -/
inductive Phrase.Derives : Phrase → List Token.Kind → Prop
  | token (kind : Token.Kind) : Derives (.token kind) [kind]
  | rule {name : Nonterminal} {kinds : List Token.Kind} :
      Derives (production name) kinds → Derives (.rule name) kinds
  | empty : Derives .empty []
  | sequence {first second : Phrase} {before after : List Token.Kind} :
      Derives first before → Derives second after →
        Derives (.sequence first second) (before ++ after)
  | left {first second : Phrase} {kinds : List Token.Kind} :
      Derives first kinds → Derives (.either first second) kinds
  | right {first second : Phrase} {kinds : List Token.Kind} :
      Derives second kinds → Derives (.either first second) kinds
  | done {item : Phrase} : Derives (.repeated item) []
  | again {item : Phrase} {before after : List Token.Kind} :
      Derives item before → Derives (.repeated item) after →
        Derives (.repeated item) (before ++ after)

/-- The sequences of kinds that the grammar takes as a program, the end of the text included. -/
def Sentence (kinds : List Token.Kind) : Prop := (Phrase.rule .program).Derives kinds

/-- Whether the grammar has a sentence that begins like this. -/
def Viable (kinds : List Token.Kind) : Prop := ∃ later, Sentence (kinds ++ later)

end MiniPascal
