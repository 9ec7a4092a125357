/-!
# Tokens

A lexeme is a piece of source text together with what it is. A token is a
lexeme with the line it stands on. The grammar looks at lexemes only: lines
matter solely for reporting, so nothing a program compiles to can depend on
layout.
-/

namespace JackVm

/-- What a lexeme is. -/
inductive LexemeKind where
  | keyword
  | symbol
  | identifier
  | integerConstant
  | stringConstant
deriving DecidableEq, Repr

/-- The name of a kind in token listings. -/
def LexemeKind.name : LexemeKind → String
  | .keyword => "keyword"
  | .symbol => "symbol"
  | .identifier => "identifier"
  | .integerConstant => "integerConstant"
  | .stringConstant => "stringConstant"

/-- A classified piece of text. A string constant's text has no quotes, an
integer constant's text is as written. -/
structure Lexeme where
  kind : LexemeKind
  text : String
deriving DecidableEq, Repr

/-- A lexeme and the line it is reported on. -/
structure Token extends Lexeme where
  line : Nat
deriving DecidableEq, Repr

/-- The reserved words. -/
def keywords : List String :=
  ["class", "constructor", "function", "method", "field", "static", "var",
   "int", "char", "boolean", "void", "true", "false", "null", "this",
   "let", "do", "if", "else", "while", "return"]

/-- The characters that are lexemes by themselves. -/
def symbols : List Char :=
  ['{', '}', '(', ')', '[', ']', '.', ',', ';', '+', '-', '*', '/', '&', '|',
   '<', '>', '=', '~']

/-- The largest integer constant the target machine can push. -/
def maxInteger : Nat := 32767

namespace Lexeme

/-- Whether the lexeme is the reserved word `word`. -/
def isKeyword (l : Lexeme) (word : String) : Bool :=
  l.kind == .keyword && l.text == word

/-- The character of a symbol; its text is read no further. -/
def mark? (l : Lexeme) : Option Char :=
  match l.kind with
  | .symbol => l.text.toList.head?
  | _ => none

/-- Whether the lexeme is the symbol `c`. -/
def isSymbol (l : Lexeme) (c : Char) : Bool := l.mark? == some c

/-- The name an identifier spells. -/
def name? (l : Lexeme) : Option String :=
  match l.kind with
  | .identifier => some l.text
  | _ => none

/-- The type a lexeme spells. -/
def type? (l : Lexeme) : Option String :=
  if l.kind = .identifier ∨ l.isKeyword "int" ∨ l.isKeyword "char" ∨ l.isKeyword "boolean" then
    some l.text
  else none

end Lexeme

end JackVm
