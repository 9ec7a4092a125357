import JackVm.Text.Blank
import JackVm.Text.Decimal
import JackVm.Token

/-!
# Scanning source text

The scanner reads one character at a time. Its mode says what the characters
read last belong to: a word of code, a slash that may still open a comment, a
comment, or a string constant. A text is scanned by folding `Scanner.step` over
its characters and closing with `Scanner.finish`, so scanning a text that is
put together from two pieces is scanning one after the other.

A word never spans lines, so it is reported on the current line. A string
constant is reported on the line of its closing quote, an unclosed comment on
the line where it was opened.
-/

namespace JackVm

/-- Why a piece of text is no lexeme. -/
inductive ScanFault where
  | unrecognized
  | outOfRange
  | openString
  | openComment
deriving DecidableEq, Repr

def ScanFault.reason : ScanFault → String
  | .unrecognized => "unrecognized token"
  | .outOfRange => "integer constant out of range"
  | .openString => "unterminated string constant"
  | .openComment => "unterminated comment"

/-- A piece of text that is no lexeme, and the line it is reported on. -/
structure ScanError where
  fault : ScanFault
  text : String
  line : Nat
deriving DecidableEq, Repr

def ScanError.message (e : ScanError) : String :=
  "Lex Exception: " ++ e.fault.reason ++ " `" ++ e.text ++ "`\nLine number: " ++ e.line.repr

/-! ## Words -/

/-- Whether `c` may open an identifier. -/
def opensIdentifier (c : Char) : Bool := c.isAlpha || c == '_'

/-- Whether the characters spell an identifier. -/
def isIdentifier : List Char → Bool
  | [] => false
  | c :: cs => opensIdentifier c && cs.all fun d => opensIdentifier d || d.isDigit

/-- The characters between two enclosing quotes. -/
def unquote? : List Char → Option (List Char)
  | '"' :: cs => if cs.getLast? = some '"' then some cs.dropLast else none
  | _ => none

/-- Whether the characters are exactly one symbol. -/
def isOneSymbol : List Char → Bool
  | [c] => symbols.contains c
  | _ => false

/-- The lexeme a whole piece of text is. -/
def Lexeme.ofText (text : String) : Except ScanFault Lexeme :=
  let cs := text.toList
  if keywords.contains text then .ok ⟨.keyword, text⟩
  else if isOneSymbol cs then .ok ⟨.symbol, text⟩
  else match unquote? cs with
  | some inner => .ok ⟨.stringConstant, String.ofList inner⟩
  | none =>
      if Text.isDigits cs then
        if Text.digitsValue cs ≤ maxInteger then .ok ⟨.integerConstant, text⟩
        else .error .outOfRange
      else if isIdentifier cs then .ok ⟨.identifier, text⟩
      else .error .unrecognized

/-- The token a whole piece of text is when it stands on `line`. -/
def Token.ofText (text : String) (line : Nat) : Except ScanError Token :=
  match Lexeme.ofText text with
  | .ok l => .ok ⟨l, line⟩
  | .error fault => .error ⟨fault, text, line⟩

/-! ## The scanner -/

/-- What the characters read last belong to. -/
inductive Scanner.Mode where
  /-- Code, with the word read so far; the empty word between lexemes. -/
  | code (word : String)
  /-- Just after a slash that is a symbol unless a comment opens. -/
  | slash
  | lineComment
  /-- A comment opened on line `opened`; `star` just after a `*`. -/
  | comment (opened : Nat) (star : Bool)
  /-- A string constant, with its text so far. -/
  | string (text : String)
deriving DecidableEq, Repr

/-- The current line, the mode, and the tokens read so far. -/
structure Scanner where
  line : Nat := 1
  mode : Scanner.Mode := .code ""
  tokens : Array Token := #[]
deriving DecidableEq, Repr

namespace Scanner

/-- Adds a lexeme on the current line. -/
def push (s : Scanner) (l : Lexeme) : Scanner :=
  { s with tokens := s.tokens.push ⟨l, s.line⟩ }

/-- Closes the word read so far. -/
def closeWord (s : Scanner) (word : String) : Except ScanError Scanner :=
  if word.isEmpty then .ok s
  else match Token.ofText word s.line with
  | .ok t => .ok { s with tokens := s.tokens.push t }
  | .error e => .error e

/-- Counts a line when `c` ends one. -/
def countLine (s : Scanner) (c : Char) : Scanner :=
  if c = '\n' then { s with line := s.line + 1 } else s

/-- Goes on in another mode. -/
def enter (s : Scanner) (mode : Mode) : Scanner := { s with mode := mode }

/-- Reads a character of code after the word read so far. -/
def readCode (s : Scanner) (word : String) (c : Char) : Except ScanError Scanner :=
  if c = '"' then (·.enter (.string "")) <$> s.closeWord word
  else if c = '/' then (·.enter .slash) <$> s.closeWord word
  else if Text.isBlank c then
    (fun s => (s.countLine c).enter (.code "")) <$> s.closeWord word
  else if symbols.contains c then
    (fun s => (s.push ⟨.symbol, c.toString⟩).enter (.code "")) <$> s.closeWord word
  else .ok (s.enter (.code (word.push c)))

/-- Reads one character. -/
def step (s : Scanner) (c : Char) : Except ScanError Scanner :=
  match s.mode with
  | .code word => s.readCode word c
  | .slash =>
      if c = '/' then .ok (s.enter .lineComment)
      else if c = '*' then .ok (s.enter (.comment s.line false))
      else (s.push ⟨.symbol, "/"⟩).readCode "" c
  | .lineComment =>
      .ok (if c = '\n' then (s.countLine c).enter (.code "") else s)
  | .comment opened star =>
      .ok (if star && c = '/' then s.enter (.code "")
        else (s.countLine c).enter (.comment opened (c = '*')))
  | .string text =>
      .ok (if c = '"' then (s.push ⟨.stringConstant, text⟩).enter (.code "")
        else if c = '\n' then s.countLine c
        else if c = '\r' then s
        else s.enter (.string (text.push c)))

/-- The tokens read when the text ends here. -/
def finish (s : Scanner) : Except ScanError (List Token) :=
  match s.mode with
  | .code word => (·.tokens.toList) <$> s.closeWord word
  | .slash => .ok (s.push ⟨.symbol, "/"⟩).tokens.toList
  | .lineComment => .ok s.tokens.toList
  | .comment opened _ => .error ⟨.openComment, "/*", opened⟩
  | .string text => .error ⟨.openString, "\"" ++ text, s.line⟩

end Scanner

/-- The tokens of a source text. -/
def scan (source : String) : Except ScanError (List Token) := do
  (← source.toList.foldlM Scanner.step {}).finish

end JackVm
