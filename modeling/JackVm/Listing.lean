import JackVm.Failure

/-!
# Token listings

A listing is an XML document with one element for each token, named after its
kind. Layout: the root's children are indented by two blanks, each on a line of
its own, and the document ends without a newline. In texts only the characters
that could be taken for markup are escaped.
-/

namespace JackVm.Listing

/-- A character of a text, as written in the document. -/
def escape : Char → List Char
  | '<' => "&lt;".toList
  | '>' => "&gt;".toList
  | '&' => "&amp;".toList
  | c => [c]

/-- The characters of an opening and of a closing tag. -/
def openTag (name : String) : List Char := '<' :: name.toList ++ ['>']

def closeTag (name : String) : List Char := '<' :: '/' :: name.toList ++ ['>']

/-- The line of one token. -/
def element (l : Lexeme) : List Char :=
  "\n  ".toList ++ openTag l.kind.name ++ l.text.toList.flatMap escape ++ closeTag l.kind.name

def header : List Char := "<?xml version=\"1.0\" encoding=\"UTF-8\"?>\n".toList

/-- The document that lists the lexemes in order. -/
def render (ls : List Lexeme) : List Char :=
  header ++
    if ls.isEmpty then "<tokens />".toList
    else openTag "tokens" ++ ls.flatMap element ++ '\n' :: closeTag "tokens"

/-- The text of the document. -/
def text (ls : List Lexeme) : String := String.ofList (render ls)

/-- Writes the document to an outlet that takes all of it or fails. -/
def write (outlet : Outlet) (ls : List Lexeme) : Except Failure String :=
  let document := text ls
  if outlet.admits document.utf8ByteSize then
    match outlet.flush with
    | .ok () => .ok document
    | .error fault => .error (.io fault.message)
  else .error (.xml OutletFault.full.message)

end JackVm.Listing
