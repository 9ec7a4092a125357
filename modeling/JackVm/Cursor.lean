import JackVm.Token

/-!
# A cursor on a token list

The cursor starts before the first token and moves one token at a time. A tape is a
cursor that need not look for its token at an index.
-/

namespace JackVm

/-- A move the cursor cannot make. -/
inductive CursorFault where
  | atEnd
  | atStart
deriving DecidableEq, Repr

def CursorFault.message : CursorFault → String
  | .atEnd => "No more tokens, but advance() is called."
  | .atStart => "No previous tokens available for lookup, but retreat() is called."

/-- A token list and the index of the current token, if there is one. -/
structure Cursor where
  tokens : List Token
  position : Option Nat := none
deriving DecidableEq, Repr

namespace Cursor

/-- The index of the token after the current one. -/
def next (c : Cursor) : Nat :=
  match c.position with
  | none => 0
  | some i => i + 1

/-- The tokens after the current one. -/
def ahead (c : Cursor) : List Token := c.tokens.drop c.next

def hasMore (c : Cursor) : Bool := c.next < c.tokens.length

def current? (c : Cursor) : Option Token := c.position.bind (c.tokens[·]?)

/-- The line of the token at an index; of the first token if there is none
there, and 1 without any token. -/
def lineAt (c : Cursor) (position : Option Nat) : Nat :=
  match (position.bind (c.tokens[·]?)).or c.tokens.head? with
  | some t => t.line
  | none => 1

/-- The line the cursor is on. -/
def line (c : Cursor) : Nat := c.lineAt c.position

def forward (c : Cursor) : Except CursorFault Cursor :=
  if c.hasMore then .ok { c with position := some c.next } else .error .atEnd

def back (c : Cursor) : Except CursorFault Cursor :=
  match c.position with
  | some (i + 1) => .ok { c with position := some i }
  | _ => .error .atStart

/-- Moves `n` tokens ahead. -/
def forwardBy (c : Cursor) : Nat → Except (CursorFault × Cursor) Cursor
  | 0 => .ok c
  | n + 1 =>
      match c.forward with
      | .ok c => c.forwardBy n
      | .error fault => .error (fault, c)

end Cursor

/-- A token list that is split at the current token: those up to it, the last one
first, and those after it. -/
structure Tape where
  seen : List Token := []
  ahead : List Token := []
deriving DecidableEq, Repr

namespace Tape

def tokens (s : Tape) : List Token := s.seen.reverse ++ s.ahead

/-- The tape as a cursor. -/
def cursor (s : Tape) : Cursor where
  tokens := s.tokens
  position :=
    match s.seen with
    | [] => none
    | _ :: before => some before.length

/-- The tape that a cursor stands for. -/
def ofCursor (c : Cursor) : Tape where
  seen := (c.tokens.take c.next).reverse
  ahead := c.ahead

def hasMore (s : Tape) : Bool := !s.ahead.isEmpty

def current? (s : Tape) : Option Token := s.seen.head?

/-- The line of the current token; of the first token before it is read, and 1
without any token. -/
def line (s : Tape) : Nat :=
  match s.current?.or s.ahead.head? with
  | some t => t.line
  | none => 1

def forward (s : Tape) : Except CursorFault Tape :=
  match s.ahead with
  | [] => .error .atEnd
  | token :: rest => .ok ⟨token :: s.seen, rest⟩

def back (s : Tape) : Except CursorFault Tape :=
  match s.seen with
  | token :: previous :: before => .ok ⟨previous :: before, token :: s.ahead⟩
  | _ => .error .atStart

end Tape

end JackVm
