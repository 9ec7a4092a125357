import JackVm.Instruction

/-!
# Where code is written

A sink takes one instruction line at a time. It may have a limit on the bytes
it takes: a line that would exceed it is refused as a whole, and a shorter line
may still be taken later. Flushing is a step of its own, which may fail too.
-/

namespace JackVm

/-- What a writer takes. -/
structure Outlet where
  limit : Option Nat := none
  flushFails : Bool := false
deriving DecidableEq, Repr

/-- Whether the outlet takes `size` bytes in all. -/
def Outlet.admits (o : Outlet) (size : Nat) : Bool :=
  match o.limit with
  | none => true
  | some limit => size ≤ limit

/-- Why an outlet fails. -/
inductive OutletFault where
  | full
  | flush
deriving DecidableEq, Repr

def OutletFault.message : OutletFault → String
  | .full => "writer is full"
  | .flush => "flush failed"

/-- Pushes what was taken through; the last step of writing. -/
def Outlet.flush (o : Outlet) : Except OutletFault Unit :=
  if o.flushFails then .error .flush else .ok ()

/-- An outlet, the instructions it took, last first, and their size in bytes. -/
structure Sink where
  outlet : Outlet := {}
  taken : List Instruction := []
  size : Nat := 0
deriving DecidableEq, Repr

namespace Sink

/-- Offers one instruction. -/
def write (s : Sink) (i : Instruction) : Except OutletFault Sink :=
  let size := s.size + i.line.utf8ByteSize
  if s.outlet.admits size then .ok { s with taken := i :: s.taken, size := size }
  else .error .full

/-- Offers instructions in order, up to the first that is refused. -/
def writeAll (s : Sink) : List Instruction → Sink × Option OutletFault
  | [] => (s, none)
  | i :: rest =>
      match s.write i with
      | .ok s => s.writeAll rest
      | .error fault => (s, some fault)

/-- The instructions taken so far, in order. -/
def code (s : Sink) : List Instruction := s.taken.reverse

/-- The text taken so far. -/
def text (s : Sink) : String := programText s.code

end Sink

end JackVm
