/-!
# The variable table

Two scopes of variables: static and field variables live as long as the class,
arguments and local variables as long as one subroutine. A name is declared at
most once in a scope; a lookup prefers the subroutine's scope. The variables of
a storage class are numbered in the order of their declaration, and each scope is
kept in the order of the names.
-/

namespace JackVm

/-- The storage classes of variables. -/
inductive Storage where
  | static
  | field
  | argument
  | var
deriving DecidableEq, Repr

def Storage.name : Storage → String
  | .static => "static"
  | .field => "field"
  | .argument => "argument"
  | .var => "var"

/-- Whether variables stored so belong to the class, not to a subroutine. -/
def Storage.isOfClass : Storage → Bool
  | .static | .field => true
  | .argument | .var => false

/-- What is known of a variable. -/
structure Variable where
  type : String
  storage : Storage
  index : UInt32
deriving DecidableEq, Repr

/-- The variables of one scope, by strictly increasing name. -/
abbrev Bindings := List (String × Variable)

/-- Adds a variable at its place in the order. -/
def insertBinding (name : String) (v : Variable) : Bindings → Bindings
  | [] => [(name, v)]
  | b :: bs => if name < b.1 then (name, v) :: b :: bs else b :: insertBinding name v bs

/-- Why the table refuses a request. -/
inductive TableError where
  | redeclared (name : String) (existing : Storage)
  | undeclared (name : String)
deriving DecidableEq, Repr

def TableError.message : TableError → String
  | .redeclared name existing => name ++ " is already defined(" ++ existing.name ++ ")."
  | .undeclared name => name ++ " doesn't exist."

/-- Both scopes, and how many variables of each storage class they hold. -/
structure VariableTable where
  ofClass : Bindings := []
  ofSubroutine : Bindings := []
  statics : UInt32 := 0
  fields : UInt32 := 0
  arguments : UInt32 := 0
  vars : UInt32 := 0
deriving DecidableEq, Repr

namespace VariableTable

/-- How many variables of a storage class are declared. -/
def count (t : VariableTable) : Storage → UInt32
  | .static => t.statics
  | .field => t.fields
  | .argument => t.arguments
  | .var => t.vars

/-- The scope that holds the variables of a storage class. -/
def scope (t : VariableTable) (storage : Storage) : Bindings :=
  if storage.isOfClass then t.ofClass else t.ofSubroutine

/-- Forgets the subroutine's variables. -/
def dropLocals (t : VariableTable) : VariableTable :=
  { t with ofSubroutine := [], arguments := 0, vars := 0 }

/-- Adds a variable that its scope does not hold yet. -/
def add (t : VariableTable) (name type : String) : Storage → VariableTable
  | .static => { t with
      ofClass := insertBinding name ⟨type, .static, t.statics⟩ t.ofClass
      statics := t.statics + 1 }
  | .field => { t with
      ofClass := insertBinding name ⟨type, .field, t.fields⟩ t.ofClass
      fields := t.fields + 1 }
  | .argument => { t with
      ofSubroutine := insertBinding name ⟨type, .argument, t.arguments⟩ t.ofSubroutine
      arguments := t.arguments + 1 }
  | .var => { t with
      ofSubroutine := insertBinding name ⟨type, .var, t.vars⟩ t.ofSubroutine
      vars := t.vars + 1 }

/-- Declares a variable. Its index is the number of variables of its storage
class declared before. -/
def declare (t : VariableTable) (name type : String) (storage : Storage) :
    Except TableError VariableTable :=
  match (t.scope storage).lookup name with
  | some existing => .error (.redeclared name existing.storage)
  | none => .ok (t.add name type storage)

/-- The variable a name stands for. -/
def get? (t : VariableTable) (name : String) : Option Variable :=
  (t.ofSubroutine.lookup name).or (t.ofClass.lookup name)

/-- The variable a name must stand for. -/
def get (t : VariableTable) (name : String) : Except TableError Variable :=
  match t.get? name with
  | some v => .ok v
  | none => .error (.undeclared name)

/-- The variables of a storage class, by name. -/
def stored (t : VariableTable) (storage : Storage) : Bindings :=
  (t.scope storage).filter fun b => b.2.storage = storage

end VariableTable

end JackVm
