import JackVm.Proofs.Tree

/-!
# The static rules

What a grammatical class must obey. The rules are stated on the tree alone: a
variable is a declaration and its place among the declarations of its storage
class, and an environment is what the declarations around a piece of code say.
-/

namespace JackVm.Tree

/-! ## Declarations -/

/-- A declared variable. -/
structure Decl where
  storage : Storage
  type : VarType
  name : String
deriving DecidableEq

/-- The variable a name stands for: its type, where it is stored, and how many
variables stored so are declared before it. -/
structure Slot where
  type : VarType
  storage : Storage
  index : Nat
deriving DecidableEq

/-- How many declarations have a storage class. -/
def countOf (storage : Storage) (ds : List Decl) : Nat := ds.countP (·.storage = storage)

/-- The first declaration of a name, when others stand before the list. -/
def slotAfter (x : String) (before : List Decl) : List Decl → Option Slot
  | [] => none
  | d :: ds =>
      if d.name = x then some ⟨d.type, d.storage, countOf d.storage before⟩
      else slotAfter x (before ++ [d]) ds

/-- The first declaration of a name. -/
def slot? (x : String) (ds : List Decl) : Option Slot := slotAfter x [] ds

theorem countOf_snoc (st : Storage) (ds : List Decl) (d : Decl) :
    countOf st (ds ++ [d]) = countOf st ds + if d.storage = st then 1 else 0 := by
  simp [countOf, List.countP_append, List.countP_cons]

theorem countOf_le (st : Storage) (ds : List Decl) : countOf st ds ≤ ds.length :=
  List.countP_le_length

theorem slotAfter_append (x : String) : ∀ (ds es before : List Decl),
    slotAfter x before (ds ++ es) =
      (slotAfter x before ds).or (slotAfter x (before ++ ds) es)
  | [], es, before => by simp [slotAfter]
  | d :: ds, es, before => by
      by_cases hd : d.name = x
      · simp [slotAfter, hd]
      · simp [slotAfter, hd, slotAfter_append x ds es]

/-- A name that is declared anew stands for the new variable, and all others for
what they stood for. -/
theorem slot?_snoc (x : String) (ds : List Decl) (d : Decl) :
    slot? x (ds ++ [d]) = (slot? x ds).or
      (if d.name = x then some ⟨d.type, d.storage, countOf d.storage ds⟩ else none) := by
  simp [slot?, slotAfter_append, slotAfter]

theorem slotAfter_eq_none_iff {x : String} : ∀ {ds before : List Decl},
    slotAfter x before ds = none ↔ x ∉ ds.map Decl.name
  | [], before => by simp [slotAfter]
  | d :: ds, before => by
      by_cases hd : d.name = x
      · simp [slotAfter, hd]
      · simp [slotAfter, hd, Ne.symm hd,
        slotAfter_eq_none_iff]

theorem slot?_eq_none_iff {x : String} {ds : List Decl} :
    slot? x ds = none ↔ x ∉ ds.map Decl.name := slotAfter_eq_none_iff

theorem slotAfter_index_lt {x : String} {v : Slot} : ∀ {ds before : List Decl},
    slotAfter x before ds = some v → v.index < before.length + ds.length
  | d :: ds, before, h => by
      by_cases hd : d.name = x
      · simp only [slotAfter, hd, if_true, Option.some.injEq] at h
        have hle := countOf_le d.storage before
        simp only [← h, List.length_cons]
        omega
      · simp only [slotAfter, hd, if_false] at h
        have hlt := slotAfter_index_lt h
        simp only [List.length_append, List.length_cons, List.length_nil] at hlt ⊢
        omega

theorem slot?_index_lt {x : String} {v : Slot} {ds : List Decl} (h : slot? x ds = some v) :
    v.index < ds.length := by
  have hlt := slotAfter_index_lt h
  simpa using hlt

def VarDec.decls (storage : Storage) (d : VarDec) : List Decl :=
  d.names.map fun x => ⟨storage, d.type, x.text⟩

def Parameter.decl (p : Parameter) : Decl := ⟨.argument, p.type, p.name.text⟩

/-- The variables of a class. -/
def Class.decls (c : Class) : List Decl := c.classVars.flatMap fun v => v.dec.decls v.storage

/-- The variables that a subroutine declares. -/
def Subroutine.decls (s : Subroutine) : List Decl :=
  s.parameters.map Parameter.decl ++ s.locals.flatMap (VarDec.decls .var)

/-- The current object, which a method is passed as its first argument. -/
def Subroutine.receiver (c : Class) (s : Subroutine) : List Decl :=
  if s.kind = .method then [⟨.argument, .object c.name, "this"⟩] else []

/-! ## Environments -/

/-- What is known inside a subroutine. -/
structure Env where
  className : String
  subroutine : String
  kind : SubroutineKind
  returnsVoid : Bool
  ofClass : List Decl
  ofSubroutine : List Decl

def Class.env (c : Class) (s : Subroutine) : Env where
  className := c.name.text
  subroutine := s.name.text
  kind := s.kind
  returnsVoid := s.result.isNone
  ofClass := c.decls
  ofSubroutine := s.receiver c ++ s.decls

namespace Env

/-- The variable a name stands for. Those of the subroutine hide those of the class. -/
def find? (env : Env) (x : String) : Option Slot :=
  (slot? x env.ofSubroutine).or (slot? x env.ofClass)

/-- There is a current object. -/
def HasObject (env : Env) : Prop := env.kind ≠ .function

/-- A variable may be used: a field belongs to the current object. -/
def Admits (env : Env) (v : Slot) : Prop := v.storage = .field → env.HasObject

/-- A name stands for a variable that may be used. -/
def Uses (env : Env) (x : Identifier) : Prop := ∃ v, env.find? x.text = some v ∧ env.Admits v

/-- A name may be called. A bare name is a method of the current object; a
receiver that is a variable must be an object, and any other is a class. -/
def Calls (env : Env) : CallName → Prop
  | .bare _ => env.HasObject
  | .dotted r _ => ∀ v, env.find? r.text = some v →
      v.type ∉ [.int, .char, .boolean] ∧ env.Admits v

end Env

/-! ## Expressions and statements -/

section
variable (env : Env)

mutual
def Term.Valid : Term → Prop
  | .integer _ | .string _ => True
  | .constant c => c = .self → env.HasObject
  | .var x => env.Uses x
  | .element x i => env.Uses x ∧ i.Valid
  | .call f args => env.Calls f ∧ args.Valid
  | .group e => e.Valid
  | .unary _ t => t.Valid
def Expression.Valid : Expression → Prop
  | .mk first rest => first.Valid ∧ rest.Valid
def Operations.Valid : Operations → Prop
  | .nil => True
  | .cons _ t rest => t.Valid ∧ rest.Valid
def ArgumentList.Valid : ArgumentList → Prop
  | .nil => True
  | .cons e rest => e.Valid ∧ rest.Valid
end

mutual
def Statement.Valid : Statement → Prop
  | .letVar x e => env.Uses x ∧ e.Valid env
  | .letElement x i e => env.Uses x ∧ i.Valid env ∧ e.Valid env
  | .ifThen c b | .whileDo c b => c.Valid env ∧ b.Valid
  | .ifElse c b b' => c.Valid env ∧ b.Valid ∧ b'.Valid
  | .doCall f args => env.Calls f ∧ args.Valid env
  | .returnNothing => env.returnsVoid = true
  | .returnValue e => env.returnsVoid = false ∧ e.Valid env
def StatementList.Valid : StatementList → Prop
  | .nil => True
  | .cons s rest => s.Valid ∧ rest.Valid
end

end

/-! ## Subroutines and classes -/

/-- What a subroutine of the class `c` must obey. -/
structure Subroutine.Valid (c : Class) (s : Subroutine) : Prop where
  result : s.kind = .constructor → s.result = some (.object c.name)
  distinct : (s.decls.map Decl.name).Nodup
  body : s.body.Valid (c.env s)

/-- What a class must obey whose name is to be `name`. -/
structure Class.Valid (name : String) (c : Class) : Prop where
  named : c.name.text = name
  distinct : (c.decls.map Decl.name).Nodup
  subroutines : ∀ s ∈ c.subroutines, s.Valid c

/-! ## Checking the rules -/

section
variable (env : Env)

instance : Decidable env.HasObject := inferInstanceAs (Decidable (_ ≠ _))

instance (v : Slot) : Decidable (env.Admits v) := inferInstanceAs (Decidable (_ → _))

instance (x : Identifier) : Decidable (env.Uses x) :=
  match hv : env.find? x.text with
  | none => isFalse (by
      rintro ⟨v, hv', -⟩
      rw [hv] at hv'
      cases hv')
  | some v => decidable_of_iff (env.Admits v) (by
      constructor
      · intro hadmits
        exact ⟨v, hv, hadmits⟩
      · rintro ⟨w, hw, hadmits⟩
        rw [hv] at hw
        cases hw
        exact hadmits)

instance : (f : CallName) → Decidable (env.Calls f)
  | .bare _ => inferInstanceAs (Decidable env.HasObject)
  | .dotted r _ => inferInstanceAs (Decidable (∀ v ∈ env.find? r.text,
      v.type ∉ [.int, .char, .boolean] ∧ env.Admits v))

mutual
def Term.decideValid : (t : Term) → Decidable (t.Valid env)
  | .integer _ | .string _ => isTrue trivial
  | .constant c => inferInstanceAs (Decidable (c = .self → env.HasObject))
  | .var x => inferInstanceAs (Decidable (env.Uses x))
  | .element x i =>
      have := i.decideValid
      inferInstanceAs (Decidable (env.Uses x ∧ i.Valid env))
  | .call f args =>
      have := args.decideValid
      inferInstanceAs (Decidable (env.Calls f ∧ args.Valid env))
  | .group e => e.decideValid
  | .unary _ t => t.decideValid
def Expression.decideValid : (e : Expression) → Decidable (e.Valid env)
  | .mk first rest =>
      have := first.decideValid
      have := rest.decideValid
      inferInstanceAs (Decidable (first.Valid env ∧ rest.Valid env))
def Operations.decideValid : (o : Operations) → Decidable (o.Valid env)
  | .nil => isTrue trivial
  | .cons _ t rest =>
      have := t.decideValid
      have := rest.decideValid
      inferInstanceAs (Decidable (t.Valid env ∧ rest.Valid env))
def ArgumentList.decideValid : (a : ArgumentList) → Decidable (a.Valid env)
  | .nil => isTrue trivial
  | .cons e rest =>
      have := e.decideValid
      have := rest.decideValid
      inferInstanceAs (Decidable (e.Valid env ∧ rest.Valid env))
end

instance (e : Expression) : Decidable (e.Valid env) := e.decideValid env

instance (a : ArgumentList) : Decidable (a.Valid env) := a.decideValid env

mutual
def Statement.decideValid : (s : Statement) → Decidable (s.Valid env)
  | .letVar x e => inferInstanceAs (Decidable (env.Uses x ∧ e.Valid env))
  | .letElement x i e => inferInstanceAs (Decidable (env.Uses x ∧ i.Valid env ∧ e.Valid env))
  | .ifThen c b | .whileDo c b =>
      have := b.decideValid
      inferInstanceAs (Decidable (c.Valid env ∧ b.Valid env))
  | .ifElse c b b' =>
      have := b.decideValid
      have := b'.decideValid
      inferInstanceAs (Decidable (c.Valid env ∧ b.Valid env ∧ b'.Valid env))
  | .doCall f args => inferInstanceAs (Decidable (env.Calls f ∧ args.Valid env))
  | .returnNothing => inferInstanceAs (Decidable (env.returnsVoid = true))
  | .returnValue e => inferInstanceAs (Decidable (env.returnsVoid = false ∧ e.Valid env))
def StatementList.decideValid : (ss : StatementList) → Decidable (ss.Valid env)
  | .nil => isTrue trivial
  | .cons s rest =>
      have := s.decideValid
      have := rest.decideValid
      inferInstanceAs (Decidable (s.Valid env ∧ rest.Valid env))
end

instance (ss : StatementList) : Decidable (ss.Valid env) := ss.decideValid env

end

instance (c : Class) (s : Subroutine) : Decidable (s.Valid c) :=
  decidable_of_iff ((s.kind = .constructor → s.result = some (.object c.name)) ∧
      (s.decls.map Decl.name).Nodup ∧ s.body.Valid (c.env s))
    ⟨fun ⟨hr, hd, hb⟩ => ⟨hr, hd, hb⟩, fun ⟨hr, hd, hb⟩ => ⟨hr, hd, hb⟩⟩

instance (name : String) (c : Class) : Decidable (c.Valid name) :=
  decidable_of_iff (c.name.text = name ∧ (c.decls.map Decl.name).Nodup ∧
      ∀ s ∈ c.subroutines, s.Valid c)
    ⟨fun ⟨hn, hd, hs⟩ => ⟨hn, hd, hs⟩, fun ⟨hn, hd, hs⟩ => ⟨hn, hd, hs⟩⟩

end JackVm.Tree
