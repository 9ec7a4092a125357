import JackVm.Proofs.Invariants
import JackVm.Proofs.Scanning

/-!
# The productions of the grammar

A production is read after its first lexeme by the items that the lexeme stands for. What they
yield completes a derivation of the production (`derives_of_yields`). The items of statements and
expressions put nothing but such items on the stack, and so these change nothing of what is
known but the labels (`likeInvariant`).
-/

namespace JackVm

open JackVm.Tree

/-- The productions of the grammar. A list of arguments is that of a callee. -/
inductive Production where
  | classDec
  | classVarDec
  | subroutineDec
  | parameterList
  | subroutineBody
  | varDec
  | statements
  | letStatement
  | ifStatement
  | whileStatement
  | doStatement
  | returnStatement
  | expression
  | term
  | subroutineCall
  | expressionList (callee : Callee)
deriving DecidableEq, Repr

/-- The lexemes are a statement with that first word. -/
def IsStatement (first : String) (ls : List Lexeme) : Prop :=
  ∃ s : Statement, ls = s.print ∧ ls.head? = some (word first)

/-- The rest of a statement with that first word. -/
def statementAfter? (first : String) (l : Lexeme) : Option (List Item) :=
  if l.isKeyword first then statementItems? l else none

namespace Production

/-- The productions that may be empty. -/
def isList : Production → Bool
  | .parameterList | .statements | .expressionList _ => true
  | _ => false

/-- What is still to be read of a production after its first lexeme; nothing for a lexeme
that is not its first. Lists have to inspect a lexeme before they take it. -/
def items? (l : Lexeme) : Production → Option (List Item)
  | .classDec =>
      if l.isKeyword "class" then
        some [.need .className, .need (.symbol '{'), .need (.members false)]
      else none
  | .classVarDec => (classStorage? l).map fun storage => [.need (.varType storage)]
  | .subroutineDec => (subroutineKind? l).map subroutineItems
  | .subroutineBody => if l.isSymbol '{' then some [.need .body, .need (.symbol '}')] else none
  | .varDec => if l.isKeyword "var" then some [.need (.varType .var)] else none
  | .letStatement => statementAfter? "let" l
  | .ifStatement => statementAfter? "if" l
  | .whileStatement => statementAfter? "while" l
  | .doStatement => statementAfter? "do" l
  | .returnStatement => statementAfter? "return" l
  | .expression => expressionItems? l
  | .term => termItems? l
  | .subroutineCall => l.name?.map fun n => [.need (.callRest n)]
  | .parameterList | .statements | .expressionList _ => none

/-- The lexemes are a derivation of the production. -/
def Derives (ls : List Lexeme) : Production → Prop
  | .classDec => ∃ c : Tree.Class, ls = c.print
  | .classVarDec => ∃ v : ClassVarDec, ls = v.print
  | .subroutineDec => ∃ s : Subroutine, ls = s.print
  | .parameterList => ∃ ps : List Parameter, ls = printParameters ps
  | .subroutineBody => ∃ (ds : List VarDec) (ss : StatementList),
      ls = [mark '{'] ++ ds.flatMap (fun d => word "var" :: d.print) ++ ss.print ++ [mark '}']
  | .varDec => ∃ d : VarDec, ls = word "var" :: d.print
  | .statements => ∃ ss : StatementList, ls = ss.print
  | .letStatement => IsStatement "let" ls
  | .ifStatement => IsStatement "if" ls
  | .whileStatement => IsStatement "while" ls
  | .doStatement => IsStatement "do" ls
  | .returnStatement => IsStatement "return" ls
  | .expression => ∃ e : Expression, ls = e.print
  | .term => ∃ t : Term, ls = t.print
  | .subroutineCall => ∃ (f : CallName) (args : ArgumentList), ls = printCall f args
  | .expressionList _ => ∃ args : ArgumentList, ls = args.print

end Production

/-! ## What was read is a derivation -/

section
variable {l : Lexeme} {items : List Item} {ls : List Lexeme} {es : List Event}

/-- Only the empty stack has a lexeme after the class. -/
theorem Goal.meet_ne_afterClass (g : Goal) : g.meet l ≠ .refuse .afterClass := by
  have htake : ∀ (g : Goal) (o : Option (List Item)), g.takeWith o ≠ .refuse .afterClass := by
    intro g o
    cases o <;> simp [Goal.takeWith]
  cases g with
  | members b =>
      rw [Goal.meet]
      split
      · simp
      split
      · split <;> simp
      · exact htake _ _
  | body =>
      rw [Goal.meet]
      split
      · simp
      split <;> simp
  | statements | moreStatements | operators | elsePart =>
      rw [Goal.meet]
      split <;> simp
  | returnRest =>
      rw [Goal.meet]
      split
      · simp
      split <;> simp
  | nameRest n =>
      rw [Goal.meet]
      split
      · simp
      split
      · simp
      split <;> simp
  | _ => exact htake _ _

/-- What lets a lexeme through stands for nothing. -/
theorem yields_of_afterClass : ∀ {items : List Item},
    (feed l items).rest = .error .afterClass → ∃ es, Yields items [] es
  | [], _ => ⟨[], .nil⟩
  | .raise e :: items, h => by
      have hitems : (feed l items).rest = .error .afterClass := h
      obtain ⟨es, hy⟩ := yields_of_afterClass hitems
      exact ⟨e :: es, .raise hy⟩
  | .need g :: items, h => by
      rw [feed] at h
      split at h
      · next events new _ =>
          obtain ⟨events', rest, hsettle, -⟩ := settle_spec (new ++ items)
          rw [hsettle] at h
          cases h
      · next events hg =>
          have hitems : (feed l items).rest = .error .afterClass := h
          obtain ⟨es, hy⟩ := yields_of_afterClass hitems
          exact ⟨_, .need (Goal.spells_of_leave hg) hy⟩
      · next r hg =>
          obtain rfl := Except.error.inj h
          exact absurd hg g.meet_ne_afterClass

theorem isStatement_of_yields {first : String} (h : statementAfter? first l = some items)
    (hy : Yields items ls es) : IsStatement first (l :: ls) := by
  obtain ⟨hword, hitems⟩ := Option.ite_none_right_eq_some.mp h
  obtain ⟨s, hs, -⟩ := exists_statement hitems hy
  exact ⟨s, hs, by rw [eq_word hword]; rfl⟩

/-- What follows the first lexeme completes a derivation. -/
theorem Production.derives_of_yields {p : Production} (hl : l.Proper) (h : p.items? l = some items)
    (hy : Yields items ls es) : p.Derives (l :: ls) := by
  cases p with
  | classDec =>
      have hmeet : Goal.classDec.meet l = .take [] items := congrArg Goal.classDec.takeWith h
      obtain ⟨c, hc, -⟩ := Goal.spells_of_take hl hmeet hy
      exact ⟨c, hc⟩
  | classVarDec =>
      obtain ⟨storage, hstorage, rfl⟩ := Option.map_eq_some_iff.mp h
      obtain ⟨d, rfl, -⟩ := yields_singleton.mp hy
      obtain ⟨v, rfl, rfl, -⟩ := exists_classVarDec hstorage d
      exact ⟨v, rfl⟩
  | subroutineDec =>
      obtain ⟨kind, hkind, rfl⟩ := Option.map_eq_some_iff.mp h
      obtain ⟨s, hs, -⟩ := exists_subroutine hkind hy
      exact ⟨s, hs⟩
  | subroutineBody =>
      obtain ⟨hmark, hitems⟩ := Option.ite_none_right_eq_some.mp h
      obtain rfl := Option.some.inj hitems
      obtain ⟨_, _, _, _, rfl, -, ⟨ds, ss, rfl, -⟩, hclose⟩ := yields_need.mp hy
      obtain ⟨rfl, -⟩ := yields_singleton.mp hclose
      exact ⟨ds, ss, by rw [eq_mark hl hmark]; simp⟩
  | varDec =>
      obtain ⟨hword, hitems⟩ := Option.ite_none_right_eq_some.mp h
      obtain rfl := Option.some.inj hitems
      obtain ⟨d, rfl, -⟩ := yields_singleton.mp hy
      exact ⟨d, by rw [eq_word hword]⟩
  | letStatement | ifStatement | whileStatement | doStatement | returnStatement =>
      exact isStatement_of_yields h hy
  | expression =>
      obtain ⟨e, he, -⟩ := exists_expression hl h hy
      exact ⟨e, he⟩
  | term =>
      obtain ⟨t, ht, -⟩ := exists_term hl h hy
      exact ⟨t, ht⟩
  | subroutineCall =>
      obtain ⟨n, hn, rfl⟩ := Option.map_eq_some_iff.mp h
      obtain ⟨x, rfl, rfl⟩ := exists_identifier hl hn
      obtain ⟨f, args, hcall, -⟩ := yields_singleton.mp hy x rfl
      exact ⟨f, args, hcall.symm⟩
  | parameterList | statements | expressionList => cases h

theorem Yields.raises (h : Yields items ls es) : ∀ events : List (Place × Event),
    Yields (events.map (fun e => .raise e.2) ++ items) ls (events.map Prod.snd ++ es)
  | [] => h
  | _ :: events => .raise (h.raises events)

theorem Compiler.proceed_ok {c : Compiler} (hrun : (c.proceed (.ok items)).stopped = none) :
    c.proceed (.ok items) = { c with items := items, next := c.next + 1 } := by
  cases hc : c.stopped with
  | some fault => simp [proceed, hc] at hrun
  | none => simp [proceed, hc]

/-! ## What statements leave as it was -/

/-- The goals of declarations. -/
def Goal.declares : Goal → Bool
  | .classDec | .className | .members _ | .varType _ | .varName _ _ | .moreNames _ _
  | .resultType _ | .subroutineName | .parameters | .parameterType | .moreParameters
  | .body => true
  | _ => false

/-- The events of declarations. -/
def Event.declares : Event → Bool
  | .className _ | .declare _ _ _ | .result _ _ | .subroutine _ | .enter => true
  | _ => false

def Item.declares : Item → Bool
  | .need g => g.declares
  | .raise e => e.declares

@[simp] theorem Item.declares_need {g : Goal} : (Item.need g).declares = g.declares := rfl

@[simp] theorem Item.declares_raise {e : Event} : (Item.raise e).declares = e.declares := rfl

/-- The productions of declarations. -/
def Production.declares : Production → Bool
  | .classDec | .classVarDec | .subroutineDec | .parameterList | .subroutineBody | .varDec => true
  | _ => false

/-- All that is known is the same but for the labels. -/
structure Scope.Like (s s' : Scope) : Prop where
  table : s'.table = s.table
  className : s'.className = s.className
  subroutine : s'.subroutine = s.subroutine
  kind : s'.kind = s.kind
  returnsVoid : s'.returnsVoid = s.returnsVoid

theorem declares_termParts : ∀ i ∈ termParts l, i.declares = false := by
  obtain ⟨kind, text⟩ := l
  cases kind with
  | _ => simp [termParts, Goal.declares, Event.declares]

theorem declares_expressionParts : ∀ i ∈ expressionParts l, i.declares = false := by
  rw [expressionParts, List.forall_mem_append]
  exact ⟨declares_termParts, by simp [Goal.declares]⟩

theorem declares_statementParts : ∀ i ∈ statementParts, i.declares = false := by
  decide

theorem declares_statementItems? (h : statementItems? l = some items) :
    ∀ i ∈ items, i.declares = false := fun i hi =>
  declares_statementParts i (statementItems?_parts h i (List.mem_append_left _ hi))

/-- Statements and expressions are made of statements and expressions. -/
theorem Goal.declares_parts {g : Goal} (hg : g.declares = false) :
    ∀ i ∈ g.parts l, i.declares = false := by
  cases g with
  | term => exact declares_termParts
  | expression => exact declares_expressionParts
  | statements | moreStatements => exact declares_statementParts
  | symbol _ | letRest _ | elsePart | returnEnd | callStatement | nameRest _ | callRest _
  | moreArguments _ _ =>
      simp [parts, blockItems, argumentItems, Goal.declares, Event.declares]
  | letTarget | operators | calleeName _ =>
      simp only [parts, List.forall_mem_flatMap]
      simp [argumentItems, Goal.declares, Event.declares]
  | returnRest | arguments _ =>
      simp only [parts, List.forall_mem_cons]
      simp only [Item.declares_raise, Item.declares_need, Goal.declares, Event.declares, true_and]
      exact declares_expressionParts
  | _ => cases hg

/-- The events of statements and expressions change nothing but the labels. -/
theorem Scope.Like.perform {t : Target} {s s' s'' : Scope} {e : Event} {code : List Instruction}
    (h : s.Like s') (he : e.declares = false) (hperform : s'.perform t e = .ok (s'', code)) :
    s.Like s'' := by
  cases e with
  | className | declare | result | subroutine | enter => cases he
  | prologue | address | fetch | storeElement | ifTest | ifElse | whileTest | discard | ret
  | string | unary | binary =>
      cases hperform
      exact h
  | ifBegin | ifEnd | whileBegin | whileEnd =>
      cases hperform
      exact ⟨h.table, h.className, h.subroutine, h.kind, h.returnsVoid⟩
  | target name | load name | store name | resolve callee | receive callee | call callee n =>
      obtain ⟨v, -, hv⟩ := exists_of_map_eq_ok hperform
      cases hv
      exact h
  | returnNothing | returnValue | integer =>
      simp only [Scope.perform] at hperform
      split at hperform <;> cases hperform
      exact h
  | constant c =>
      cases c with
      | truth | falsity | null =>
          cases hperform
          exact h
      | self =>
          simp only [Scope.perform] at hperform
          split at hperform <;> cases hperform
          exact h

/-- What statements and expressions keep. -/
def likeInvariant (t : Target) (s : Scope) : Invariant t where
  item i := i.declares = false
  lexeme _ := True
  scope := s.Like
  instruction _ := True
  parts _ hg := Goal.declares_parts hg
  perform hs he hperform := ⟨hs.perform he hperform, fun _ _ => trivial⟩

namespace Production

variable {t : Target} {c start : Compiler} {p : Production}

theorem declares_items? (hp : p.declares = false) (h : p.items? l = some items) :
    ∀ i ∈ items, i.declares = false := by
  cases p with
  | letStatement | ifStatement | whileStatement | doStatement | returnStatement =>
      obtain ⟨-, hitems⟩ := Option.ite_none_right_eq_some.mp h
      exact declares_statementItems? hitems
  | expression => exact fun i hi => declares_expressionParts i (expressionItems?_parts h i hi)
  | term => exact fun i hi => declares_termParts i (termItems?_parts h i hi)
  | subroutineCall =>
      obtain ⟨n, -, rfl⟩ := Option.map_eq_some_iff.mp h
      simp [Goal.declares]
  | statements | expressionList => cases h
  | _ => cases hp

end Production

end

end JackVm
