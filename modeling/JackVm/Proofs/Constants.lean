import JackVm.Proofs.Acceptance

/-!
# The constants of a program

The machine can push constants up to a limit, and the scanner turns down integer constants
beyond it. Programs push other numbers as constants, too: the length and the characters of a
string constant, and the number of fields in a constructor. Nothing checks these.

Main statements: the constants of an accepted program are in range exactly when its string
constants and, if there is a constructor, the number of its fields are
(`ofSource_constants_in_range`). There is an accepted program with a constant that is not
(`ofSource_pushes_beyond_range`).
-/

namespace JackVm

/-- The constant that an instruction pushes. -/
def Instruction.constant? : Instruction → Option UInt32
  | .push .constant n => some n
  | _ => none

/-- The constants that are pushed in a piece of code. -/
def constants (code : List Instruction) : List UInt32 := code.filterMap Instruction.constant?

/-- All constants are such as the machine can push. -/
def InRange (code : List Instruction) : Prop := ∀ n ∈ constants code, n.toNat ≤ maxInteger

theorem mem_constants_iff {n : UInt32} {code : List Instruction} :
    n ∈ constants code ↔ .push .constant n ∈ code := by
  rw [constants, List.mem_filterMap]
  constructor
  · rintro ⟨i, hi, hn⟩
    unfold Instruction.constant? at hn
    split at hn
    · rwa [← Option.some.inj hn]
    · cases hn
  · intro hn
    exact ⟨_, hn, rfl⟩

/-- The length of a text, as a machine word, and its characters are in range. -/
def TextInRange (text : String) : Prop :=
  (UInt32.ofNat text.length).toNat ≤ maxInteger ∧ ∀ c ∈ text.toList, c.toNat ≤ maxInteger

/-- The lexeme is no string constant, or one with a text in range. -/
def Lexeme.InRange (l : Lexeme) : Prop := l.kind = .stringConstant → TextInRange l.text

/-- All string constants among the lexemes are in range. -/
def TextsInRange (ls : List Lexeme) : Prop := ∀ l ∈ ls, l.InRange

@[simp] theorem inRange_nil : InRange [] := by simp [InRange, constants]

@[simp] theorem inRange_append {code code' : List Instruction} :
    InRange (code ++ code') ↔ InRange code ∧ InRange code' := by
  simp only [InRange, constants, List.filterMap_append, List.forall_mem_append]

@[simp] theorem inRange_cons {i : Instruction} {code : List Instruction} :
    InRange (i :: code) ↔ (∀ n, i.constant? = some n → n.toNat ≤ maxInteger) ∧ InRange code := by
  cases hi : i.constant? with
  | none => simp [InRange, constants, hi]
  | some n => simp [InRange, constants, hi]

theorem inRange_flatMap {α : Type} {f : α → List Instruction} : ∀ {as : List α},
    InRange (as.flatMap f) ↔ ∀ a ∈ as, InRange (f a)
  | [] => by simp
  | a :: as => by
      rw [List.flatMap_cons, inRange_append, inRange_flatMap, List.forall_mem_cons]

@[simp] theorem textsInRange_nil : TextsInRange [] := by simp [TextsInRange]

@[simp] theorem textsInRange_append {ls ls' : List Lexeme} :
    TextsInRange (ls ++ ls') ↔ TextsInRange ls ∧ TextsInRange ls' := List.forall_mem_append

theorem textsInRange_flatMap {α : Type} {f : α → List Lexeme} {as : List α} :
    TextsInRange (as.flatMap f) ↔ ∀ a ∈ as, TextsInRange (f a) := List.forall_mem_flatMap

@[simp] theorem textsInRange_cons {l : Lexeme} {ls : List Lexeme} :
    TextsInRange (l :: ls) ↔ l.InRange ∧ TextsInRange ls := List.forall_mem_cons

namespace Tree

@[simp] theorem inRange_mark (c : Char) : (mark c).InRange := nofun

@[simp] theorem inRange_word (text : String) : (word text).InRange := nofun

@[simp] theorem inRange_identifier (x : Identifier) : x.lexeme.InRange := nofun

@[simp] theorem inRange_type (type : VarType) : type.lexeme.InRange := by
  cases type with
  | object c => exact inRange_identifier c
  | _ => exact inRange_word _

/-! ## Expressions -/

section
variable {env : Env} {r : Runtime} {label : Tag → Nat → String}

theorem inRange_load (x : String) : InRange (env.load x) := by
  unfold Env.load
  split
  · next v _ => cases v.storage <;> simp [Instruction.constant?, home]
  · exact inRange_nil

theorem inRange_store (x : String) : InRange (env.store x) := by
  unfold Env.store
  split
  · simp [Instruction.constant?]
  · exact inRange_nil

theorem inRange_receiver (f : CallName) : InRange (env.receiver f) := by
  cases f with
  | bare name => simp [Env.receiver, Instruction.constant?]
  | dotted x name => exact inRange_load x.text

theorem inRange_constantCode (c : KeywordConstant) : InRange (constantCode c) := by
  cases c <;> simp [constantCode, Instruction.constant?]

theorem inRange_unaryCommand (op : UnaryOp) : InRange [unaryCommand op] := by
  cases op <;> simp [unaryCommand, Instruction.constant?]

theorem inRange_binaryCommand (op : BinaryOp) : InRange [binaryCommand r op] := by
  cases op <;> simp [binaryCommand, Instruction.constant?]

theorem inRange_numeral (n : Numeral) : InRange [.push .constant (UInt32.ofNat n.value)] := by
  have hvalue : n.value ≤ maxInteger := n.inRange
  have hword : (UInt32.ofNat n.value).toNat ≤ n.value := by
    rw [UInt32.toNat_ofNat']
    exact Nat.mod_le _ _
  simpa [Instruction.constant?] using Nat.le_trans hword hvalue

theorem inRange_constant_iff {n : UInt32} :
    InRange [.push .constant n] ↔ n.toNat ≤ maxInteger := by
  simp [Instruction.constant?]

theorem inRange_call (name : String) (n : UInt32) : InRange [.call name n] := by
  simp [Instruction.constant?]

theorem inRange_textCode_iff (text : String) : InRange (textCode r text) ↔ TextInRange text := by
  have hchar : ∀ c : Char, (UInt32.ofNat c.toNat).toNat = c.toNat := fun c => by
    rw [Char.toNat, UInt32.ofNat_toNat]
  have hpair : ∀ (n : UInt32) (name : String) (k : UInt32),
      InRange [.push .constant n, .call name k] ↔ n.toNat ≤ maxInteger := by
    intro n name k
    rw [← List.singleton_append, inRange_append, inRange_constant_iff]
    exact and_iff_left (inRange_call name k)
  simp only [textCode, inRange_append, inRange_flatMap, hpair, hchar, TextInRange]

mutual
/-- The constants of a term are in range when its string constants are. -/
theorem Term.inRange_code_iff : ∀ t : Term, InRange (t.code env r) ↔ TextsInRange t.print
  | .integer n => by
      have hnumeral := inRange_numeral n
      simpa [Term.code, Term.print, Lexeme.InRange] using hnumeral
  | .string text => by
      rw [Term.code, inRange_textCode_iff]
      simp [Term.print, Lexeme.InRange]
  | .constant c => by simpa [Term.code, Term.print] using inRange_constantCode c
  | .var x => by simpa [Term.code, Term.print] using inRange_load x.text
  | .element x i => by
      have hload : InRange (env.load x.text) := inRange_load x.text
      simp [Term.code, Term.print, hload, Expression.inRange_code_iff i, Instruction.constant?]
  | .call f args => by
      have hreceiver : InRange (env.receiver f) := inRange_receiver f
      have hname : TextsInRange f.print := by cases f <;> simp [CallName.print]
      simp [Term.code, Term.print, hreceiver, hname, ArgumentList.inRange_code_iff args,
        Instruction.constant?]
  | .group e => by simp [Term.code, Term.print, Expression.inRange_code_iff e]
  | .unary op t => by
      have hop := inRange_unaryCommand op
      simp only [Term.code, Term.print, inRange_append, hop, and_true, textsInRange_append,
        textsInRange_cons, inRange_mark, textsInRange_nil, true_and, Term.inRange_code_iff t]
theorem Expression.inRange_code_iff : ∀ e : Expression,
    InRange (e.code env r) ↔ TextsInRange e.print
  | .mk first rest => by
      simp [Expression.code, Expression.print, Term.inRange_code_iff first,
        Operations.inRange_code_iff rest]
theorem Operations.inRange_code_iff : ∀ o : Operations,
    InRange (o.code env r) ↔ TextsInRange o.print
  | .nil => by simp [Operations.code, Operations.print]
  | .cons op t rest => by
      have hop := inRange_binaryCommand (r := r) op
      simp only [Operations.code, Operations.print, inRange_append, hop, and_true,
        textsInRange_append, textsInRange_cons, inRange_mark, textsInRange_nil, true_and,
        Term.inRange_code_iff t, Operations.inRange_code_iff rest]
theorem ArgumentList.inRange_code_iff : ∀ a : ArgumentList,
    InRange (a.code env r) ↔ TextsInRange a.print
  | .nil => by simp [ArgumentList.code, ArgumentList.print]
  | .cons e rest => by
      simp [ArgumentList.code, ArgumentList.print, Expression.inRange_code_iff e,
        ArgumentList.inRange_code_iff_more rest]
theorem ArgumentList.inRange_code_iff_more : ∀ a : ArgumentList,
    InRange (a.code env r) ↔ TextsInRange a.printMore
  | .nil => by simp [ArgumentList.code, ArgumentList.printMore]
  | .cons e rest => by
      simp [ArgumentList.code, ArgumentList.printMore, Expression.inRange_code_iff e,
        ArgumentList.inRange_code_iff_more rest]
end

/-! ## Statements -/

mutual
theorem Statement.inRange_code_iff : ∀ (s : Statement) (k : Nat),
    InRange (s.code env r label k) ↔ TextsInRange s.print
  | .letVar x e, _ => by
      have hstore : InRange (env.store x.text) := inRange_store x.text
      simp [Statement.code, Statement.print, hstore, Expression.inRange_code_iff e]
  | .letElement x i e, _ => by
      have hload : InRange (env.load x.text) := inRange_load x.text
      simp [Statement.code, Statement.print, hload, Expression.inRange_code_iff i,
        Expression.inRange_code_iff e, Instruction.constant?]
  | .ifThen c b, k => by
      simp [Statement.code, Statement.print, printCondition, Expression.inRange_code_iff c,
        StatementList.inRange_code_iff b, Instruction.constant?]
  | .ifElse c b b', k => by
      simp [Statement.code, Statement.print, printCondition, Expression.inRange_code_iff c,
        StatementList.inRange_code_iff b, StatementList.inRange_code_iff b',
        Instruction.constant?]
  | .whileDo c b, k => by
      simp [Statement.code, Statement.print, printCondition, Expression.inRange_code_iff c,
        StatementList.inRange_code_iff b, Instruction.constant?]
  | .doCall f args, _ => by
      have hcall : InRange ((Term.call f args).code env r) ↔
          TextsInRange (f.print ++ [mark '('] ++ args.print ++ [mark ')']) :=
        Term.inRange_code_iff _
      simp [Statement.code, Statement.print, printCall, hcall, Instruction.constant?]
  | .returnNothing, _ => by simp [Statement.code, Statement.print, Instruction.constant?]
  | .returnValue e, _ => by
      simp [Statement.code, Statement.print, Expression.inRange_code_iff e, Instruction.constant?]
theorem StatementList.inRange_code_iff : ∀ (ss : StatementList) (k : Nat),
    InRange (ss.code env r label k) ↔ TextsInRange ss.print
  | .nil, _ => by simp [StatementList.code, StatementList.print]
  | .cons s rest, k => by
      simp [StatementList.code, StatementList.print, Statement.inRange_code_iff s,
        StatementList.inRange_code_iff rest]
end

/-! ## Subroutines and classes -/

/-- Only a constructor pushes a constant before its statements: the number of fields. -/
theorem Env.inRange_header_iff : InRange (env.header r) ↔
    (env.kind = .constructor →
      (UInt32.ofNat (countOf .field env.ofClass)).toNat ≤ maxInteger) := by
  unfold Env.header
  cases env.kind with
  | constructor => simp [Instruction.constant?]
  | method => simp [Instruction.constant?]
  | function => simp [Instruction.constant?]

theorem VarDec.textsInRange (d : VarDec) : TextsInRange d.print := by
  simp [VarDec.print, textsInRange_flatMap]

theorem textsInRange_parameters (ps : List Parameter) : TextsInRange (printParameters ps) := by
  cases ps with
  | nil => exact textsInRange_nil
  | cons p ps => simp [printParameters, Parameter.print, textsInRange_flatMap]

/-- The string constants of a subroutine are in its body. -/
theorem Subroutine.textsInRange_iff (sub : Subroutine) :
    TextsInRange sub.print ↔ TextsInRange sub.body.print := by
  have hresult : (printResult sub.result).InRange := by
    unfold printResult
    split
    · exact inRange_word _
    · exact inRange_type _
  have hlocals : TextsInRange (sub.locals.flatMap fun d => word "var" :: d.print) := by
    simp [textsInRange_flatMap, VarDec.textsInRange]
  simp [Subroutine.print, hresult, hlocals, textsInRange_parameters]

theorem Class.textsInRange_iff (c : Class) :
    TextsInRange c.print ↔ ∀ sub ∈ c.subroutines, TextsInRange sub.body.print := by
  have hvars : TextsInRange (c.classVars.flatMap ClassVarDec.print) := by
    simp [textsInRange_flatMap, ClassVarDec.print, VarDec.textsInRange]
  simp [Class.print, hvars, textsInRange_flatMap, Subroutine.textsInRange_iff]

/-- The number of fields of a class, as a machine word, is in range. -/
def Class.FieldsInRange (c : Class) : Prop :=
  (UInt32.ofNat (countOf .field c.decls)).toNat ≤ maxInteger

theorem Class.inRange_wordCode_iff (c : Class) :
    InRange (c.subroutines.flatMap (Subroutine.wordCode r c)) ↔
      TextsInRange c.print ∧
        ((∃ sub ∈ c.subroutines, sub.kind = .constructor) → c.FieldsInRange) := by
  have hsub : ∀ sub : Subroutine, InRange (sub.wordCode r c) ↔
      (sub.kind = .constructor → c.FieldsInRange) ∧ TextsInRange sub.body.print := by
    intro sub
    rw [Subroutine.wordCode, inRange_append, Env.inRange_header_iff,
      StatementList.inRange_code_iff]
    rfl
  rw [inRange_flatMap, Class.textsInRange_iff]
  simp only [hsub]
  constructor
  · intro h
    refine ⟨fun sub hmem => (h sub hmem).2, ?_⟩
    rintro ⟨sub, hmem, hkind⟩
    exact (h sub hmem).1 hkind
  · rintro ⟨htexts, hfields⟩ sub hmem
    exact ⟨fun hkind => hfields ⟨sub, hmem, hkind⟩, htexts sub hmem⟩

end

end Tree

namespace Compilation

open JackVm.Tree

/-- The constants of an accepted source text are in range exactly when its string constants are,
and the number of its fields unless it has no constructor. Its integer constants always are. -/
theorem ofSource_constants_in_range {t : Target} {table : VariableTable} {source : String}
    {outlet : Outlet} (h : (ofSource t table source outlet).result = .ok ()) :
    ∃ tokens, ∃ c : Tree.Class, scan source = .ok tokens ∧ tokens.map (·.toLexeme) = c.print ∧
      ((∀ n, .push .constant n ∈ (ofSource t table source outlet).sink.code →
          n.toNat ≤ maxInteger) ↔
        (∀ token ∈ tokens, token.kind = .stringConstant → TextInRange token.text) ∧
          ((∃ sub ∈ c.subroutines, sub.kind = .constructor) → c.FieldsInRange)) := by
  obtain ⟨tokens, c, hscan, hprint, hok, hsink⟩ := exists_class_of_ofSource h
  obtain ⟨-, hcode⟩ := valid_of_ofTokens hprint hok
  refine ⟨tokens, c, hscan, hprint, ?_⟩
  have htexts : (∀ token ∈ tokens, token.kind = .stringConstant → TextInRange token.text) ↔
      TextsInRange c.print := by
    rw [← hprint]
    simp [TextsInRange, Lexeme.InRange]
  rw [htexts, ← Class.inRange_wordCode_iff, ← hcode, ← hsink]
  simp only [InRange, mem_constants_iff]

/-- The source text of a class with a field, a constructor and a string constant. -/
def greetingSource : String :=
  "class A\x7bfield int x;constructor A new()\x7bdo Output.printString(\"hi\");return this;\x7d\x7d"

theorem ofSource_constants_in_range_greeting :
    (ofSource ⟨"A", {}⟩ {} greetingSource {}).result = .ok () ∧
      ∃ tokens, ∃ c : Tree.Class, scan greetingSource = .ok tokens ∧
        tokens.map (·.toLexeme) = c.print ∧
        ((∀ n, .push .constant n ∈ (ofSource ⟨"A", {}⟩ {} greetingSource {}).sink.code →
            n.toNat ≤ maxInteger) ↔
          (∀ token ∈ tokens, token.kind = .stringConstant → TextInRange token.text) ∧
            ((∃ sub ∈ c.subroutines, sub.kind = .constructor) → c.FieldsInRange)) := by
  have h : (ofSource ⟨"A", {}⟩ {} greetingSource {}).result = .ok () := by
    rw [ofSource_eq]
    exact result_eq_ok (by decide +kernel)
  exact ⟨h, ofSource_constants_in_range h⟩

/-- The source text of a class with a character beyond the range. -/
def wideSource : String := "class A\x7bfunction int f()\x7breturn \"\u8000\";\x7d\x7d"

/-- An accepted class may push a constant that the machine cannot push. -/
theorem ofSource_pushes_beyond_range :
    (ofSource ⟨"A", {}⟩ {} wideSource {}).result = .ok () ∧
      ∃ n, .push .constant n ∈ (ofSource ⟨"A", {}⟩ {} wideSource {}).sink.code ∧
        maxInteger < n.toNat := by
  have hrun : (ofSource ⟨"A", {}⟩ {} wideSource {}).result.isOk = true ∧
      .push .constant 32768 ∈ (ofSource ⟨"A", {}⟩ {} wideSource {}).sink.code := by
    rw [ofSource_eq]
    decide +kernel
  exact ⟨result_eq_ok hrun.1, 32768, hrun.2, by decide⟩

end Compilation

end JackVm
