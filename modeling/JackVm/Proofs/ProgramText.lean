import JackVm.Proofs.History
import JackVm.Proofs.Invariants
import JackVm.Proofs.Limits
import JackVm.Proofs.Parts

/-!
# The text of a program is read back

An instruction is written as words with a blank between them, and a program as its lines.
As long as names are not empty and have no white space, the words of a line and the lines
of a program are found again, and with them the instructions (`readProgram?_programText`).
The names in compiled code are such, on every way out of a compilation (`named_ofSource`).
-/

namespace JackVm

/-! ## Texts without white space -/

/-- The text has no white space. -/
def Text.Blankless (text : String) : Prop := ∀ c ∈ text.toList, Text.isBlank c = false

-- Named, since the search may also find the instance that goes through all characters.
instance : DecidablePred Text.Blankless := fun text =>
  List.decidableBAll (Text.isBlank · = false) text.toList

/-- All visible ASCII characters are in this range. -/
theorem Text.isBlank_eq_false {c : Char} (hlow : 32 < c.toNat) (hhigh : c.toNat < 133) :
    Text.isBlank c = false := by
  simp only [Text.isBlank, Text.blankRanges, List.any_cons, List.any_nil, Bool.or_false,
    Bool.or_eq_false_iff, Bool.and_eq_false_iff, decide_eq_false_iff_not]
  omega

@[simp] theorem Text.blankless_append {a b : String} :
    Text.Blankless (a ++ b) ↔ Text.Blankless a ∧ Text.Blankless b := by
  unfold Text.Blankless
  rw [String.toList_append, List.forall_mem_append]

/-- The text is one word: it is not empty and has no white space. -/
def Text.Word (text : String) : Prop := text ≠ "" ∧ Text.Blankless text

instance : DecidablePred Text.Word := fun text =>
  inferInstanceAs (Decidable (text ≠ "" ∧ Text.Blankless text))

theorem Text.word_append {a b : String} (ha : Text.Blankless a) (hb : Text.Word b) :
    Text.Word (a ++ b) :=
  ⟨by simp [hb.1], Text.blankless_append.mpr ⟨ha, hb.2⟩⟩

theorem Text.word_dotted {a b : String} (ha : Text.Blankless a) (hb : Text.Blankless b) :
    Text.Word (a ++ "." ++ b) := by
  have hdot : Text.Blankless "." := by decide
  exact ⟨by simp, by simp [ha, hb, hdot]⟩

theorem Text.isDigits_repr (n : Nat) : Text.isDigits n.repr.toList = true := by
  rw [Nat.toList_repr, Text.isDigits, Bool.and_eq_true, List.all_eq_true]
  refine ⟨by simp [Nat.toDigits_ne_nil], ?_⟩
  intro c hc
  exact Nat.isDigit_of_mem_toDigits (by decide) (by decide) hc

theorem Text.isBlank_of_isDigit {c : Char} (h : c.isDigit = true) : Text.isBlank c = false := by
  obtain ⟨hlow, hhigh⟩ := Char.isDigit_iff_toNat.mp h
  have hzero : '0'.toNat = 48 := rfl
  have hnine : '9'.toNat = 57 := rfl
  exact Text.isBlank_eq_false (by omega) (by omega)

@[simp] theorem Text.blankless_repr (n : Nat) : Text.Blankless n.repr := by
  intro c hc
  have hdigits := Text.isDigits_repr n
  rw [Text.isDigits, Bool.and_eq_true, List.all_eq_true] at hdigits
  exact Text.isBlank_of_isDigit (hdigits.2 c hc)

/-- A number is read back. -/
theorem Text.readWord?_repr (n : UInt32) : Text.readWord? n.toNat.repr = some n := by
  have hdigits := Text.isDigits_repr n.toNat
  have hplus : Text.dropPlus n.toNat.repr.toList = n.toNat.repr.toList := by
    unfold Text.dropPlus
    split
    · next cs hcs => simp [Text.isDigits, hcs, Char.isDigit] at hdigits
    · rfl
  have hvalue : Text.digitsValue n.toNat.repr.toList = n.toNat := by
    rw [Nat.toList_repr]
    exact Nat.ofDigitChars_ten_toDigits
  simp only [Text.readWord?, hplus, hvalue, hdigits, n.toNat_lt_size, decide_true, Bool.and_true,
    if_true, UInt32.ofNat_toNat]

/-! ## Lines -/

/-- The segment of a name. -/
def Segment.ofName? (name : String) : Option Segment :=
  [.constant, .argument, .locals, .static, .this, .that, .pointer, .temp].find? (·.name = name)

/-- The command of a name. -/
def Command.ofName? (name : String) : Option Command :=
  [.add, .sub, .neg, .eq, .gt, .lt, .and, .or, .not].find? (·.name = name)

/-- The instruction that the words of a line are. -/
def Instruction.ofWords? : List String → Option Instruction
  | ["return"] => some .ret
  | [name] => (Command.ofName? name).map .command
  | ["label", name] => some (.label name)
  | ["goto", name] => some (.goto name)
  | ["if-goto", name] => some (.ifGoto name)
  | [first, name, number] => do
      let n ← Text.readWord? number
      match first with
      | "push" => (Segment.ofName? name).map (.push · n)
      | "pop" => (Segment.ofName? name).map (.pop · n)
      | "call" => some (.call name n)
      | "function" => some (.function name n)
      | _ => none
  | _ => none

/-- The words of a line, which white space separates. -/
def lineWords (line : List Char) : List String := (line.splitOnP Text.isBlank).map String.ofList

/-- The instructions of a text, one on each line. The last line is ended, too. -/
def readProgram? (text : String) : Option (List Instruction) :=
  let pieces := text.toList.splitOn '\n'
  if pieces.getLast? = some [] then
    pieces.dropLast.mapM fun line => Instruction.ofWords? (lineWords line)
  else none

/-- The names in an instruction are words. -/
def Instruction.Named : Instruction → Prop
  | .label name | .goto name | .ifGoto name | .call name _ | .function name _ => Text.Word name
  | .push _ _ | .pop _ _ | .command _ | .ret => True

instance : DecidablePred Instruction.Named
  | .label name | .goto name | .ifGoto name | .call name _ | .function name _ =>
      inferInstanceAs (Decidable (Text.Word name))
  | .push _ _ | .pop _ _ | .command _ | .ret => inferInstanceAs (Decidable True)

theorem Segment.ofName?_name (s : Segment) : Segment.ofName? s.name = some s := by
  cases s <;> decide

/-- The words that an instruction is written as. -/
def Instruction.words : Instruction → List String
  | .push segment index => ["push", segment.name, index.toNat.repr]
  | .pop segment index => ["pop", segment.name, index.toNat.repr]
  | .command c => [c.name]
  | .label name => ["label", name]
  | .goto name => ["goto", name]
  | .ifGoto name => ["if-goto", name]
  | .call name arguments => ["call", name, arguments.toNat.repr]
  | .function name locals => ["function", name, locals.toNat.repr]
  | .ret => ["return"]

theorem Instruction.ofWords?_words (i : Instruction) : Instruction.ofWords? i.words = some i := by
  cases i with
  | push segment index =>
      simp [words, ofWords?, Text.readWord?_repr, Segment.ofName?_name]
  | pop segment index =>
      simp [words, ofWords?, Text.readWord?_repr, Segment.ofName?_name]
  | command c => cases c <;> rfl
  | call name arguments => simp [words, ofWords?, Text.readWord?_repr]
  | function name locals => simp [words, ofWords?, Text.readWord?_repr]
  | label name => rfl
  | goto name => rfl
  | ifGoto name => rfl
  | ret => rfl

theorem Instruction.render_eq (i : Instruction) : i.render = " ".intercalate i.words := by
  cases i <;> simp [render, words, String.intercalate_cons_cons, String.append_assoc]

theorem Instruction.words_ne_nil (i : Instruction) : i.words ≠ [] := by
  cases i <;> simp [words]

theorem Segment.blankless_name (s : Segment) : Text.Blankless s.name := by
  cases s <;> decide

theorem Command.blankless_name (c : Command) : Text.Blankless c.name := by
  cases c <;> decide

theorem Instruction.Named.blankless_words {i : Instruction} (h : i.Named) :
    ∀ w ∈ i.words, Text.Blankless w := by
  have hwords : ∀ w ∈ ["push", "pop", "label", "goto", "if-goto", "call", "function", "return"],
      Text.Blankless w := by decide
  cases i with
  | push segment index => simp [words, hwords, segment.blankless_name]
  | pop segment index => simp [words, hwords, segment.blankless_name]
  | command c => simp [words, c.blankless_name]
  | label name => simp [words, hwords, h.2]
  | goto name => simp [words, hwords, h.2]
  | ifGoto name => simp [words, hwords, h.2]
  | call name arguments => simp [words, hwords, h.2]
  | function name locals => simp [words, hwords, h.2]
  | ret => simp [words, hwords]

theorem toList_intercalate_cons (w w' : String) (ws : List String) :
    (" ".intercalate (w :: w' :: ws)).toList =
      w.toList ++ ' ' :: (" ".intercalate (w' :: ws)).toList := by
  rw [String.intercalate_cons_cons, String.toList_append, String.toList_append]
  simp

/-- Words that are put together with blanks are found again. -/
theorem lineWords_intercalate : ∀ {ws : List String}, ws ≠ [] → (∀ w ∈ ws, Text.Blankless w) →
    lineWords (" ".intercalate ws).toList = ws
  | [w], _, h => by
      rw [String.intercalate_singleton, lineWords,
        List.splitOnP_eq_singleton (h w List.mem_cons_self), List.map_singleton,
        String.ofList_toList]
  | w :: w' :: ws, _, h => by
      rw [List.forall_mem_cons] at h
      have ih := lineWords_intercalate (List.cons_ne_nil w' ws) h.2
      rw [toList_intercalate_cons, lineWords,
        List.splitOnP_append_cons_of_forall_mem h.1 ' ' (by decide), List.map_cons,
        String.ofList_toList]
      exact congrArg (w :: ·) ih

/-- Words that are put together with blanks are on one line. -/
theorem not_mem_intercalate : ∀ {ws : List String}, (∀ w ∈ ws, Text.Blankless w) →
    '\n' ∉ (" ".intercalate ws).toList
  | [], _ => by simp
  | [w], h => by
      rw [String.intercalate_singleton]
      intro hmem
      exact absurd (h w List.mem_cons_self _ hmem) (by decide)
  | w :: w' :: ws, h => by
      rw [List.forall_mem_cons] at h
      rw [toList_intercalate_cons, List.mem_append, List.mem_cons]
      rintro (hmem | hmem | hmem)
      · exact absurd (h.1 _ hmem) (by decide)
      · exact absurd hmem (by decide)
      · exact not_mem_intercalate h.2 hmem

/-! ## Programs -/

/-- The line of an instruction is read back. -/
theorem Instruction.Named.ofWords?_render {i : Instruction} (h : i.Named) :
    Instruction.ofWords? (lineWords i.render.toList) = some i := by
  rw [i.render_eq, lineWords_intercalate i.words_ne_nil h.blankless_words, i.ofWords?_words]

theorem toList_programText (code : List Instruction) :
    (programText code).toList = code.flatMap fun i => i.render.toList ++ ['\n'] := by
  induction code using List.reverseRecOn with
  | nil => rfl
  | append_singleton code i ih =>
      rw [programText_concat, String.toList_append, ih, List.flatMap_append, List.flatMap_singleton,
        Instruction.line, String.toList_append]
      rfl

/-- One line for each instruction, and nothing after the end of the last. -/
theorem splitOn_programText {code : List Instruction} (h : ∀ i ∈ code, i.Named) :
    (programText code).toList.splitOn '\n' = code.map (·.render.toList) ++ [[]] := by
  rw [toList_programText]
  induction code with
  | nil => rfl
  | cons i code ih =>
      obtain ⟨hi, hrest⟩ := List.forall_mem_cons.mp h
      have hline : '\n' ∉ i.render.toList := by
        rw [i.render_eq]
        exact not_mem_intercalate hi.blankless_words
      rw [List.flatMap_cons, List.append_assoc, List.singleton_append,
        List.splitOn_append_cons_self_of_not_mem hline, ih hrest]
      rfl

theorem mapM_ofWords?_render : ∀ {code : List Instruction}, (∀ i ∈ code, i.Named) →
    (code.map (·.render.toList)).mapM (fun line => Instruction.ofWords? (lineWords line)) =
      some code
  | [], _ => rfl
  | i :: code, h => by
      obtain ⟨hi, hrest⟩ := List.forall_mem_cons.mp h
      rw [List.map_cons, List.mapM_cons, hi.ofWords?_render, mapM_ofWords?_render hrest]
      rfl

theorem readProgram?_programText {code : List Instruction} (h : ∀ i ∈ code, i.Named) :
    readProgram? (programText code) = some code := by
  rw [readProgram?, splitOn_programText h, List.getLast?_append, List.dropLast_concat,
    mapM_ofWords?_render h]
  rfl

/-! ## The names in compiled code -/

/-- The names in a callee. -/
def Callee.names : Callee → List String
  | .bare name => [name]
  | .dotted receiver name => [receiver, name]

/-- The names in an event that the code may name later. A variable's own name is not
among them. -/
def Event.names : Event → List String
  | .className name | .subroutine name => [name]
  | .declare _ type _ => [type]
  | .resolve callee | .receive callee | .call callee _ => callee.names
  | _ => []

/-- The names that a goal has read and will put into events. -/
def Goal.names : Goal → List String
  | .varName _ type | .moreNames _ type => [type]
  | .nameRest name | .callRest name | .calleeName name => [name]
  | .arguments callee | .moreArguments callee _ => callee.names
  | _ => []

/-- The names in an item have no white space. -/
def Item.Blankless : Item → Prop
  | .need g => ∀ name ∈ g.names, Text.Blankless name
  | .raise e => ∀ name ∈ e.names, Text.Blankless name

@[simp] theorem Item.blankless_need {g : Goal} :
    (Item.need g).Blankless ↔ ∀ name ∈ g.names, Text.Blankless name := Iff.rfl

@[simp] theorem Item.blankless_raise {e : Event} :
    (Item.raise e).Blankless ↔ ∀ name ∈ e.names, Text.Blankless name := Iff.rfl

/-- What is known of names has no white space. -/
structure Scope.Blankless (s : Scope) : Prop where
  className : Text.Blankless s.className
  subroutine : Text.Blankless s.subroutine
  ofClass : ∀ b ∈ s.table.ofClass, Text.Blankless b.2.type
  ofSubroutine : ∀ b ∈ s.table.ofSubroutine, Text.Blankless b.2.type

/-- The classes of the runtime have no white space in their names. -/
structure Runtime.Blankless (r : Runtime) : Prop where
  memory : Text.Blankless r.memory
  math : Text.Blankless r.math
  string : Text.Blankless r.string

/-! ### Goals -/

section
variable {l : Lexeme} {items : List Item}

theorem Text.isBlank_of_isAlpha {c : Char} (h : c.isAlpha = true) : Text.isBlank c = false := by
  obtain ⟨hlow, hhigh⟩ := toNat_of_isAlpha h
  have hA : 'A'.toNat = 65 := rfl
  have hz : 'z'.toNat = 122 := rfl
  exact Text.isBlank_eq_false (by omega) (by omega)

theorem Text.isBlank_of_opensIdentifier {c : Char} (h : opensIdentifier c = true) :
    Text.isBlank c = false := by
  rw [opensIdentifier, Bool.or_eq_true, beq_iff_eq] at h
  rcases h with h | rfl
  · exact Text.isBlank_of_isAlpha h
  · decide

theorem Text.blankless_of_isIdentifier {text : String} (h : isIdentifier text.toList = true) :
    Text.Blankless text := by
  unfold Text.Blankless
  cases htext : text.toList with
  | nil => simp
  | cons c cs =>
      rw [htext, isIdentifier, Bool.and_eq_true, List.all_eq_true] at h
      refine List.forall_mem_cons.mpr ⟨Text.isBlank_of_opensIdentifier h.1, ?_⟩
      intro d hd
      rcases Bool.or_eq_true_iff.mp (h.2 d hd) with hd | hd
      · exact Text.isBlank_of_opensIdentifier hd
      · exact Text.isBlank_of_isDigit hd

theorem Lexeme.Proper.blankless_name (hl : l.Proper) {n : String} (h : l.name? = some n) :
    Text.Blankless n := by
  obtain ⟨x, -, rfl⟩ := Tree.exists_identifier hl h
  exact Text.blankless_of_isIdentifier x.spelled

theorem Lexeme.Proper.blankless_type (hl : l.Proper) {type : String} (h : l.type? = some type) :
    Text.Blankless type := by
  obtain ⟨type, -, rfl⟩ := Tree.exists_type hl h
  cases type with
  | object x => exact Text.blankless_of_isIdentifier x.spelled
  | _ => decide

theorem blankless_termParts (hl : l.Proper) : ∀ i ∈ termParts l, i.Blankless := by
  obtain ⟨kind, text⟩ := l
  cases kind with
  | identifier => simpa [termParts, Goal.names] using hl.blankless_name rfl
  | _ => simp [termParts, Goal.names, Event.names]

theorem blankless_expressionParts (hl : l.Proper) : ∀ i ∈ expressionParts l, i.Blankless := by
  rw [expressionParts, List.forall_mem_append]
  exact ⟨blankless_termParts hl, by simp [Goal.names]⟩

theorem blankless_statementParts : ∀ i ∈ statementParts, i.Blankless := by
  simp [statementParts, conditionItems, blockItems, Goal.names, Event.names]

theorem blankless_argumentItems {callee : Callee} (h : ∀ name ∈ callee.names, Text.Blankless name) :
    ∀ i ∈ argumentItems callee, i.Blankless := by
  simpa [argumentItems, Goal.names, Event.names] using h

/-- A goal hands on the names it has, and takes another from its lexeme only. -/
theorem Goal.blankless_parts (hl : l.Proper) {g : Goal} (hg : Item.Blankless (.need g)) :
    ∀ i ∈ g.parts l, i.Blankless := by
  have hname : ∀ n, l.name? = some n → Text.Blankless n := fun _ => hl.blankless_name
  have htype : ∀ type, l.type? = some type → Text.Blankless type := fun _ => hl.blankless_type
  have hexpression := blankless_expressionParts hl
  cases g with
  | classDec | symbol _ | members _ | resultType _ | moreParameters | letRest _ | elsePart
  | returnEnd =>
      simp [parts, subroutineItems, blockItems, names, Event.names]
  | className | subroutineName | callStatement =>
      simpa [parts, names, Event.names] using hname
  | varType _ | parameters | parameterType =>
      simp only [parts, List.forall_mem_flatMap, Option.mem_toList]
      simpa [names] using htype
  | letTarget | operators =>
      simp only [parts, List.forall_mem_flatMap]
      simp [names, Event.names]
  | varName _ _ => simpa [parts, names, Event.names] using fun _ _ => hg
  | moreNames _ _ => simpa [parts, names] using hg
  | term => exact blankless_termParts hl
  | expression => exact hexpression
  | statements | moreStatements => exact blankless_statementParts
  | body =>
      simp only [parts, List.forall_mem_cons]
      exact ⟨by simp [names], by simp [names], by simp [Event.names], blankless_statementParts⟩
  | returnRest =>
      simp only [parts, List.forall_mem_cons]
      exact ⟨by simp [Event.names], by simp [Event.names], by simp [names], hexpression⟩
  | nameRest n =>
      simp only [parts, List.forall_mem_append]
      exact ⟨by simpa [names, Event.names] using hg, blankless_argumentItems hg⟩
  | callRest n =>
      simp only [parts, List.forall_mem_cons]
      exact ⟨hg, blankless_argumentItems hg⟩
  | calleeName r =>
      have hcallee : ∀ n, l.name? = some n → ∀ name ∈ (Callee.dotted r n).names,
          Text.Blankless name := by
        intro n hn
        exact List.forall_mem_cons.mpr ⟨hg r List.mem_cons_self, by simpa [] using hname n hn⟩
      simp only [parts, List.forall_mem_flatMap, Option.mem_toList, List.forall_mem_cons]
      exact fun n hn => ⟨hcallee n hn, by simp [names], blankless_argumentItems (hcallee n hn)⟩
  | arguments callee =>
      simp only [parts, List.forall_mem_cons]
      exact ⟨hg, hg, hexpression⟩
  | moreArguments callee count =>
      simp only [parts, List.forall_mem_cons]
      exact ⟨hg, by simp [names], hg, by simp⟩

end

/-! ### Scopes -/

namespace Scope.Blankless

variable {s : Scope} (h : s.Blankless)
include h

theorem get? {name : String} {v : Variable} (hv : s.table.get? name = some v) :
    Text.Blankless v.type := by
  have hmem : ∀ {bs : Bindings}, bs.lookup name = some v → (name, v) ∈ bs := by
    intro bs hbs
    obtain ⟨before, after, rfl, -⟩ := List.lookup_eq_some_iff.mp hbs
    simp
  rcases Option.or_eq_some_iff.mp hv with hv | ⟨-, hv⟩
  · exact h.ofSubroutine _ (hmem hv)
  · exact h.ofClass _ (hmem hv)

theorem word_qualify {name : String} (hname : Text.Blankless name) :
    Text.Word (s.qualify name) := Text.word_dotted h.className hname

theorem word_label {tag : String} (htag : Text.Blankless tag) (n : UInt32) :
    Text.Word (s.label tag n) := by
  have hqualified := (h.word_qualify h.subroutine).2
  have hdollar : Text.Blankless "$" := by decide
  exact ⟨by simp [Scope.label], by simp [Scope.label, hqualified, hdollar, htag]⟩

theorem word_resolve {callee : Callee} (hcallee : ∀ name ∈ callee.names, Text.Blankless name)
    {r : Resolved} (hr : s.resolve callee = .ok r) : Text.Word r.name := by
  cases callee with
  | bare name =>
      simp only [Scope.resolve] at hr
      split at hr
      · obtain rfl := Except.ok.inj hr
        exact h.word_qualify (hcallee name List.mem_cons_self)
      · cases hr
  | dotted receiver name =>
      have hname := hcallee name (by simp [Callee.names])
      simp only [Scope.resolve] at hr
      split at hr
      · obtain rfl := Except.ok.inj hr
        exact Text.word_dotted (hcallee receiver (by simp [Callee.names])) hname
      · next v hv =>
          split at hr
          · cases hr
          split at hr
          · cases hr
          · obtain rfl := Except.ok.inj hr
            exact Text.word_dotted (h.get? hv) hname

theorem add (name : String) {type : String} (htype : Text.Blankless type) (storage : Storage) :
    Scope.Blankless { s with table := s.table.add name type storage } := by
  have hinsert : ∀ {bs : Bindings} {v : Variable}, v.type = type →
      (∀ b ∈ bs, Text.Blankless b.2.type) →
      ∀ b ∈ insertBinding name v bs, Text.Blankless b.2.type := by
    intro bs v hv hbs b hb
    rcases List.mem_cons.mp ((perm_insertBinding name v bs).mem_iff.mp hb) with rfl | hb
    · exact hv ▸ htype
    · exact hbs b hb
  cases storage with
  | static | field => exact ⟨h.className, h.subroutine, hinsert rfl h.ofClass, h.ofSubroutine⟩
  | argument | var => exact ⟨h.className, h.subroutine, h.ofClass, hinsert rfl h.ofSubroutine⟩

theorem enter : s.enter.Blankless := by
  have hdropped : Scope.Blankless { s with table := s.table.dropLocals } :=
    ⟨h.className, h.subroutine, h.ofClass, by simp [VariableTable.dropLocals]⟩
  have hadded := hdropped.add "this" h.className .argument
  unfold Scope.enter
  split
  · exact ⟨hadded.className, hadded.subroutine, hadded.ofClass, hadded.ofSubroutine⟩
  · exact ⟨hdropped.className, hdropped.subroutine, hdropped.ofClass, hdropped.ofSubroutine⟩

end Scope.Blankless

/-! ### Events -/

section
variable {r : Runtime} (hr : r.Blankless) {s : Scope}
include hr

theorem Runtime.Blankless.named_prologue (h : s.Blankless) : ∀ i ∈ s.prologue r, i.Named := by
  have hfunction : Text.Word (s.qualify s.subroutine) := h.word_qualify h.subroutine
  have halloc : Text.Word r.alloc := Text.word_append hr.memory (by decide)
  unfold Scope.prologue
  split <;> simp [Instruction.Named, hfunction, halloc]

theorem Runtime.Blankless.named_stringCode (text : String) : ∀ i ∈ stringCode r text, i.Named := by
  have hnew : Text.Word r.newString := Text.word_append hr.string (by decide)
  have happend : Text.Word r.appendChar := Text.word_append hr.string (by decide)
  simp only [stringCode, List.forall_mem_append, List.forall_mem_flatMap]
  simp [Instruction.Named, hnew, happend]

theorem Runtime.Blankless.named_binary (op : BinaryOp) : (op.code r).Named := by
  cases op with
  | mul | div => exact Text.word_append hr.math (by decide)
  | _ => trivial

end

/-- One event keeps the names of the scope, and names only such names in its code. -/
theorem Scope.Blankless.perform {t : Target} (hr : t.runtime.Blankless) {s s' : Scope} {e : Event}
    {code : List Instruction} (h : s.Blankless) (he : Item.Blankless (.raise e))
    (hperform : s.perform t e = .ok (s', code)) : s'.Blankless ∧ ∀ i ∈ code, i.Named := by
  have hopen : s.openConstruct.Blankless := ⟨h.className, h.subroutine, h.ofClass, h.ofSubroutine⟩
  have hclose : s.closeConstruct.Blankless := ⟨h.className, h.subroutine, h.ofClass, h.ofSubroutine⟩
  have hlabel : ∀ tag ∈ ["IF_FALSE", "IF_END", "WHILE_EXP", "WHILE_END"], ∀ n,
      Text.Word (s.label tag n) := fun tag htag => h.word_label (by revert tag; decide)
  cases e with
  | className name =>
      simp only [Scope.perform] at hperform
      split at hperform
      · cases hperform
        exact ⟨⟨he name List.mem_cons_self, h.subroutine, h.ofClass, h.ofSubroutine⟩, by simp⟩
      · cases hperform
  | declare storage type name =>
      simp only [Scope.perform, VariableTable.declare] at hperform
      split at hperform
      · next table htable =>
          split at htable
          · cases htable
          · cases htable
            cases hperform
            exact ⟨h.add _ (he type List.mem_cons_self) storage, by simp⟩
      · cases hperform
  | result kind type =>
      simp only [Scope.perform] at hperform
      split at hperform
      · cases hperform
      · cases hperform
        exact ⟨⟨h.className, h.subroutine, h.ofClass, h.ofSubroutine⟩, by simp⟩
  | subroutine name =>
      cases hperform
      exact ⟨⟨h.className, he name List.mem_cons_self, h.ofClass, h.ofSubroutine⟩, by simp⟩
  | enter =>
      cases hperform
      exact ⟨h.enter, by simp⟩
  | prologue =>
      cases hperform
      exact ⟨h, hr.named_prologue h⟩
  | target name | load name | store name =>
      obtain ⟨v, -, hv⟩ := exists_of_map_eq_ok hperform
      cases hv
      exact ⟨h, by simp [Instruction.Named]⟩
  | address | fetch | storeElement | discard | ret =>
      cases hperform
      exact ⟨h, by simp [Instruction.Named]⟩
  | ifBegin =>
      cases hperform
      exact ⟨hopen, by simp⟩
  | whileBegin =>
      cases hperform
      exact ⟨hopen, by simp [Instruction.Named, hlabel]⟩
  | ifTest | ifElse | whileTest =>
      cases hperform
      exact ⟨h, by simp [Instruction.Named, hlabel]⟩
  | ifEnd | whileEnd =>
      cases hperform
      exact ⟨hclose, by simp [Instruction.Named, hlabel]⟩
  | returnNothing | returnValue =>
      simp only [Scope.perform] at hperform
      split at hperform <;> cases hperform
      exact ⟨h, by simp [Instruction.Named]⟩
  | integer text =>
      simp only [Scope.perform] at hperform
      split at hperform <;> cases hperform
      exact ⟨h, by simp [Instruction.Named]⟩
  | string text =>
      cases hperform
      exact ⟨h, hr.named_stringCode text⟩
  | constant c =>
      cases c with
      | truth | falsity | null =>
          cases hperform
          exact ⟨h, by simp [Instruction.Named]⟩
      | self =>
          simp only [Scope.perform] at hperform
          split at hperform <;> cases hperform
          exact ⟨h, by simp [Instruction.Named]⟩
  | unary op =>
      cases hperform
      cases op <;> exact ⟨h, by simp [UnaryOp.code, Instruction.Named]⟩
  | binary op =>
      cases hperform
      exact ⟨h, by simp [hr.named_binary op]⟩
  | resolve callee =>
      obtain ⟨r, -, hcode⟩ := exists_of_map_eq_ok hperform
      cases hcode
      exact ⟨h, by simp⟩
  | receive callee =>
      obtain ⟨r, -, hcode⟩ := exists_of_map_eq_ok hperform
      cases hcode
      refine ⟨h, ?_⟩
      split <;> simp [Instruction.Named]
  | call callee n =>
      obtain ⟨r, hresolve, hcode⟩ := exists_of_map_eq_ok hperform
      cases hcode
      exact ⟨h, by simpa [Instruction.Named] using h.word_resolve he hresolve⟩

/-- The names in compiled code are words, when those of the runtime are. -/
def namedInvariant (t : Target) (hr : t.runtime.Blankless) : Invariant t where
  item := Item.Blankless
  lexeme := Lexeme.Proper
  scope := Scope.Blankless
  instruction := Instruction.Named
  parts hl hg := Goal.blankless_parts hl hg
  perform hs he hperform := hs.perform hr he hperform

theorem blankless_empty : Scope.Blankless {} := ⟨by decide, by decide, by simp, by simp⟩

theorem named_ofSource {t : Target} (hr : t.runtime.Blankless) (table : VariableTable)
    (source : String) (outlet : Outlet) :
    ∀ i ∈ (Compilation.ofSource t table source outlet).sink.code, i.Named := by
  unfold Compilation.ofSource
  split
  · simp [Sink.code]
  · next tokens htokens =>
      rw [Compilation.sink_flush, Compilation.ofTokens_sink]
      have hstart : (namedInvariant t hr).Holds { sink := { outlet := outlet } } :=
        ⟨by simp [classItems, namedInvariant, Goal.names], blankless_empty, by simp [Sink.code]⟩
      exact (Invariant.run hstart (proper_of_scan htokens)).code

/-- Instructions whose names are words are all taken by an outlet without a limit, one line
each, and read back from the text. Compiled code is such, whether the compilation went well
or not. -/
theorem program_text_read_back :
    (∀ (outlet : Outlet) (code : List Instruction), outlet.limit = none → (∀ i ∈ code, i.Named) →
      ∃ sink, ({ outlet := outlet } : Sink).writeAll code = (sink, none) ∧
        sink.text.toList.splitOn '\n' = code.map (·.render.toList) ++ [[]] ∧
        readProgram? sink.text = some code) ∧
    ∀ (t : Target) (table : VariableTable) (source : String) (outlet : Outlet),
      t.runtime.Blankless →
        let sink := (Compilation.ofSource t table source outlet).sink
        (∀ i ∈ sink.code, i.Named) ∧
          sink.text.toList.splitOn '\n' = sink.code.map (·.render.toList) ++ [[]] ∧
          readProgram? sink.text = some sink.code := by
  constructor
  · intro outlet code hlimit hcode
    obtain ⟨sink, hsink⟩ :=
      Sink.writeAll_unlimited (s := { outlet := outlet }) code hlimit
    have htext : sink.text = programText code := by
      rw [Sink.text, (Sink.writeAll_spec hsink).1]
      rfl
    refine ⟨sink, hsink, ?_⟩
    rw [htext]
    exact ⟨splitOn_programText hcode, readProgram?_programText hcode⟩
  · intro t table source outlet hr
    have hnamed := named_ofSource hr table source outlet
    exact ⟨hnamed, splitOn_programText hnamed, readProgram?_programText hnamed⟩

/-- A loop, a call on an object, and then a variable that is not declared. -/
def strayingSource : String :=
  "class Main { function void main(Point p) {
    while (true) { do p.draw(1); } let q = 2; return; } }"

/-- The largest number and the shortest names are read back, and what was written before a
fault is. -/
theorem program_text_read_back_straying :
    (∃ sink, ({} : Sink).writeAll [.call "." 4294967295, .label "$", .ret] = (sink, none) ∧
      readProgram? sink.text = some [.call "." 4294967295, .label "$", .ret]) ∧
    (Compilation.ofSource ⟨"Main", {}⟩ {} strayingSource {}).result.toBool = false ∧
      readProgram? (Compilation.ofSource ⟨"Main", {}⟩ {} strayingSource {}).sink.text =
        some [.function "Main.main" 0, .label "Main.main$WHILE_EXP0", .push .constant 0,
          .command .not, .command .not, .ifGoto "Main.main$WHILE_END1", .push .argument 0,
          .push .constant 1, .call "Point.draw" 2, .pop .temp 0, .goto "Main.main$WHILE_EXP0",
          .label "Main.main$WHILE_END1"] := by
  obtain ⟨hwritten, hcompiled⟩ := program_text_read_back
  obtain ⟨sink, hsink, -, hread⟩ := hwritten {} [.call "." 4294967295, .label "$", .ret] rfl
    (by decide)
  have hfails : (Compilation.ofSource ⟨"Main", {}⟩ {} strayingSource {}).result.toBool = false := by
    rw [Compilation.ofSource_eq]
    decide +kernel
  refine ⟨⟨sink, hsink, hread⟩, hfails, ?_⟩
  have hcode : (Compilation.ofSource ⟨"Main", {}⟩ {} strayingSource {}).sink.code =
      [.function "Main.main" 0, .label "Main.main$WHILE_EXP0", .push .constant 0,
        .command .not, .command .not, .ifGoto "Main.main$WHILE_END1", .push .argument 0,
        .push .constant 1, .call "Point.draw" 2, .pop .temp 0, .goto "Main.main$WHILE_EXP0",
        .label "Main.main$WHILE_END1"] := by
    rw [Compilation.ofSource_eq]
    decide +kernel
  rw [← hcode]
  exact (hcompiled ⟨"Main", {}⟩ {} strayingSource {} ⟨by decide, by decide, by decide⟩).2.2

end JackVm
