import JackVm.Failure

/-!
# What is said of a source, and what is not

There are texts that would tell of a defect of the compiler itself: of a move that the cursor
cannot make, of a subroutine of no kind, of an operator without code. Other texts may hold any
name, so a look at one text is not enough to tell them apart. But each has a fixed beginning or,
where a name comes first, a fixed end, and two beginnings of a text cannot disagree.

Main statement: what lies with the tokens is never put like a defect (`Cause.blamesSource`).
-/

namespace JackVm

/-! ## Beginnings and ends of texts -/

/-- The text begins with the characters. -/
def Opens (cs : List Char) (text : String) : Prop := cs <+: text.toList

/-- The text ends with the characters. -/
def Closes (cs : List Char) (text : String) : Prop := cs <:+ text.toList

theorem opens_ofList (cs : List Char) {more : List Char} :
    Opens cs (String.ofList (cs ++ more)) := by
  unfold Opens
  rw [String.toList_ofList]
  exact List.prefix_append _ _

theorem Opens.append {cs : List Char} {text : String} (h : Opens cs text) (rest : String) :
    Opens cs (text ++ rest) := by
  unfold Opens
  rw [String.toList_append]
  exact h.trans (List.prefix_append _ _)

theorem closes_append (cs : List Char) {last : List Char} (h : cs <:+ last) (text : String) :
    Closes cs (text ++ String.ofList last) := by
  unfold Closes
  rw [String.toList_append, String.toList_ofList]
  exact h.trans (List.suffix_append _ _)

/-! ## Texts about defects -/

/-- The texts that would tell of a defect. The last is said of an integer constant that cannot be
read; a scanner lets none through. -/
def defectTexts : List String :=
  ["No more tokens, but advance() is called.",
    "No previous tokens available for lookup, but retreat() is called.",
    "Expected constructor, function or method.", "Invalid integer constant."]

/-- The text does not tell of a defect, nor of an operator without code. -/
structure Harmless (text : String) : Prop where
  defect : text ∉ defectTexts
  operator : ∀ op : Char, text ≠ "Unknown operator " ++ op.toString

/-- How a complaint begins, up to the first character of what was expected. -/
def complaintStart (a : Char) : List Char := ['E', 'x', 'p', 'e', 'c', 't', 'e', 'd', ' ', a]

/-- How texts about defects begin. -/
def defectOpenings : List (List Char) :=
  [['N', 'o'], complaintStart 'c', ['I', 'n'], ['U', 'n']]

/-- How they end, but for an operator: that is any character, after a blank. -/
def defectClosings : List (List Char) :=
  [['l', 'e', 'd', '.'], ['h', 'o', 'd', '.'], ['a', 'n', 't', '.']]

theorem exists_opening {text : String} (h : text ∈ defectTexts) :
    ∃ d ∈ defectOpenings, Opens d text := by
  simp only [defectTexts, List.mem_cons, List.not_mem_nil, or_false] at h
  unfold Opens
  rcases h with rfl | rfl | rfl | rfl
  all_goals
    rw [String.toList_ofList]
    decide

theorem exists_closing {text : String} (h : text ∈ defectTexts) :
    ∃ d ∈ defectClosings, Closes d text := by
  simp only [defectTexts, List.mem_cons, List.not_mem_nil, or_false] at h
  unfold Closes
  rcases h with rfl | rfl | rfl | rfl
  all_goals
    rw [String.toList_ofList]
    decide

theorem Opens.ne_unknownOperator {cs : List Char} {text : String} (h : Opens cs text)
    (hcs : ¬cs <+: ['U', 'n'] ∧ ¬['U', 'n'] <+: cs) (op : Char) :
    text ≠ "Unknown operator " ++ op.toString := by
  rintro rfl
  have hop : Opens ['U', 'n'] ("Unknown operator " ++ op.toString) :=
    (opens_ofList ['U', 'n']).append _
  rcases List.prefix_or_prefix_of_prefix h hop with hprefix | hprefix
  · exact hcs.1 hprefix
  · exact hcs.2 hprefix

theorem Opens.harmless {cs : List Char} {text : String} (h : Opens cs text)
    (hcs : ∀ d ∈ defectOpenings, ¬cs <+: d ∧ ¬d <+: cs) : Harmless text := by
  constructor
  · intro hmem
    obtain ⟨d, hd, htext⟩ := exists_opening hmem
    rcases List.prefix_or_prefix_of_prefix h htext with hprefix | hprefix
    · exact (hcs d hd).1 hprefix
    · exact (hcs d hd).2 hprefix
  · exact h.ne_unknownOperator (hcs ['U', 'n'] (by decide))

theorem toList_unknownOperator (op : Char) :
    ("Unknown operator " ++ op.toString).toList = "Unknown operator ".toList ++ [op] := by
  rw [String.toList_append, Char.toString, String.toList_singleton]

theorem Closes.harmless {cs : List Char} {text : String} (h : Closes cs text)
    (hcs : (∀ d ∈ defectClosings, ¬cs <:+ d ∧ ¬d <:+ cs) ∧
      ¬cs.dropLast <:+ [' '] ∧ ¬[' '] <:+ cs.dropLast) : Harmless text := by
  obtain ⟨hclosings, hblank⟩ := hcs
  constructor
  · intro hmem
    obtain ⟨d, hd, htext⟩ := exists_closing hmem
    rcases List.suffix_or_suffix_of_suffix h htext with hsuffix | hsuffix
    · exact (hclosings d hd).1 hsuffix
    · exact (hclosings d hd).2 hsuffix
  · rintro op rfl
    -- the operator may be any character, so the one before it has to tell
    have hspace : [' '] <:+ "Unknown operator ".toList := by
      rw [String.toList_ofList]
      decide
    unfold Closes at h
    rw [toList_unknownOperator, List.suffix_concat_iff] at h
    rcases h with rfl | ⟨front, rfl, hfront⟩
    · exact hblank.1 List.nil_suffix
    · rw [List.dropLast_concat] at hblank
      rcases List.suffix_or_suffix_of_suffix hfront hspace with hsuffix | hsuffix
      · exact hblank.1 hsuffix
      · exact hblank.2 hsuffix

/-! ## Texts about tokens -/

theorem opens_quoteSymbol (c : Char) : Opens ['s'] (quoteSymbol c) :=
  ((opens_ofList ['s']).append _).append _

theorem Opens.complaint {a : Char} {text : String} (h : Opens [a] text) :
    Opens (complaintStart a) ("Expected " ++ text) := by
  unfold Opens
  rw [String.toList_append, String.toList_ofList]
  exact (List.prefix_append_right_inj ['E', 'x', 'p', 'e', 'c', 't', 'e', 'd', ' ']).mpr h

theorem Opens.harmless_complaint {a : Char} {text : String} (h : Opens (complaintStart a) text)
    (ha : a ≠ 'c') : Harmless text := by
  apply h.harmless
  simp [defectOpenings, complaintStart, ha, Ne.symm ha]

/-- What a goal waits for is never put like the kinds of subroutines. -/
theorem Goal.exists_opens_expectation : ∀ g : Goal, ∃ a, a ≠ 'c' ∧ Opens [a] g.expectation
  | .classDec | .elsePart => ⟨'k', by decide, opens_ofList ['k']⟩
  | .className | .varName _ _ | .letTarget | .subroutineName | .calleeName _ | .callStatement =>
      ⟨'i', by decide, opens_ofList ['i']⟩
  | .varType _ | .parameterType | .term => ⟨'t', by decide, opens_ofList ['t']⟩
  | .expression => ⟨'e', by decide, opens_ofList ['e']⟩
  | .moreStatements | .operators => ⟨'s', by decide, opens_ofList ['s']⟩
  | .resultType _ => ⟨'\x27', by decide, opens_ofList ['\x27']⟩
  | .body => ⟨'\x27', by decide, (opens_ofList ['\x27']).append _⟩
  | .statements => ⟨'k', by decide, (opens_ofList ['k']).append _⟩
  | .parameters => ⟨'t', by decide, (opens_ofList ['t']).append _⟩
  | .returnRest | .arguments _ => ⟨'e', by decide, (opens_ofList ['e']).append _⟩
  | .nameRest _ => ⟨'s', by decide, ((opens_ofList ['s']).append _).append _⟩
  | .symbol c => ⟨'s', by decide, opens_quoteSymbol c⟩
  | .returnEnd => ⟨'s', by decide, opens_quoteSymbol _⟩
  | .members _ => ⟨'s', by decide, (opens_quoteSymbol _).append _⟩
  | .moreNames _ _ | .moreParameters | .moreArguments _ _ | .letRest _ | .callRest _ =>
      ⟨'s', by decide, ((opens_quoteSymbol _).append _).append _⟩

theorem Goal.harmless_complaint (g : Goal) : Harmless g.complaint := by
  have hexpectation : ∀ g : Goal, Harmless ("Expected " ++ g.expectation) := by
    intro g
    obtain ⟨a, ha, hopens⟩ := g.exists_opens_expectation
    exact hopens.complaint.harmless_complaint ha
  cases g with
  | classDec => exact (opens_ofList ['T']).harmless (by decide)
  | varType _ | resultType _ | parameterType | term =>
      exact (opens_ofList (complaintStart 't')).harmless_complaint (by decide)
  | callStatement => exact (opens_ofList (complaintStart 'i')).harmless_complaint (by decide)
  | expression => exact (opens_ofList (complaintStart 'e')).harmless_complaint (by decide)
  | returnEnd =>
      exact ((opens_ofList (complaintStart 'e')).append _).harmless_complaint (by decide)
  | members _ =>
      exact ((opens_quoteSymbol _).complaint.append _).harmless_complaint (by decide)
  | _ => exact hexpectation _

theorem Goal.harmless_starvation (g : Goal) : Harmless g.starvation := by
  unfold Goal.starvation
  split
  · exact (opens_ofList ['T']).harmless (by decide)
  · exact (((opens_ofList ['N', 'e']).append _).append _).harmless (by decide)

theorem Refusal.harmless_message : ∀ r : Refusal, Harmless r.message
  | .unexpected g => g.harmless_complaint
  | .lateVariables => (opens_ofList ['c']).harmless (by decide)
  | .afterClass => (opens_ofList ['O']).harmless (by decide)

/-! ## Texts about rules -/

theorem harmless_needsObject (what : String) : Harmless (needsObject what) :=
  (closes_append ['o', 'n', '.'] (by decide) what).harmless (by decide)

theorem TableError.harmless_message : ∀ e : TableError, Harmless e.message
  | .redeclared _ _ => (closes_append [')', '.'] (by decide) _).harmless (by decide)
  | .undeclared name => (closes_append ['s', 't', '.'] (by decide) name).harmless (by decide)

/-- Only one rule is about what the scanner has made sure of. -/
theorem StaticError.harmless_message {e : StaticError} (he : e ≠ .invalidInteger) :
    Harmless e.message := by
  cases e with
  | wrongClass found expected =>
      have hopens : Opens ['C', 'l'] (StaticError.message (.wrongClass found expected)) :=
        ((((opens_ofList ['C', 'l']).append _).append _).append _).append _
      exact hopens.harmless (by decide)
  | constructorResult className =>
      have hopens : Opens ['C', 'o'] (StaticError.message (.constructorResult className)) :=
        ((opens_ofList ['C', 'o']).append _).append _
      exact hopens.harmless (by decide)
  | valueFromVoid | missingValue => exact (opens_ofList ['A', ' ']).harmless (by decide)
  | redeclared e => exact e.harmless_message
  | undefined name =>
      exact (closes_append ['n', 'e', 'd', '.'] (by decide) name).harmless (by decide)
  | primitiveReceiver name type =>
      exact (closes_append ['d', 's', '.'] (by decide) _).harmless (by decide)
  | fieldInFunction _ | selfInFunction | callInFunction _ => exact harmless_needsObject _
  | invalidInteger => exact absurd rfl he

/-! ## Causes -/

/-- The cause lies with the tokens: they end, or one is refused, or a rule is broken. -/
def Cause.IsOfSource : Cause → Prop
  | .starved _ | .refused _ | .static _ => True
  | .cursor _ | .noKind | .unknownOperator _ => False

theorem Cause.harmless_message {cause : Cause} (h : cause.IsOfSource)
    (hinteger : cause ≠ .static .invalidInteger) : Harmless cause.message := by
  cases cause with
  | starved g => exact g.harmless_starvation
  | refused r => exact r.harmless_message
  | static e =>
      apply StaticError.harmless_message
      rintro rfl
      exact hinteger rfl
  | cursor _ | noKind | unknownOperator _ => exact absurd h id

/-- The cause of a failure does not tell of a defect: not of a move that the cursor cannot make,
of a subroutine of no kind or of an operator without code; nor, if the tokens are those of a
source text, of an integer constant that cannot be read. -/
structure Cause.BlamesSource (cause : Cause) (tokens : List Token) : Prop where
  ahead : cause.message ≠ "No more tokens, but advance() is called."
  back : cause.message ≠ "No previous tokens available for lookup, but retreat() is called."
  kind : cause.message ≠ "Expected constructor, function or method."
  operator : ∀ op : Char, cause.message ≠ "Unknown operator " ++ op.toString
  integer : ∀ source, scan source = .ok tokens → cause.message ≠ "Invalid integer constant."

theorem Cause.blamesSource {cause : Cause} {tokens : List Token} (h : cause.IsOfSource)
    (hinteger : ∀ source, scan source = .ok tokens → cause ≠ .static .invalidInteger) :
    cause.BlamesSource tokens := by
  by_cases hcause : cause = .static .invalidInteger
  · subst hcause
    have hopens : Opens ['I', 'n'] (Cause.message (.static .invalidInteger)) := opens_ofList _
    exact ⟨by decide, by decide, by decide, hopens.ne_unknownOperator (by decide),
      fun source hscan => absurd rfl (hinteger source hscan)⟩
  · have hharmless := Cause.harmless_message h hcause
    have hdefect : ∀ text ∈ defectTexts, cause.message ≠ text := by
      rintro text hmem rfl
      exact hharmless.defect hmem
    refine ⟨hdefect _ ?_, hdefect _ ?_, hdefect _ ?_, hharmless.operator, fun _ _ => hdefect _ ?_⟩
    all_goals simp [defectTexts]

end JackVm
