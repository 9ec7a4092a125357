import JackVm.Proofs.Acceptance
import JackVm.Proofs.Invariants

/-!
# Viable beginnings, and where faults are located

Lexemes are viable when some class begins with them. Whatever is on the stack, some
lexemes complete it, so lexemes that were read are viable (`viable_of_reads`); and the
printed form of a class is read without a refusal, so lexemes up to one that is refused
are not (`not_viable_of_refused`).

Main statement: a source text that is scanned and not accepted is faulted at the first
token that no class can have there, or at the last token where the class is not
complete, or at a token up to which the grammar was obeyed where a rule is broken
(`ofSource_locates_faults`).
-/

namespace JackVm

open JackVm.Tree

/-- Some class begins with the lexemes. -/
def Viable (ls : List Lexeme) : Prop := ∃ c : Tree.Class, ls <+: c.print

theorem Viable.take {ls : List Lexeme} (h : Viable ls) (k : Nat) : Viable (ls.take k) := by
  obtain ⟨c, hc⟩ := h
  exact ⟨c, (List.take_prefix k ls).trans hc⟩

/-! ## What was read is viable -/

/-- Each goal stands for something; a name and an expression suffice to say what. -/
theorem Goal.exists_spells (x : Identifier) (e : Expression) : ∀ g : Goal, ∃ ls es, g.Spells ls es
  | .classDec => ⟨_, _, ⟨x, [], []⟩, rfl, rfl⟩
  | .className => ⟨_, _, x, rfl, rfl⟩
  | .symbol _ => ⟨_, _, rfl, rfl⟩
  | .members _ => ⟨_, _, [], [], fun _ => rfl, rfl, rfl⟩
  | .varType _ => ⟨_, _, ⟨.int, x, []⟩, rfl, rfl⟩
  | .varName _ _ => ⟨_, _, x, rfl, rfl⟩
  | .moreNames _ _ => ⟨_, _, [], rfl, rfl⟩
  | .resultType _ => ⟨_, _, none, rfl, rfl⟩
  | .subroutineName => ⟨_, _, x, rfl, rfl⟩
  | .parameters => ⟨_, _, [], rfl, rfl⟩
  | .parameterType => ⟨_, _, ⟨.int, x⟩, [], rfl, rfl⟩
  | .moreParameters => ⟨_, _, [], rfl, rfl⟩
  | .body => ⟨_, _, [], .nil, rfl, rfl⟩
  | .statements | .moreStatements => ⟨_, _, .nil, rfl, rfl⟩
  | .letTarget => ⟨_, _, .letVar x e, rfl, rfl⟩
  | .letRest n => ⟨[mark '='] ++ e.print ++ [mark ';'], e.events ++ [.store n], by
      rintro y rfl
      exact ⟨.letVar y e, rfl, rfl⟩⟩
  | .elsePart => ⟨_, _, .inl ⟨rfl, rfl⟩⟩
  | .callStatement => ⟨_, _, .bare x, .nil, rfl, rfl⟩
  | .callRest n => ⟨[mark '(', mark ')'], [.receive (.bare n), .call (.bare n) 0], by
      rintro y rfl
      exact ⟨.bare y, .nil, rfl, rfl⟩⟩
  | .returnRest => ⟨_, _, .returnNothing, rfl, rfl⟩
  | .returnEnd => ⟨_, _, rfl, rfl⟩
  | .expression => ⟨_, _, e, rfl, rfl⟩
  | .operators => ⟨_, _, .nil, rfl, rfl⟩
  | .term => ⟨_, _, .var x, rfl, rfl⟩
  | .nameRest n => ⟨[], [.load n], by
      rintro y rfl
      exact ⟨.var y, rfl, rfl⟩⟩
  | .calleeName r => ⟨[x.lexeme, mark '(', mark ')'],
      [.resolve (.dotted r x.text), .receive (.dotted r x.text), .call (.dotted r x.text) 0], by
      rintro y rfl
      exact ⟨.dotted y x, .nil, rfl, rfl⟩⟩
  | .arguments _ => ⟨_, _, .nil, rfl, rfl⟩
  | .moreArguments _ _ => ⟨_, _, .nil, rfl, rfl⟩

theorem exists_yields : ∀ items : List Item, ∃ ls es, Yields items ls es
  | [] => ⟨[], [], .nil⟩
  | .raise _ :: items => by
      obtain ⟨ls, es, h⟩ := exists_yields items
      exact ⟨ls, _, .raise h⟩
  | .need g :: items => by
      let x : Identifier := ⟨"x", by decide, by decide⟩
      obtain ⟨ls, es, hg⟩ := g.exists_spells x (.mk (.var x) .nil)
      obtain ⟨ls', es', h⟩ := exists_yields items
      exact ⟨ls ++ ls', es ++ es', .need hg h⟩

theorem viable_of_reads {ls : List Lexeme} {es : List Event} {items : List Item}
    (h : Reads classItems ls es items) (hls : ∀ l ∈ ls, l.Proper) : Viable ls := by
  obtain ⟨ls', es', hitems⟩ := exists_yields items
  have hclass := h.yields hls hitems
  rw [classItems, yields_singleton] at hclass
  obtain ⟨c, hprint, -⟩ := hclass
  exact ⟨c, ls', hprint⟩

/-! ## What is refused is not viable -/

theorem Reads.split {final : List Item} (hf : Settled final) {ls' : List Lexeme} :
    ∀ {ls : List Lexeme} {items : List Item} {es : List Event}, Settled items →
      Reads items (ls ++ ls') es final → ∃ mid es₁ es₂,
        Settled mid ∧ Reads items ls es₁ mid ∧ Reads mid ls' es₂ final
  | [], items, es, hi, h => ⟨items, [], es, hi, .done items, h⟩
  | l :: ls, items, es, _, h => by
      obtain ⟨events, rest, es', hfeed, -, h'⟩ := (reads_cons_iff hf).mp h
      obtain ⟨mid, es₁, es₂, hmid, h₁, h₂⟩ := Reads.split hf (settled_of_feed hfeed) h'
      exact ⟨mid, _, es₂, hmid, (reads_cons_iff hmid).mpr ⟨events, rest, es₁, hfeed, rfl, h₁⟩, h₂⟩

theorem not_viable_of_refused {ls : List Lexeme} {l : Lexeme} {es : List Event}
    {items : List Item} {r : Refusal} (h : Reads classItems ls es items) (hs : Settled items)
    (hr : (feed l items).rest = .error r) : ¬Viable (ls ++ [l]) := by
  rintro ⟨c, after, hprint⟩
  have hstart : Settled classItems := trivial
  have hend : Settled [] := trivial
  -- the class is read past the lexeme, from the same stack
  have hread := c.reads_print
  rw [← hprint, List.append_assoc] at hread
  obtain ⟨mid, es₁, es₂, hmid, h₁, h₂⟩ := hread.split hend hstart
  obtain ⟨-, rfl⟩ := h.unique h₁ hs hmid hstart
  obtain ⟨events, rest, -, hfeed, -⟩ := (reads_cons_iff hend).mp h₂
  rw [hfeed] at hr
  cases hr

/-! ## Inside a class -/

/-- An integer constant can be read. -/
def Event.Readable : Event → Prop
  | .integer text => (Text.readWord? text).isSome = true
  | _ => True

/-- An item that can stand on the stack once a class has begun. -/
def Item.Inner : Item → Prop
  | .need g => g ≠ .classDec
  | .raise e => e.Readable

@[simp] theorem Item.inner_need {g : Goal} : (Item.need g).Inner ↔ g ≠ .classDec := Iff.rfl

@[simp] theorem Item.inner_raise {e : Event} : (Item.raise e).Inner ↔ e.Readable := Iff.rfl

section
variable {l : Lexeme} {items : List Item}

/-- Only the text of an integer constant has to be looked at. -/
theorem inner_termParts (hl : l.Proper) : ∀ i ∈ termParts l, i.Inner := by
  obtain ⟨kind, text⟩ := l
  cases kind with
  | integerConstant =>
      have hread := readWord?_numeral ⟨text, hl.1, hl.2⟩
      simp [termParts, Event.Readable, hread]
  | _ => simp [termParts, Event.Readable]

theorem inner_expressionParts (hl : l.Proper) : ∀ i ∈ expressionParts l, i.Inner := by
  rw [expressionParts, List.forall_mem_append]
  exact ⟨inner_termParts hl, by simp⟩

theorem inner_statementParts : ∀ i ∈ statementParts, i.Inner := by
  simp [statementParts, conditionItems, blockItems, Event.Readable]

/-- No goal is a class again. -/
theorem Goal.inner_parts (hl : l.Proper) (g : Goal) : ∀ i ∈ g.parts l, i.Inner := by
  cases g with
  | term => exact inner_termParts hl
  | expression => exact inner_expressionParts hl
  | statements | moreStatements => exact inner_statementParts
  | body =>
      simp only [parts, List.forall_mem_cons]
      exact ⟨by simp, by simp, by simp [Event.Readable], inner_statementParts⟩
  | returnRest =>
      simp only [parts, List.forall_mem_cons]
      exact ⟨by simp [Event.Readable], by simp [Event.Readable], by simp, inner_expressionParts hl⟩
  | arguments _ =>
      simp only [parts, List.forall_mem_cons]
      exact ⟨by simp [Event.Readable], by simp, inner_expressionParts hl⟩
  | varType _ | parameters | parameterType | letTarget | operators | calleeName _ =>
      simp only [parts, List.forall_mem_flatMap]
      simp [argumentItems, Event.Readable]
  | _ => simp [parts, subroutineItems, blockItems, argumentItems, Event.Readable]

theorem inner_feed (hl : l.Proper) (h : ∀ i ∈ items, i.Inner) : (feed l items).All Item.Inner :=
  all_feed (fun {g} _ => g.inner_parts hl) h

theorem inner_feed_classItems (hl : l.Proper) : (feed l classItems).All Item.Inner :=
  all_feed_need (Goal.inner_parts hl .classDec) (by simp) ⟨by simp [feed], by simp [feed]⟩

end

namespace Scope

variable {s : Scope} {t : Target}

theorem map_ne_error {α β : Type} {x : Except StaticError α} {err : StaticError}
    (h : x ≠ .error err) (f : α → β) : x.map f ≠ .error err := by
  cases x with
  | ok a => simp [Except.map]
  | error err' => simpa [Except.map] using h

theorem lookup_ne_invalidInteger (name : String) : s.lookup name ≠ .error .invalidInteger := by
  unfold lookup
  split
  · simp
  split <;> simp

theorem resolve_ne_invalidInteger (callee : Callee) :
    s.resolve callee ≠ .error .invalidInteger := by
  cases callee with
  | bare name =>
      rw [resolve]
      split <;> simp
  | dotted receiver name =>
      rw [resolve]
      split
      · simp
      split
      · simp
      split <;> simp

/-- An integer constant that can be read is never invalid, and nothing else is. -/
theorem perform_ne_invalidInteger {e : Event} (he : e.Readable) :
    s.perform t e ≠ .error .invalidInteger := by
  cases e with
  | integer text =>
      obtain ⟨n, hn⟩ := Option.isSome_iff_exists.mp he
      simp [perform, hn]
  | target name | load name | store name =>
      exact map_ne_error (lookup_ne_invalidInteger name) _
  | resolve callee | receive callee | call callee n =>
      exact map_ne_error (resolve_ne_invalidInteger callee) _
  | className name | declare storage type name | result kind type | returnNothing
  | returnValue =>
      rw [perform]
      split <;> simp
  | constant c =>
      cases c with
      | self =>
          rw [perform]
          split <;> simp
      | _ => simp [perform]
  | _ => simp [perform]

end Scope

/-! ## Faults -/

/-- Where a cause may be located among the lexemes of a source text. A premature end is
located at the last lexeme of a beginning that can be completed, a broken rule at a
lexeme up to which the grammar is obeyed, and a refusal at the first lexeme that no class
can have there. -/
def Cause.LocatedAt (ls : List Lexeme) (k : Nat) : Cause → Prop
  | .starved goal => goal ≠ .classDec ∧ Viable ls ∧ k + 1 = ls.length
  | .static err => err ≠ .invalidInteger ∧ Viable (ls.take k)
  | .refused _ => Viable (ls.take k) ∧ ¬Viable (ls.take (k + 1))
  | .cursor _ | .noKind | .unknownOperator _ => False

namespace Compiler

variable {t : Target}

/-- The grammar alone keeps a compiler inside a class. -/
def innerInvariant (t : Target) : Invariant t where
  item := Item.Inner
  lexeme := Lexeme.Proper
  scope _ := True
  instruction _ := True
  parts hl _ := Goal.inner_parts hl _
  perform _ _ _ := ⟨trivial, fun _ _ => trivial⟩

theorem inner_run {ls : List Lexeme} {c : Compiler} (hls : ∀ l ∈ ls, l.Proper)
    (hc : ∀ i ∈ c.items, i.Inner) : ∀ i ∈ (c.run t ls).items, i.Inner := by
  have hholds : (innerInvariant t).Holds c := ⟨hc, trivial, fun _ _ => trivial⟩
  exact (Invariant.run hholds hls).items

/-- From the first lexeme on a compiler is inside a class. -/
theorem inner_run_classItems {l : Lexeme} {ls : List Lexeme} {c : Compiler}
    (hls : ∀ l' ∈ l :: ls, l'.Proper) (hc : c.items = classItems)
    (h : (c.run t (l :: ls)).stopped = none) : ∀ i ∈ (c.run t (l :: ls)).items, i.Inner := by
  rw [run_cons] at h ⊢
  rw [List.forall_mem_cons] at hls
  obtain ⟨-, events, rest, -, hfeed, -, -, hitems, -⟩ := step_running (running_of_run h)
  rw [hc] at hfeed
  have hstep := (inner_feed_classItems hls.1).2 rest (by rw [hfeed])
  exact inner_run hls.2 (hitems ▸ hstep)

/-- Whatever lexeme comes next, its events are inside a class. -/
theorem inner_next {l : Lexeme} {ls : List Lexeme} {c : Compiler} (hl : l.Proper)
    (hls : ∀ l' ∈ ls, l'.Proper) (hc : c.items = classItems) (h : (c.run t ls).stopped = none) :
    (feed l (c.run t ls).items).All Item.Inner := by
  cases ls with
  | nil =>
      show (feed l c.items).All Item.Inner
      rw [hc]
      exact inner_feed_classItems hl
  | cons first rest => exact inner_feed hl (inner_run_classItems hls hc h)

/-- The cause that stops a compiler is located where it belongs. -/
theorem locatedAt_of_stopped {ls : List Lexeme} {c : Compiler} {cause : Cause} {k : Nat}
    (hls : ∀ l ∈ ls, l.Proper) (hitems : c.items = classItems) (hnext : c.next = 0)
    (hc : c.stopped = none) (h : (c.run t ls).stopped = some (.source cause, k)) :
    cause.LocatedAt ls k := by
  obtain ⟨before, l, after, rfl, hrunning, hstops⟩ := exists_stop hc h
  rw [List.forall_mem_append, List.forall_mem_cons] at hls
  obtain ⟨hbefore, hl, -⟩ := hls
  have hstart : Settled c.items := hitems ▸ trivial
  obtain ⟨es, -, hreads, -, -, hsettled⟩ := reads_of_run hstart hrunning
  rw [hitems] at hreads
  have hviable : Viable before := viable_of_reads hreads hbefore
  have hlength : (c.run t before).next = before.length := by
    rw [next_run hrunning, hnext, Nat.zero_add]
  have hk := hstops.le_next
  rw [hlength] at hk
  have htake : Viable ((before ++ l :: after).take k) := by
    rw [List.take_append_of_le_length hk]
    exact hviable.take k
  cases hstops with
  | static he herr =>
      have hreadable := (inner_next hl hbefore hitems hrunning).1 _ he
      refine ⟨?_, htake⟩
      rintro rfl
      exact Scope.perform_ne_invalidInteger hreadable herr
  | refused hr =>
      refine ⟨htake, ?_⟩
      rw [hlength, List.take_length_add_append]
      exact not_viable_of_refused hreads hsettled hr

end Compiler

theorem mem_of_awaited? {goal : Goal} : ∀ {items : List Item}, awaited? items = some goal →
    .need goal ∈ items
  | .need g :: _, h => by
      obtain rfl := Option.some.inj h
      exact List.mem_cons_self
  | .raise _ :: _, h => List.mem_cons_of_mem _ (mem_of_awaited? h)

namespace Compilation

variable {t : Target} {tokens : List Token} {table : VariableTable} {sink : Sink}

/-- What was read before the tokens ended is viable. -/
theorem viable_of_running (htokens : ∀ l ∈ tokens.map (·.toLexeme), l.Proper)
    (h : (atEnd t tokens table sink).stopped = none) : Viable (tokens.map (·.toLexeme)) := by
  have hstart : Settled classItems := trivial
  obtain ⟨_, _, hreads, -⟩ := Compiler.reads_of_run hstart h
  exact viable_of_reads hreads htokens

/-- A class is awaited before the first token only. -/
theorem awaits_classDec_iff {goal : Goal} (htokens : ∀ l ∈ tokens.map (·.toLexeme), l.Proper)
    (h : (atEnd t tokens table sink).stopped = none)
    (hgoal : awaited? (atEnd t tokens table sink).items = some goal) :
    goal = .classDec ↔ tokens = [] := by
  cases tokens with
  | nil =>
      obtain rfl : Goal.classDec = goal := Option.some.inj hgoal
      simp
  | cons first rest =>
      have hinner := Compiler.inner_run_classItems htokens rfl h _ (mem_of_awaited? hgoal)
      simpa [Item.Inner] using hinner

theorem located_of_stopped {cause : Cause} {line k : Nat}
    (htokens : ∀ l ∈ tokens.map (·.toLexeme), l.Proper)
    (hstopped : (atEnd t tokens table sink).stopped = some (.source cause, k))
    (hk : k < tokens.length)
    (hline : cause ≠ .starved .classDec →
      line = Cursor.lineAt { tokens := tokens } (some k)) :
    ∃ k token, tokens[k]? = some token ∧ token.line = line ∧
      cause.LocatedAt (tokens.map (·.toLexeme)) k := by
  have hlocated := Compiler.locatedAt_of_stopped htokens rfl rfl rfl hstopped
  have hcause : cause ≠ .starved .classDec := by
    rintro rfl
    exact hlocated.1 rfl
  have htoken := List.getElem?_eq_getElem hk
  rw [Cursor.lineAt_of_getElem? htoken] at hline
  exact ⟨k, tokens[k], htoken, (hline hcause).symm, hlocated⟩

theorem located_of_starved {goal : Goal} {line : Nat} (hne : tokens ≠ [])
    (htokens : ∀ l ∈ tokens.map (·.toLexeme), l.Proper)
    (hstopped : (atEnd t tokens table sink).stopped = none)
    (hgoal : awaited? (atEnd t tokens table sink).items = some goal)
    (hline : Cause.starved goal ≠ .starved .classDec →
      line = Cursor.lineAt { tokens := tokens } (some (tokens.length - 1))) :
    ∃ k token, tokens[k]? = some token ∧ token.line = line ∧
      (Cause.starved goal).LocatedAt (tokens.map (·.toLexeme)) k := by
  have hclass : goal ≠ .classDec := mt (awaits_classDec_iff htokens hstopped hgoal).mp hne
  have hpos := List.length_pos_iff.mpr hne
  have htoken := List.getElem?_eq_getElem (Nat.sub_lt hpos Nat.one_pos)
  rw [Cursor.lineAt_of_getElem? htoken] at hline
  refine ⟨_, _, htoken, (hline ?_).symm, hclass, viable_of_running htokens hstopped, ?_⟩
  · simpa using hclass
  · rw [List.length_map]
    omega

/-- The cause that a compilation reports is located where it belongs. -/
theorem ofCursor_locates_faults {cause : Cause} {line : Nat}
    (htokens : ∀ l ∈ tokens.map (·.toLexeme), l.Proper)
    (h : (ofCursor t { tokens := tokens } table sink).result = .error (.compile cause line)) :
    (tokens = [] ∧ cause = .starved .classDec) ∨
      ∃ k token, tokens[k]? = some token ∧ token.line = line ∧
        cause.LocatedAt (tokens.map (·.toLexeme)) k := by
  rcases ofCursor_cases t tokens table sink with
    ⟨fault, k, hstopped, hk, hresult⟩ | ⟨goal, hstopped, hgoal, hresult⟩ | ⟨-, -, hresult⟩
  · obtain ⟨rfl, hline⟩ := Fault.of_report (Except.error.inj (hresult.symm.trans h))
    exact .inr (located_of_stopped htokens hstopped hk hline)
  · obtain ⟨hcause, hline⟩ := Fault.of_report (Except.error.inj (hresult.symm.trans h))
    obtain rfl := Fault.source.inj hcause
    by_cases hnil : tokens = []
    · obtain rfl := (awaits_classDec_iff htokens hstopped hgoal).mpr hnil
      exact .inl ⟨hnil, rfl⟩
    · exact .inr (located_of_starved hnil htokens hstopped hgoal hline)
  · cases hresult.symm.trans h

/-- A source text that is not accepted, though it is scanned and the sink takes all code,
is faulted where the fault is. Without any token there is nothing to point at. -/
theorem ofSource_locates_faults {t : Target} {table : VariableTable} {source : String}
    {outlet : Outlet} {cause : Cause} {line : Nat}
    (h : (ofSource t table source outlet).result = .error (.compile cause line)) :
    ∃ tokens, scan source = .ok tokens ∧
      ((tokens = [] ∧ cause = .starved .classDec) ∨
        ∃ k token, tokens[k]? = some token ∧ token.line = line ∧
          cause.LocatedAt (tokens.map (·.toLexeme)) k) := by
  unfold ofSource at h
  cases hscan : scan source with
  | error e =>
      rw [hscan] at h
      cases h
  | ok tokens =>
      simp only [hscan, flush] at h
      split at h
      · cases h
      · exact ⟨tokens, rfl, ofCursor_locates_faults (proper_of_scan hscan) h⟩

/-- A statement stands where a member of the class has to. -/
def misplacedSource : String := "class A{
let}"

theorem result_misplacedSource : (ofSource ⟨"A", {}⟩ {} misplacedSource {}).result =
    .error (.compile (.refused (.unexpected (.members false))) 2) := by
  rw [ofSource_eq]
  rfl

theorem ofSource_locates_faults_misplaced :
    (ofSource ⟨"A", {}⟩ {} misplacedSource {}).result =
        .error (.compile (.refused (.unexpected (.members false))) 2) ∧
      ∃ tokens, scan misplacedSource = .ok tokens ∧
        ((tokens = [] ∧ Cause.refused (.unexpected (.members false)) = .starved .classDec) ∨
          ∃ k token, tokens[k]? = some token ∧ token.line = 2 ∧
            (Cause.refused (.unexpected (.members false))).LocatedAt
              (tokens.map (·.toLexeme)) k) :=
  ⟨result_misplacedSource, ofSource_locates_faults result_misplacedSource⟩

end Compilation

end JackVm
