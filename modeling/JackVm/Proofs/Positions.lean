import JackVm.Proofs.Productions

/-!
# Where procedures begin and end

A procedure that has read the items of its first lexeme stands at the end of what they yield:
there, with nothing left to read, the compiler would refuse the next lexeme
(`Owes.exists_yields`). Lists are read by procedures in a row (`Consumes`), of which some step back
to where they began.

Main statement: a procedure that is entered on the first lexeme of a production, and does not
fail, returns on its last (`productions_keep_position`).
-/

namespace JackVm

open JackVm.Tree

namespace Compiler

variable {t : Target} {c : Compiler} {items : List Item}

/-- A compiler that goes on has raised the events on top of the items. -/
theorem follow_running (hrun : (c.follow t (settle items)).stopped = none) :
    ∃ events : List (Place × Event),
      items = events.map (fun e => .raise e.2) ++ (c.follow t (settle items)).items ∧
      Settled (c.follow t (settle items)).items ∧
      (c.follow t (settle items)).next = c.next + 1 := by
  obtain ⟨events, rest, hsettle, hsettled, hitems⟩ := settle_spec items
  rw [follow, hsettle] at hrun ⊢
  rw [proceed_ok hrun, next_performAll]
  exact ⟨events, hitems, hsettled, rfl⟩

/-- Events alone do not have a lexeme refused. -/
theorem follow_ne_refused {r : Refusal} {k : Nat} (hc : c.stopped = none) :
    (c.follow t (settle items)).stopped ≠ some (.source (.refused r), k) := by
  intro h
  obtain ⟨events, rest, hsettle, -⟩ := settle_spec items
  rw [follow, hsettle] at h
  cases hstopped : (c.performAll t events).stopped with
  | none =>
      rw [proceed_of_running hstopped] at h
      cases hstopped.symm.trans h
  | some stop =>
      rw [proceed_of_stopped (by rw [hstopped]; rfl), hstopped] at h
      obtain rfl := Option.some.inj h
      obtain ⟨_, _, -, -, ⟨_, _, -, hfault⟩ | ⟨_, hfault⟩⟩ := performAll_stopped hc hstopped
      · cases hfault
      · cases hfault

/-- What was read after some items yields them, once nothing is left to be read. -/
theorem yields_of_follow {ls : List Lexeme} {es : List Event} (hls : ∀ l ∈ ls, l.Proper)
    (hrun : ((c.follow t (settle items)).run t ls).stopped = none)
    (hy : Yields ((c.follow t (settle items)).run t ls).items [] es) :
    ∃ es, Yields items ls es := by
  obtain ⟨events, hitems, hsettled, -⟩ := follow_running (running_of_run hrun)
  obtain ⟨es', code, hreads, -⟩ := reads_of_run hsettled hrun
  have hyields := (hreads.yields hls hy).raises events
  rw [← hitems, List.append_nil] at hyields
  exact ⟨_, hyields⟩

end Compiler

namespace Engine

/-! ## What a procedure comes over -/

/-- The lexemes after the current one. -/
def rest (e : Engine) : List Lexeme := e.tape.ahead.map (·.toLexeme)

/-- The current lexeme and those after it. -/
def pending (e : Engine) : List Lexeme := e.current?.toList ++ e.rest

/-- The engine has come over `ls`, of the lexemes that were due. -/
structure Covers (tokens : List Token) (due ls : List Lexeme) (e : Engine) : Prop where
  tokens_eq : e.tape.tokens = tokens
  seen : e.tape.seen ≠ []
  due_eq : due = ls ++ e.rest

section
variable {α : Type} {t : Target} {n : Nat} {e e' : Engine} {items : List Item} {l : Lexeme}

/-- An engine that has come to the last token has read all that was due. -/
theorem covers_of_done (hproper : ∀ l ∈ e.rest, l.Proper) (hseen : e'.tape.seen ≠ [])
    (hahead : e'.tape.ahead = []) (h : e.comesTo t (settle items) = (.ok (), e')) :
    ∃ ls es, Covers e.tape.tokens e.rest ls e' ∧ Yields items ls es := by
  have hfault : ((e.compiler.follow t (settle items)).run t e.rest).fault? = none := by
    have hresult := congrArg Prod.fst h
    simp only [comesTo, Compiler.ending] at hresult
    split at hresult
    · next hnone => exact hnone
    · cases hresult
  obtain ⟨hrun, hawaited⟩ := Option.or_eq_none_iff.mp hfault
  obtain ⟨-, -, hsettled, -⟩ := Compiler.follow_running (Compiler.running_of_run hrun)
  obtain ⟨_, _, _, -, -, hfinal⟩ := Compiler.reads_of_run hsettled hrun
  have hnil := hfinal.eq_nil (Option.map_eq_none_iff.mp hawaited)
  obtain ⟨es, hy⟩ := Compiler.yields_of_follow hproper hrun (by rw [hnil]; exact .nil)
  have htokens : e'.tape.tokens = e.tape.tokens := by
    rw [← congrArg (·.2.tape) h]
    exact Tape.tokens_ofCursor _
  exact ⟨e.rest, es, ⟨htokens, hseen, by simp [rest, hahead]⟩, hy⟩

/-- A lexeme that stops the compiler with nothing left on the stack is refused there. -/
theorem exists_stop_of_refused {r : Refusal} {line : Nat}
    (h : (e.comesTo t (settle items)).1 = .error (.compile (.refused r) line)) :
    ∃ before l after, e.rest = before ++ l :: after ∧
      ((e.compiler.follow t (settle items)).run t before).stopped = none ∧
      (feed l ((e.compiler.follow t (settle items)).run t before).items).rest = .error r ∧
      ((e.compiler.follow t (settle items)).run t e.rest).position =
        some (e.compiler.next + 1 + before.length) := by
  have hstopped : ∃ k, ((e.compiler.follow t (settle items)).run t e.rest).stopped =
      some (.source (.refused r), k) := by
    simp only [comesTo, Compiler.ending] at h
    split at h
    · cases h
    · next fault k hfault =>
        obtain ⟨rfl, -⟩ := Fault.of_report (Except.error.inj h)
        refine ⟨k, ?_⟩
        unfold Compiler.fault? at hfault
        rcases Option.or_eq_some_iff.mp hfault with hsome | ⟨-, hgoal⟩
        · exact hsome
        · obtain ⟨goal, -, heq⟩ := Option.map_eq_some_iff.mp hgoal
          cases heq
  obtain ⟨k, hstopped⟩ := hstopped
  have hstart : (e.compiler.follow t (settle items)).stopped = none := by
    cases hstart : (e.compiler.follow t (settle items)).stopped with
    | none => rfl
    | some stop =>
        rw [Compiler.run_of_stopped (by rw [hstart]; rfl)] at hstopped
        exact absurd hstopped (Compiler.follow_ne_refused rfl)
  obtain ⟨before, l, after, hsplit, hrunning, hstops⟩ := Compiler.exists_stop hstart hstopped
  obtain ⟨-, -, -, hnext⟩ := Compiler.follow_running hstart
  cases hstops with
  | refused hr =>
      refine ⟨before, l, after, hsplit, hrunning, hr, ?_⟩
      rw [Compiler.position, hstopped]
      exact congrArg some (by rw [Compiler.next_run hrunning, hnext])

/-- An engine that stands before another token has read what was due before it. -/
theorem covers_of_refused {token : Token} {more : List Token} (hproper : ∀ l ∈ e.rest, l.Proper)
    (hseen : e.tape.seen ≠ []) (hseen' : e'.tape.seen ≠ []) (hahead : e'.tape.ahead = token :: more)
    {line : Nat} (h : e.comesTo t (settle items) = (.error (.compile (.refused .afterClass) line),
      { e' with tape := ⟨token :: e'.tape.seen, more⟩ })) :
    ∃ ls es, Covers e.tape.tokens e.rest ls e' ∧ Yields items ls es := by
  obtain ⟨before, l, after, hsplit, hrunning, hr, hposition⟩ :=
    exists_stop_of_refused (congrArg Prod.fst h)
  obtain ⟨es, hy⟩ := yields_of_afterClass hr
  have hbefore : ∀ l ∈ before, l.Proper := fun l hl =>
    hproper l (hsplit ▸ List.mem_append_left _ hl)
  obtain ⟨es, hy⟩ := Compiler.yields_of_follow hbefore hrunning hy
  have htape :
      Tape.ofCursor
        { tokens := e.tape.tokens, position := some (e.compiler.next + 1 + before.length) } =
      ⟨token :: e'.tape.seen, more⟩ := by
    rw [← hposition]
    exact congrArg (·.2.tape) h
  have htokens : e'.tape.tokens = e.tape.tokens := by
    rw [← Tape.tokens_forward hahead, ← htape, Tape.tokens_ofCursor]
  have hlength : e'.tape.seen.length = e.tape.seen.length + before.length := by
    have hseenLength := congrArg (·.seen.length) htape
    have hpos := List.length_pos_iff.mpr hseen
    have hrest := congrArg List.length hsplit
    have htotal := e.tape.length_tokens
    simp only [Tape.ofCursor, Cursor.next, compiler, List.length_reverse, List.length_take,
      List.length_cons] at hseenLength
    simp only [rest, List.length_map, List.length_append, List.length_cons] at hrest
    omega
  have hrest : e'.rest = l :: after := by
    rw [rest, ← e'.tape.drop_tokens, htokens, hlength, ← List.drop_drop, e.tape.drop_tokens,
      List.map_drop]
    change e.rest.drop before.length = _
    rw [hsplit, List.drop_left]
  exact ⟨before, es, ⟨htokens, hseen', by rw [hrest, hsplit]⟩, hy⟩

/-- The items that an engine has come to the end of have yielded what it has come over. -/
theorem Owes.exists_yields (h : Owes t n (e.comesTo t (settle items)) [] e')
    (hproper : ∀ l ∈ e.rest, l.Proper) (hseen : e.tape.seen ≠ []) :
    ∃ ls es, Covers e.tape.tokens e.rest ls e' ∧ Yields items ls es := by
  obtain ⟨hseen', -, heq⟩ := h
  cases hahead : e'.tape.ahead with
  | nil =>
      rw [comesTo_done hseen' hahead] at heq
      exact covers_of_done hproper hseen' hahead heq.symm
  | cons token more =>
      rw [comesTo_forward hseen' hahead] at heq
      have hrefused := comesTo_refused (t := t) (r := .afterClass)
        (e := { e' with tape := ⟨token :: e'.tape.seen, more⟩ }) (List.cons_ne_nil _ _)
      exact covers_of_refused hproper hseen hseen' hahead (heq.symm.trans hrefused)

/-- Unless there is something to declare, the items leave what is known as it was. -/
theorem like_comesTo (hitems : ∀ i ∈ items, i.declares = false) :
    e.scope.Like (e.comesTo t (settle items)).2.scope := by
  have hstart : (likeInvariant t e.scope).Holds e.compiler :=
    ⟨fun _ h => absurd h List.not_mem_nil, ⟨rfl, rfl, rfl, rfl, rfl⟩, fun _ _ => trivial⟩
  obtain ⟨hevents, hrest⟩ := all_settle (P := fun i => i.declares = false) hitems
  have hfollow := (hstart.performAll hevents).proceed hrest
  exact (Invariant.run hfollow fun _ _ => trivial).scope

theorem Owes.scope_eq {o : Ending} (h : Owes t n o [] e) :
    o.2.scope = e.scope := by
  obtain ⟨hseen, -, rfl⟩ := h
  cases hahead : e.tape.ahead with
  | nil => rw [comesTo_done hseen hahead]
  | cons token more =>
      rw [comesTo_forward hseen hahead]
      exact congrArg (·.2.scope) (comesTo_refused (t := t) (r := .afterClass)
        (e := { e with tape := ⟨token :: e.tape.seen, more⟩ }) (List.cons_ne_nil _ _))

end

/-! ## Procedures in a row -/

/-- The scope is the same but for the labels, unless something may be declared. -/
def Keeps (declares : Bool) (e e' : Engine) : Prop := declares = false → e.scope.Like e'.scope

/-- The engine is on a token of a text, and less than `n` follow. -/
structure Placed (n : Nat) (e : Engine) : Prop where
  seen : e.tape.seen ≠ []
  ahead : e.rest.length < n
  proper : ∀ token ∈ e.tape.tokens, token.toLexeme.Proper

/-- The procedure returns. If it does not fail, then it has come over lexemes in `R`, of those
that were due. -/
abbrev Consumes {α : Type} (x : EngineM α) (declares : Bool) (e : Engine) (due : List Lexeme)
    (R : α → List Lexeme → Prop) : Prop :=
  Returns x e (fun _ e' => Keeps declares e e') fun a e' =>
    Keeps declares e e' ∧ ∃ ls, Covers e.tape.tokens due ls e' ∧ R a ls

section
variable {α β : Type} {t : Target} {n m : Nat} {e e' : Engine} {items : List Item} {l : Lexeme}
  {d : Bool} {due : List Lexeme} {x : EngineM α} {f : α → EngineM β}
  {R R' : α → List Lexeme → Prop} {S : β → List Lexeme → Prop}

theorem Keeps.refl (d : Bool) (e : Engine) : Keeps d e e := fun _ => ⟨rfl, rfl, rfl, rfl, rfl⟩

theorem Keeps.trans {e'' : Engine} (h : Keeps d e e') (h' : Keeps d e' e'') : Keeps d e e'' := by
  intro hd
  obtain ⟨htable, hclass, hsubroutine, hkind, hvoid⟩ := h hd
  obtain ⟨htable', hclass', hsubroutine', hkind', hvoid'⟩ := h' hd
  exact ⟨htable'.trans htable, hclass'.trans hclass, hsubroutine'.trans hsubroutine,
    hkind'.trans hkind, hvoid'.trans hvoid⟩

theorem pending_eq (h : e.current? = some l) : e.pending = l :: e.rest := by
  rw [pending, h]
  rfl

theorem Placed.mono (h : Placed n e) (hnm : n ≤ m) : Placed m e :=
  { h with ahead := Nat.lt_of_lt_of_le h.ahead hnm }

theorem Placed.tight (h : Placed n e) : Placed (e.rest.length + 1) e :=
  { h with ahead := Nat.lt_succ_self _ }

theorem length_rest (e : Engine) : e.rest.length = e.tape.ahead.length := List.length_map _

theorem Placed.shorter (h : Placed e.rest.length e') :
    e'.tape.ahead.length < e.tape.ahead.length := by
  have hahead := h.ahead
  rwa [length_rest, length_rest] at hahead

theorem Placed.proper_current (h : Placed n e) (hcurrent : e.current? = some l) : l.Proper := by
  obtain ⟨token, htoken, rfl⟩ := Option.map_eq_some_iff.mp hcurrent
  refine h.proper token (List.mem_append_left _ (List.mem_reverse.mpr ?_))
  exact List.mem_of_mem_head? htoken

theorem Placed.of_covers {ls : List Lexeme} (h : Placed n e) (hdue : due.length < m)
    (hcovers : Covers e.tape.tokens due ls e') : Placed m e' := by
  refine ⟨hcovers.seen, ?_, hcovers.tokens_eq ▸ h.proper⟩
  have hlength := congrArg List.length hcovers.due_eq
  rw [List.length_append] at hlength
  omega

namespace Consumes

theorem weaken (h : Consumes x d e due R) (hR : ∀ a ls, R a ls → R' a ls) :
    Consumes x d e due R' := by
  refine h.mono ?_
  rintro a e' ⟨hkeeps, ls, hcovers, ha⟩
  exact ⟨hkeeps, ls, hcovers, hR a ls ha⟩

theorem bind (h : Consumes x d e due R) (hplaced : Placed n e) (hdue : due.length < m)
    (hf : ∀ a ls e', R a ls → Placed m e' →
      Consumes (f a) d e' e'.rest fun b ls' => S b (ls ++ ls')) :
    Consumes (x >>= f) d e due S := by
  refine Returns.bind h ?_
  rintro a e' ⟨hkeeps, ls, hcovers, ha⟩
  obtain ⟨r, e'', hrun, hr⟩ := hf a ls e' ha (hplaced.of_covers hdue hcovers)
  refine ⟨r, e'', hrun, ?_⟩
  cases r with
  | error failure => exact hkeeps.trans hr
  | ok b =>
      obtain ⟨hkeeps', ls', hcovers', hb⟩ := hr
      refine ⟨hkeeps.trans hkeeps', ls ++ ls', ⟨?_, hcovers'.seen, ?_⟩, hb⟩
      · rw [hcovers'.tokens_eq, hcovers.tokens_eq]
      · rw [hcovers.due_eq, hcovers'.due_eq, List.append_assoc]

theorem pure {a : α} (hplaced : Placed n e) (h : R a []) :
    Consumes (Pure.pure a) d e e.rest R :=
  Returns.pure ⟨.refl d e, [], ⟨rfl, hplaced.seen, rfl⟩, h⟩

theorem cons (hcurrent : e.current? = some l)
    (h : Consumes x d e e.rest fun a ls => R a (l :: ls)) : Consumes x d e e.pending R := by
  refine h.mono ?_
  rintro a e' ⟨hkeeps, ls, hcovers, ha⟩
  refine ⟨hkeeps, l :: ls, ⟨hcovers.tokens_eq, hcovers.seen, ?_⟩, ha⟩
  rw [pending_eq hcurrent, hcovers.due_eq, List.cons_append]

theorem check {test : Lexeme → Bool} {f : Bool → EngineM β} (hcurrent : e.current? = some l)
    (h : Consumes (f (test l)) d e due S) : Consumes (check test >>= f) d e due S :=
  Returns.check hcurrent h

theorem expect {test : Lexeme → Bool} {g : Goal} {f : Unit → EngineM β}
    (hcurrent : e.current? = some l) (h : test l = true → Consumes (f ()) d e due S) :
    Consumes (expect test g >>= f) d e due S := by
  refine Returns.bind (P := fun _ e' => e' = e ∧ test l = true) ?_ ?_
  · refine Returns.check hcurrent ?_
    cases htest : test l with
    | true => exact Returns.pure ⟨rfl, rfl⟩
    | false => exact Returns.fail (.refl d e)
  · rintro - e' ⟨rfl, htest⟩
    exact h htest

theorem expectType {g : Goal} {f : String → EngineM β} (hcurrent : e.current? = some l)
    (h : l.type?.isSome = true → Consumes (f l.text) d e due S) :
    Consumes (expectType g >>= f) d e due S := by
  rw [Engine.expectType, bind_assoc]
  refine expect hcurrent fun htype => ?_
  exact Returns.text hcurrent (h htype)

theorem text {f : String → EngineM β} (hcurrent : e.current? = some l)
    (h : Consumes (f l.text) d e due S) : Consumes (text >>= f) d e due S :=
  Returns.text hcurrent h

/-- What comes after a step ahead has to look at the lexeme there. -/
theorem advance {g : Goal} {f : Unit → EngineM β} (hplaced : Placed (n + 1) e)
    (h : ∀ l e', e'.current? = some l → Placed n e' → Consumes (f ()) d e' e'.pending S) :
    Consumes (advance g >>= f) d e e.rest S := by
  cases hahead : e.tape.ahead with
  | nil =>
      refine Returns.bind (P := fun _ _ => False) ?_ (fun _ _ h => h.elim)
      unfold Returns
      rw [run_advance, Tape.hasMore, hahead]
      exact ⟨_, _, rfl, .refl d e⟩
  | cons token more =>
      let e₁ : Engine := { e with tape := ⟨token :: e.tape.seen, more⟩ }
      have hpending : e₁.pending = e.rest := by
        rw [rest, hahead]
        rfl
      have htokens : e₁.tape.tokens = e.tape.tokens := Tape.tokens_forward hahead
      have hplaced₁ : Placed n e₁ := by
        refine ⟨List.cons_ne_nil _ _, ?_, htokens ▸ hplaced.proper⟩
        have hlength := hplaced.ahead
        rw [← hpending] at hlength
        exact Nat.lt_of_succ_lt_succ hlength
      refine Returns.bind (P := fun _ e' => e' = e₁) ?_ ?_
      · unfold Returns
        rw [run_advance, Tape.hasMore, hahead, run_move, Tape.forward_of_ahead hahead]
        exact ⟨_, _, rfl, rfl⟩
      · rintro - e' rfl
        have hrest := h token.toLexeme e₁ rfl hplaced₁
        rw [hpending] at hrest
        exact htokens ▸ hrest

/-- Nothing has been read after a step back. -/
theorem retreat (hplaced : Placed n e) :
    Consumes retreat d e e.pending fun _ ls => ls = [] := by
  unfold Consumes Returns Engine.retreat
  rw [run_move, Tape.back]
  obtain ⟨⟨seen, ahead⟩, scope, sink, log⟩ := e
  cases seen with
  | nil => exact absurd rfl hplaced.seen
  | cons token seen =>
      cases seen with
      | nil => exact ⟨_, _, rfl, .refl d _⟩
      | cons before seen =>
          refine ⟨_, _, rfl, .refl d _, [], ⟨?_, List.cons_ne_nil _ _, rfl⟩, rfl⟩
          simp [Tape.tokens]

/-- A procedure that reads all that its first lexeme stands for. -/
theorem of_leads {A : α → Prop} (hplaced : Placed n e)
    (hitems : d = false → ∀ i ∈ items, i.declares = false)
    (h : Leads x e (e.comesTo t (settle items)) fun a e' =>
      A a ∧ Owes t n (e.comesTo t (settle items)) [] e') :
    Consumes x d e e.rest fun a ls => A a ∧ ∃ es, Yields items ls es := by
  have hproper : ∀ l ∈ e.rest, l.Proper := by
    intro l hl
    obtain ⟨token, htoken, rfl⟩ := List.mem_map.mp hl
    exact hplaced.proper token (List.mem_append_right _ htoken)
  have hlike : ∀ e', (e.comesTo t (settle items)).2.scope = e'.scope → Keeps d e e' := by
    intro e' hscope hd
    rw [← hscope]
    exact like_comesTo (hitems hd)
  obtain ⟨r, e', hrun, hr⟩ := h
  refine ⟨r, e', hrun, ?_⟩
  cases r with
  | error failure => exact hlike e' (by rw [← hr])
  | ok a =>
      obtain ⟨ha, howes⟩ := hr
      obtain ⟨ls, es, hcovers, hy⟩ := howes.exists_yields hproper hplaced.seen
      exact ⟨hlike e' howes.scope_eq, ls, hcovers, ha, es, hy⟩

theorem of_owes (hplaced : Placed n e)
    (hitems : d = false → ∀ i ∈ items, i.declares = false)
    (h : Leads x e (e.comesTo t (settle items)) fun _ e' =>
      Owes t n (e.comesTo t (settle items)) [] e') :
    Consumes x d e e.rest fun _ ls => ∃ es, Yields items ls es := by
  have hleads := of_leads (A := fun _ => True) hplaced hitems (h.mono fun _ _ h => ⟨trivial, h⟩)
  exact hleads.weaken fun _ _ h => h.2

end Consumes

theorem Placed.owes (h : Placed n e) (t : Target) (items : List Item) :
    Owes t n (e.comesTo t (settle items)) (items ++ []) e := by
  refine ⟨h.seen, ?_, by rw [List.append_nil]⟩
  rw [← length_rest]
  exact h.ahead

/-! ## Lists -/

theorem consumes_expression (hplaced : Placed n e) (hcurrent : e.current? = some l)
    (hl : l.beginsTerm = true) :
    Consumes (compileExpression t) false e e.pending
      fun _ ls => ∃ x : Expression, ls = x.print := by
  rw [← isSome_expressionItems?] at hl
  obtain ⟨items, hitems⟩ := Option.isSome_iff_exists.mp hl
  have hleads := (readsTerms t n).expression hcurrent hitems (hplaced.owes t items)
  refine .cons hcurrent ?_
  refine (Consumes.of_owes hplaced ?_ hleads).weaken ?_
  · intro _ i hi
    exact declares_expressionParts i (expressionItems?_parts hitems i hi)
  · rintro - ls ⟨es, hy⟩
    obtain ⟨x, hx, -⟩ := exists_expression (hplaced.proper_current hcurrent) hitems hy
    exact ⟨x, hx⟩

theorem consumes_nextExpression (hplaced : Placed n e) :
    Consumes (nextExpression t) false e e.rest fun _ ls => ∃ x : Expression, ls = x.print := by
  unfold nextExpression nextExpressionBy
  refine .advance (hplaced.mono n.le_succ) ?_
  intro l e' hcurrent hplaced
  refine .expect hcurrent fun hl => ?_
  exact consumes_expression hplaced hcurrent hl

/-- More arguments add to the count. -/
theorem consumes_moreExpressions {callee : Callee} {count : UInt32} (hplaced : Placed n e) :
    Consumes (moreExpressionsBy t (compileTerm t) callee count) false e e.rest fun total ls =>
      ∃ args : ArgumentList, ls = args.printMore ∧ total = count + UInt32.ofNat args.length := by
  unfold moreExpressionsBy
  revert e count
  apply Returns.recursivelyFrom
  intro again count e hplaced hagain
  refine Consumes.advance hplaced.tight ?_
  intro l e' hcurrent hplaced'
  refine Consumes.check hcurrent ?_
  cases hcomma : l.isSymbol ',' with
  | true =>
      obtain rfl := eq_mark (hplaced'.proper_current hcurrent) hcomma
      refine Consumes.cons hcurrent ?_
      refine Consumes.bind (consumes_nextExpression hplaced') hplaced' hplaced'.ahead ?_
      rintro - - e' ⟨x, rfl⟩ hplaced'
      have hmore := hagain (count + 1) e' hplaced'.shorter
        (hplaced'.mono (Nat.le_of_lt hplaced.ahead))
      refine Consumes.weaken hmore ?_
      rintro total - ⟨args, rfl, rfl⟩
      exact ⟨.cons x args, rfl,
        by simp [ArgumentList.length, UInt32.add_assoc, UInt32.add_comm]⟩
  | false =>
      refine Consumes.bind (Consumes.retreat hplaced') hplaced' (Nat.lt_succ_self _) ?_
      rintro - - e' rfl hplaced
      exact .pure hplaced ⟨.nil, rfl, by simp [ArgumentList.length]⟩

theorem consumes_expressionList {callee : Callee} (hplaced : Placed n e)
    (hcurrent : e.current? = some l) :
    Consumes (compileExpressionList t callee) false e e.pending fun count ls =>
      ∃ args : ArgumentList, ls = args.print ∧ count = UInt32.ofNat args.length := by
  unfold compileExpressionList expressionListBy
  refine .check hcurrent ?_
  cases hl : l.beginsTerm with
  | true =>
      refine Consumes.bind (consumes_expression hplaced hcurrent hl) hplaced (Nat.lt_succ_self _) ?_
      rintro - - e' ⟨x, rfl⟩ hplaced
      refine (consumes_moreExpressions hplaced).weaken ?_
      rintro count - ⟨args, rfl, rfl⟩
      exact ⟨.cons x args, rfl, by simp [ArgumentList.length, UInt32.add_comm]⟩
  | false =>
      refine Consumes.bind (Consumes.retreat hplaced) hplaced (Nat.lt_succ_self _) ?_
      rintro - - e' rfl hplaced
      exact .pure hplaced ⟨.nil, rfl, rfl⟩

theorem consumes_define {storage : Storage} {type : String} (hplaced : Placed n e) :
    Consumes (define t storage type) true e e.rest
      fun _ ls => ∃ x : Identifier, ls = [x.lexeme] := by
  have hleads := (hplaced.owes t [.need (.varName storage type)]).define
  refine (Consumes.of_owes (d := true) hplaced (by simp) hleads).weaken ?_
  rintro - ls ⟨es, hy⟩
  obtain ⟨x, hx, -⟩ := yields_singleton.mp hy
  exact ⟨x, hx⟩

theorem consumes_moreParameters (hplaced : Placed n e) :
    Consumes (compileMoreParameters t) true e e.rest fun _ ls =>
      ∃ ps : List Parameter, ls = ps.flatMap fun q => mark ',' :: q.print := by
  unfold compileMoreParameters
  revert e
  apply Returns.recursively
  intro again e hplaced hagain
  refine Consumes.advance hplaced.tight ?_
  intro l e' hcurrent hplaced'
  refine Consumes.check hcurrent ?_
  cases hcomma : l.isSymbol ',' with
  | true =>
      obtain rfl := eq_mark (hplaced'.proper_current hcurrent) hcomma
      refine Consumes.cons hcurrent ?_
      refine Consumes.advance (hplaced'.mono (Nat.le_succ _)) ?_
      intro l e' hcurrent hplaced'
      refine Consumes.expectType hcurrent ?_
      intro htype
      obtain ⟨type, htype⟩ := Option.isSome_iff_exists.mp htype
      obtain ⟨type, rfl, -⟩ := exists_type (hplaced'.proper_current hcurrent) htype
      refine Consumes.cons hcurrent ?_
      refine Consumes.bind (consumes_define hplaced') hplaced' hplaced'.ahead ?_
      rintro - - e' ⟨x, rfl⟩ hplaced'
      have hmore := hagain e' hplaced'.shorter (hplaced'.mono (Nat.le_of_lt hplaced.ahead))
      refine Consumes.weaken hmore ?_
      rintro - - ⟨ps, rfl⟩
      exact ⟨⟨type, x⟩ :: ps, rfl⟩
  | false =>
      refine (Consumes.retreat hplaced').weaken ?_
      rintro - - rfl
      exact ⟨[], rfl⟩

theorem consumes_parameterList (hplaced : Placed n e) (hcurrent : e.current? = some l) :
    Consumes (compileParameterList t) true e e.pending fun _ ls =>
      ∃ ps : List Parameter, ls = printParameters ps := by
  unfold compileParameterList
  refine .check hcurrent ?_
  cases htype : l.type? with
  | some type =>
      obtain ⟨type, rfl, -⟩ := exists_type (hplaced.proper_current hcurrent) htype
      refine Consumes.text hcurrent ?_
      refine Consumes.cons hcurrent ?_
      refine Consumes.bind (consumes_define hplaced) hplaced hplaced.ahead ?_
      rintro - - e' ⟨x, rfl⟩ hplaced
      refine (consumes_moreParameters hplaced).weaken ?_
      rintro - - ⟨ps, rfl⟩
      exact ⟨⟨type, x⟩ :: ps, rfl⟩
  | none =>
      refine (Consumes.retreat hplaced).weaken ?_
      rintro - - rfl
      exact ⟨[], rfl⟩

theorem consumes_statements_repeat : ∀ {n : Nat} {e : Engine} {l : Lexeme}, Placed n e →
    e.current? = some l →
      Consumes (Nat.repeat (statementsBy t) n tooDeep) false e e.pending fun _ ls =>
        ∃ ss : StatementList, ls = ss.print
  | 0, _, _, hplaced, _ => absurd hplaced.ahead (Nat.not_lt_zero _)
  | n + 1, e, l, hplaced, hcurrent => by
      rw [Nat.repeat, statementsBy]
      cases hitems : statementItems? l with
      | some items =>
          have hleads :=
            (readsStatements_repeat t n).statement hcurrent hitems (hplaced.owes t items)
          have hstatement := Consumes.of_leads (d := false) hplaced
            (fun _ => declares_statementItems? hitems) hleads
          refine Consumes.cons hcurrent ?_
          refine Consumes.bind hstatement hplaced hplaced.ahead ?_
          rintro found ls e' ⟨rfl, es, hy⟩ hplaced
          obtain ⟨s, hs, -⟩ := exists_statement hitems hy
          refine Consumes.advance hplaced ?_
          intro l' e' hcurrent hplaced
          refine (consumes_statements_repeat hplaced hcurrent).weaken ?_
          rintro - - ⟨ss, rfl⟩
          refine ⟨.cons s ss, ?_⟩
          rw [StatementList.print, ← hs, List.cons_append]
      | none =>
          refine Returns.bind (ReadsStatements.noStatement hcurrent hitems) ?_
          rintro found e' ⟨rfl, rfl⟩
          refine (Consumes.retreat hplaced).weaken ?_
          rintro - - rfl
          exact ⟨.nil, rfl⟩

theorem consumes_statements (hplaced : Placed n e) (hcurrent : e.current? = some l) :
    Consumes (compileStatements t) false e e.pending fun _ ls =>
      ∃ ss : StatementList, ls = ss.print := by
  have hrepeat := consumes_statements_repeat (t := t) hplaced.tight hcurrent
  rw [length_rest] at hrepeat
  unfold compileStatements
  exact Returns.of_repeat hrepeat

/-! ## Productions -/

/-- The procedure of a production, and the number that it returns, if it does. -/
def procedure (t : Target) : Production → EngineM (Option UInt32)
  | .classDec => do compileClass t; return none
  | .classVarDec => do compileClassVarDec t; return none
  | .subroutineDec => do compileSubroutineDec t; return none
  | .parameterList => do compileParameterList t; return none
  | .subroutineBody => do compileSubroutineBody t; return none
  | .varDec => do compileVarDec t; return none
  | .statements => do compileStatements t; return none
  | .letStatement => do compileLet t; return none
  | .ifStatement => do compileIf t; return none
  | .whileStatement => do compileWhile t; return none
  | .doStatement => do compileDo t; return none
  | .returnStatement => do compileReturn t; return none
  | .expression => do compileExpression t; return none
  | .term => do compileTerm t; return none
  | .subroutineCall => do compileSubroutineCall t; return none
  | .expressionList callee => do return some (← compileExpressionList t callee)

theorem Returns.andReturn {Q : Failure → Engine → Prop} {P : β → Engine → Prop} {f : α → β}
    (h : Returns x e Q fun a e' => P (f a) e') : Returns (x >>= fun a => Pure.pure (f a)) e Q P :=
  h.bind fun _ _ h => .pure h

theorem items_of_statementAfter? {first : String} (h : statementAfter? first l = some items) :
    statementItems? (word first) = some items := by
  obtain ⟨hword, hitems⟩ := Option.ite_none_right_eq_some.mp h
  rwa [eq_word hword] at hitems

/-- A production is read after its first lexeme as its items say. -/
theorem leads_procedure {p : Production} {o : Ending}
    (hcurrent : e.current? = some l) (hitems : p.items? l = some items)
    (h : Owes t n o (items ++ []) e) :
    Leads (procedure t p) e o fun _ e' => Owes t n o [] e' := by
  cases p with
  | classDec =>
      obtain ⟨-, ⟨⟩⟩ := Option.ite_none_right_eq_some.mp hitems
      refine Returns.andReturn ?_
      exact h.compileClass
  | classVarDec =>
      obtain ⟨storage, hstorage, rfl⟩ := Option.map_eq_some_iff.mp hitems
      refine Returns.andReturn ?_
      exact h.compileClassVarDec hcurrent hstorage
  | subroutineDec =>
      obtain ⟨kind, hkind, rfl⟩ := Option.map_eq_some_iff.mp hitems
      refine Returns.andReturn ?_
      exact h.compileSubroutineDec hcurrent hkind
  | subroutineBody =>
      obtain ⟨-, ⟨⟩⟩ := Option.ite_none_right_eq_some.mp hitems
      refine Returns.andReturn ?_
      exact h.compileSubroutineBody
  | varDec =>
      obtain ⟨-, ⟨⟩⟩ := Option.ite_none_right_eq_some.mp hitems
      refine Returns.andReturn ?_
      exact h.compileNames
  | letStatement =>
      cases items_of_statementAfter? hitems
      refine Returns.andReturn ?_
      exact h.compileLet
  | ifStatement =>
      cases items_of_statementAfter? hitems
      refine Returns.andReturn ?_
      exact (readsStatements t n).ifStatement h
  | whileStatement =>
      cases items_of_statementAfter? hitems
      refine Returns.andReturn ?_
      exact (readsStatements t n).whileStatement h
  | doStatement =>
      cases items_of_statementAfter? hitems
      refine Returns.andReturn ?_
      exact h.compileDo
  | returnStatement =>
      cases items_of_statementAfter? hitems
      refine Returns.andReturn ?_
      exact h.compileReturn
  | expression =>
      refine Returns.andReturn ?_
      exact (readsTerms t n).expression hcurrent hitems h
  | term =>
      refine Returns.andReturn ?_
      exact readsTerms t n (Nat.le_refl _) hcurrent hitems h
  | subroutineCall =>
      obtain ⟨name, hname, rfl⟩ := Option.map_eq_some_iff.mp hitems
      refine Returns.andReturn ?_
      refine (ReadsTerms.leads_name hcurrent hname).bind ?_
      rintro name' e' ⟨rfl, rfl⟩
      exact h.call
  | parameterList | statements | expressionList => cases hitems

/-- What a procedure has read and what it returns go together. -/
structure Fits (p : Production) (ls : List Lexeme) (count : Option UInt32) : Prop where
  derives : p.Derives ls
  isList_of_nil : ls = [] → p.isList = true
  count_eq : ∀ callee, p = .expressionList callee →
    ∃ args : ArgumentList, ls = args.print ∧ count = some (UInt32.ofNat args.length)

theorem consumes_procedure (p : Production) (hplaced : Placed n e)
    (hcurrent : e.current? = some l) (hfirst : p.isList = true ∨ (p.items? l).isSome = true) :
    Consumes (procedure t p) p.declares e e.pending fun count ls => Fits p ls count := by
  have hl := hplaced.proper_current hcurrent
  by_cases hp : p.isList = true
  · cases p with
    | parameterList =>
        refine Returns.andReturn ?_
        refine (consumes_parameterList hplaced hcurrent).weaken ?_
        rintro - ls h
        refine ⟨h, fun _ => rfl, ?_⟩
        rintro callee ⟨⟩
    | statements =>
        refine Returns.andReturn ?_
        refine (consumes_statements hplaced hcurrent).weaken ?_
        rintro - ls h
        refine ⟨h, fun _ => rfl, ?_⟩
        rintro callee ⟨⟩
    | expressionList callee =>
        refine Returns.andReturn ?_
        refine (consumes_expressionList hplaced hcurrent).weaken ?_
        rintro count - ⟨args, rfl, rfl⟩
        refine ⟨⟨args, rfl⟩, fun _ => rfl, fun _ _ => ⟨args, rfl, rfl⟩⟩
    | _ => cases hp
  · obtain ⟨items, hitems⟩ := Option.isSome_iff_exists.mp (hfirst.resolve_left hp)
    have hleads := leads_procedure hcurrent hitems (hplaced.owes t items)
    refine .cons hcurrent ?_
    refine (Consumes.of_owes hplaced (fun hd => p.declares_items? hd hitems) hleads).weaken ?_
    rintro count ls ⟨es, hy⟩
    refine ⟨p.derives_of_yields hl hitems hy, ?_, ?_⟩
    · rintro ⟨⟩
    · rintro callee rfl
      cases hitems

theorem drop_lexemes {i : Nat} (h : e.tape.cursor.position = some i) :
    (e.tape.tokens.map (·.toLexeme)).drop i = e.pending := by
  obtain ⟨token, before, hseen, rfl, -⟩ := Tape.seen_of_position h
  simp [Tape.tokens, pending, rest, current?, Tape.current?, hseen]

/-- Where an engine stands after the lexemes that it has come over. -/
theorem Covers.cursor_eq {tokens : List Token} {ls : List Lexeme} {i : Nat}
    (hcursor : e.tape.cursor = { tokens := tokens, position := some i })
    (h : Covers tokens e.pending ls e') :
    ∃ j, e'.tape.cursor = { tokens := tokens, position := some j } ∧ j + 1 = i + ls.length ∧
      (tokens.map (·.toLexeme)).extract i (j + 1) = ls := by
  obtain ⟨rfl, hi⟩ := Cursor.mk.inj hcursor
  have hpending : (e.tape.tokens.map (·.toLexeme)).drop i = e.pending := drop_lexemes hi
  have hrest : (e.tape.tokens.map (·.toLexeme)).drop e'.tape.seen.length = e'.rest := by
    rw [← h.tokens_eq, ← List.map_drop, e'.tape.drop_tokens, rest]
  have hseen := List.length_pos_iff.mpr h.seen
  have hlength : e'.tape.seen.length = i + ls.length := by
    have hdue := congrArg List.length h.due_eq
    rw [← hpending, ← hrest, List.length_append, List.length_drop, List.length_drop,
      List.length_map] at hdue
    obtain ⟨_, _, -, -, htoken⟩ := Tape.seen_of_position hi
    obtain ⟨hi, -⟩ := List.getElem?_eq_some_iff.mp htoken
    have htokens := e'.tape.length_tokens
    rw [h.tokens_eq] at htokens
    omega
  refine ⟨e'.tape.seen.length - 1, ?_, by omega, ?_⟩
  · rw [e'.tape.cursor_of_seen h.seen, h.tokens_eq]
  · rw [Nat.sub_add_cancel hseen, hlength, List.extract_eq_take_drop, hpending, h.due_eq,
      Nat.add_sub_cancel_left, List.take_left]

end

end Engine

/-- A procedure that is entered on the token `i` of a source text, the first of its production,
returns. If it does not fail, then it has read a derivation of the production, from that token to
the one where it leaves the engine. The derivation is empty for lists only, and these are entered
on any token. A list of arguments returns their number. Statements, expressions and their parts
leave the variables, the class and the subroutine as they were, whether they fail or not. -/
theorem productions_keep_position {source : String} {tokens : List Token}
    (hscan : scan source = .ok tokens) (t : Target) (p : Production) {e : Engine} {i : Nat}
    {token : Token} (hcursor : e.tape.cursor = { tokens := tokens, position := some i })
    (htoken : tokens[i]? = some token)
    (hfirst : p.isList = true ∨ (p.items? token.toLexeme).isSome = true) :
    let lexemes := tokens.map (·.toLexeme)
    ∃ r e', (Engine.procedure t p).run.run e = some (r, e') ∧
      (∀ count, r = .ok count → ∃ j,
        e'.tape.cursor = { tokens := tokens, position := some j } ∧ i ≤ j + 1 ∧
          p.Derives (lexemes.extract i (j + 1)) ∧ (j + 1 = i → p.isList = true) ∧
          ∀ callee, p = .expressionList callee → ∃ args : ArgumentList,
            lexemes.extract i (j + 1) = args.print ∧
              count = some (UInt32.ofNat args.length)) ∧
      (p.declares = false → e.scope.Like e'.scope) := by
  intro lexemes
  obtain ⟨htokens, hi⟩ := Cursor.mk.inj hcursor
  obtain ⟨_, before, hseen, -, hcurrent⟩ := Tape.seen_of_position hi
  rw [htokens, htoken] at hcurrent
  obtain rfl := Option.some.inj hcurrent
  have hcurrent : e.current? = some token.toLexeme := by
    rw [Engine.current?, Tape.current?, hseen]
    rfl
  have hplaced : e.Placed (e.rest.length + 1) := by
    refine ⟨by simp [hseen], Nat.lt_succ_self _, ?_⟩
    intro token htoken
    rw [htokens] at htoken
    exact proper_of_scan hscan _ (List.mem_map_of_mem htoken)
  obtain ⟨r, e', hrun, hr⟩ := Engine.consumes_procedure (t := t) p hplaced hcurrent hfirst
  refine ⟨r, e', hrun, ?_⟩
  cases r with
  | error failure =>
      refine ⟨?_, hr⟩
      rintro count ⟨⟩
  | ok count =>
      obtain ⟨hkeeps, ls, hcovers, hfits⟩ := hr
      refine ⟨?_, hkeeps⟩
      intro _ hok
      cases hok
      rw [htokens] at hcovers
      obtain ⟨j, hcursor', hj, hread⟩ := hcovers.cursor_eq hcursor
      change lexemes.extract i (j + 1) = ls at hread
      refine ⟨j, hcursor', by omega, ?_⟩
      rw [hread]
      refine ⟨hfits.derives, ?_, hfits.count_eq⟩
      intro hempty
      exact hfits.isList_of_nil (List.eq_nil_of_length_eq_zero (by omega))

/-- Two arguments in parentheses. -/
def argumentTokens : List Token :=
  [mark '(', ⟨.identifier, "x"⟩, mark ',', ⟨.integerConstant, "1"⟩, mark ')'].map (⟨·, 1⟩)

/-- An engine in a function with one variable, on a token of the arguments. -/
def amongArguments (i : Nat) (code : List Instruction) : Engine where
  tape := .ofCursor { tokens := argumentTokens, position := some i }
  scope := {
    table := { ofSubroutine := [("x", ⟨"int", .var, 0⟩)], vars := 1 }
    className := "Main"
    subroutine := "main" }
  sink := (Sink.writeAll {} code).1

theorem productions_keep_position_arguments :
    let t : Target := ⟨"Main", {}⟩
    let p := Production.expressionList (.dotted "A" "f")
    let lexemes := argumentTokens.map (·.toLexeme)
    let code := [.push .locals 0, .push .constant 1]
    scan "(x, 1)" = .ok argumentTokens ∧
      (Engine.procedure t p).run.run (amongArguments 1 []) =
        some (.ok (some 2), amongArguments 3 code) ∧
      p.Derives (lexemes.extract 1 4) ∧
      (∃ args : ArgumentList, lexemes.extract 1 4 = args.print ∧
        some 2 = some (UInt32.ofNat args.length)) ∧
      (amongArguments 1 []).scope.Like (amongArguments 3 code).scope := by
  intro t p lexemes code
  have hscan : scan "(x, 1)" = .ok argumentTokens := rfl
  have hrun : (Engine.procedure t p).run.run (amongArguments 1 []) =
      some (.ok (some 2), amongArguments 3 code) := by
    rfl
  obtain ⟨r, e', hrun', hreturns, hlike⟩ :=
    productions_keep_position hscan t p (e := amongArguments 1 []) rfl rfl (.inl rfl)
  obtain ⟨rfl, rfl⟩ := Prod.mk.inj (Option.some.inj (hrun'.symm.trans hrun))
  obtain ⟨j, hcursor, -, hderives, -, hcount⟩ := hreturns _ rfl
  obtain rfl : 3 = j := Option.some.inj (congrArg Cursor.position hcursor)
  exact ⟨hscan, hrun, hderives, hcount _ rfl, hlike rfl⟩

end JackVm
