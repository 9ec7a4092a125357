import JackVm.Proofs.Online

/-!
# The engine and the compiler, side by side

The engine keeps what is still to be read on its own call stack, and so it has to be compared with
a compiler that keeps it as a list of items. While a procedure runs, `Owes` says what the compiler
comes to if some items are read after the current lexeme, and `Faces` says so when the engine has
stepped ahead to the lexeme that is fed to them. Each step of the engine leads from one such
statement to the next, or fails exactly as the compiler does: a step ahead (`Owes.advance`), a
step back (`Faces.retreat`), an event (`Owes.raise`).

What a procedure leaves is said by `Returns`, for a failure and for a result. That a procedure
returns at all is a part of it, and holds of one that calls itself if each call is made with fewer
tokens ahead (`Returns.recursively`).
-/

namespace JackVm

/-! ## Tapes and cursors -/

namespace Tape

variable {s : Tape} {token : Token} {rest : List Token}

theorem forward_of_ahead (h : s.ahead = token :: rest) :
    s.forward = .ok ⟨token :: s.seen, rest⟩ := by
  rw [forward, h]

/-- A tape is given by its tokens and the place of the current one. -/
theorem ofCursor_tokens (h : s.seen ≠ []) :
    ofCursor { tokens := s.tokens, position := some (s.seen.length - 1) } = s := by
  have hnext : Cursor.next { tokens := s.tokens, position := some (s.seen.length - 1) } =
      s.seen.reverse.length := by
    rw [List.length_reverse]
    exact Nat.sub_add_cancel (List.length_pos_iff.mpr h)
  rw [ofCursor, Cursor.ahead, hnext, tokens, List.take_left, List.drop_left, List.reverse_reverse]

theorem tokens_ofCursor (c : Cursor) : (ofCursor c).tokens = c.tokens := by
  rw [tokens, ofCursor, List.reverse_reverse, Cursor.ahead, List.take_append_drop]

theorem length_tokens (s : Tape) : s.tokens.length = s.seen.length + s.ahead.length := by
  rw [tokens, List.length_append, List.length_reverse]

theorem drop_tokens (s : Tape) : s.tokens.drop s.seen.length = s.ahead := by
  rw [tokens, ← List.length_reverse, List.drop_left]

theorem cursor_of_seen (s : Tape) (h : s.seen ≠ []) :
    s.cursor = { tokens := s.tokens, position := some (s.seen.length - 1) } := by
  obtain ⟨token, before, hseen⟩ := List.exists_cons_of_ne_nil h
  rw [cursor, hseen]
  rfl

/-- The current token is the one where the cursor is. -/
theorem seen_of_position {i : Nat} (h : s.cursor.position = some i) :
    ∃ token before, s.seen = token :: before ∧ before.length = i ∧ s.tokens[i]? = some token := by
  obtain ⟨seen, ahead⟩ := s
  cases seen with
  | nil => cases h
  | cons token before =>
      obtain rfl : before.length = i := Option.some.inj h
      exact ⟨token, before, rfl, rfl, by simp [tokens]⟩

theorem tokens_forward (h : s.ahead = token :: rest) :
    tokens ⟨token :: s.seen, rest⟩ = s.tokens := by
  simp [tokens, h]

theorem line_of_seen (h : s.seen ≠ []) :
    s.line = Cursor.lineAt { tokens := s.tokens } (some (s.seen.length - 1)) := by
  obtain ⟨token, before, hseen⟩ := List.exists_cons_of_ne_nil h
  simp [line, current?, Cursor.lineAt, tokens, hseen]

end Tape

namespace Engine

/-! ## What a procedure leads to -/

section
variable {α β : Type} {x : EngineM α} {f : α → EngineM β} {e : Engine}
  {Q : Failure → Engine → Prop} {P P' : α → Engine → Prop} {R : β → Engine → Prop}

theorem run_bind (x : EngineM α) (f : α → EngineM β) (e : Engine) :
    (x >>= f).run.run e =
      match x.run.run e with
      | some (.ok a, e') => (f a).run.run e'
      | some (.error failure, e') => some (.error failure, e')
      | none => none := by
  change (x.run.run e).bind (fun r => ExceptT.bindCont f r.1 r.2) = _
  rcases x.run.run e with - | ⟨r, e'⟩
  · rfl
  · cases r with
    | ok a => rfl
    | error failure => rfl

/-- The procedure returns, and what it leaves is in `P`, or in `Q` if it fails. -/
def Returns (x : EngineM α) (e : Engine) (Q : Failure → Engine → Prop)
    (P : α → Engine → Prop) : Prop :=
  ∃ r e', x.run.run e = some (r, e') ∧
    match r with
    | .ok a => P a e'
    | .error failure => Q failure e'

namespace Returns

theorem pure {a : α} (h : P a e) : Returns (pure a) e Q P := ⟨.ok a, e, rfl, h⟩

theorem bind (h : Returns x e Q P) (hf : ∀ a e', P a e' → Returns (f a) e' Q R) :
    Returns (x >>= f) e Q R := by
  obtain ⟨r, e', hrun, hr⟩ := h
  cases r with
  | ok a =>
      obtain ⟨r', e'', hrun', hr'⟩ := hf a e' hr
      exact ⟨r', e'', by rw [run_bind, hrun]; exact hrun', hr'⟩
  | error failure => exact ⟨.error failure, e', by rw [run_bind, hrun], hr⟩

theorem mono (h : Returns x e Q P) (hP : ∀ a e', P a e' → P' a e') : Returns x e Q P' := by
  obtain ⟨r, e', hrun, hr⟩ := h
  refine ⟨r, e', hrun, ?_⟩
  cases r with
  | ok a => exact hP a e' hr
  | error failure => exact hr

theorem fail {cause : Cause} (h : Q (.compile cause e.tape.line) e) :
    Returns (fail cause : EngineM α) e Q P := ⟨_, _, rfl, h⟩

theorem check {test : Lexeme → Bool} {f : Bool → EngineM β} {l : Lexeme}
    (hcurrent : e.current? = some l) (h : Returns (f (test l)) e Q R) :
    Returns (check test >>= f) e Q R := by
  have hcheck : Returns (Engine.check test) e Q fun b e' => b = test l ∧ e' = e :=
    ⟨_, _, rfl, by rw [hcurrent]; rfl, rfl⟩
  refine hcheck.bind ?_
  rintro b e' ⟨rfl, rfl⟩
  exact h

/-- The engine asks about the lexeme what decides about `found` and `rest`. -/
theorem branch (test : Lexeme → Bool) {x y : EngineM β} {l : Lexeme} {γ : Type}
    {found rest c : γ} (hcurrent : e.current? = some l) (h : (if test l then found else rest) = c)
    (hx : test l = true → found = c → Returns x e Q R) (hy : rest = c → Returns y e Q R) :
    Returns (do if ← Engine.check test then x else y) e Q R := by
  refine Returns.check hcurrent ?_
  split at h
  · next htest =>
      rw [if_pos htest]
      exact hx htest h
  · next htest =>
      rw [if_neg htest]
      exact hy h

theorem of_text {l : Lexeme} (hcurrent : e.current? = some l) :
    Returns text e Q fun s e' => s = l.text ∧ e' = e :=
  ⟨_, _, rfl, by rw [hcurrent]; rfl, rfl⟩

theorem text {f : String → EngineM β} {l : Lexeme} (hcurrent : e.current? = some l)
    (h : Returns (f l.text) e Q R) : Returns (text >>= f) e Q R := by
  refine (of_text hcurrent).bind ?_
  rintro s e' ⟨rfl, rfl⟩
  exact h

end Returns

/-- What holds of a procedure that calls itself, to any depth. -/
theorem repeat_of_step {π : Type} {W : Nat → π → Prop} {body : π → π} {p : π} (hzero : W 0 p)
    (hstep : ∀ n p, W n p → W (n + 1) (body p)) : ∀ n, W n (Nat.repeat body n p)
  | 0 => hzero
  | n + 1 => hstep n _ (repeat_of_step hzero hstep n)

namespace Returns

section
variable {π ι : Type} {H : ι → Engine → Prop} {Q : ι → Engine → Failure → Engine → Prop}
  {P : ι → Engine → α → Engine → Prop}

/-- A call that is not deeper than there are tokens ahead does what is said of it, if that is shown
for the body from what is said of the calls inside, as far as these are made with fewer tokens
ahead. -/
theorem repeated {body : π → π} {p : π} (call : π → ι → EngineM α)
    (hbody : ∀ x i e, H i e →
      (∀ j e', e'.tape.ahead.length < e.tape.ahead.length → H j e' →
        Returns (call x j) e' (Q j e') (P j e')) →
      Returns (call (body x) i) e (Q i e) (P i e)) (n : Nat) :
    ∀ i e, e.tape.ahead.length < n → H i e →
      Returns (call (Nat.repeat body n p) i) e (Q i e) (P i e) := by
  refine repeat_of_step (W := fun n x => ∀ i e, e.tape.ahead.length < n → H i e →
    Returns (call x i) e (Q i e) (P i e)) ?_ ?_ n
  · intro i e hn
    exact absurd hn (Nat.not_lt_zero _)
  · intro n x hx i e hn h
    refine hbody x i e h ?_
    intro j e' hlt
    exact hx j e' (Nat.lt_of_lt_of_le hlt (Nat.le_of_lt_succ hn))

theorem recursivelyFrom {body : (ι → EngineM α) → ι → EngineM α}
    (hbody : ∀ again i e, H i e →
      (∀ j e', e'.tape.ahead.length < e.tape.ahead.length → H j e' →
        Returns (again j) e' (Q j e') (P j e')) →
      Returns (body again i) e (Q i e) (P i e)) {e : Engine} {i : ι} (h : H i e) :
    Returns (recursivelyFrom i body) e (Q i e) (P i e) :=
  repeated (fun x => x) hbody _ i e (Nat.lt_succ_self _) h

end

theorem of_repeat {body : EngineM α → EngineM α}
    (h : Returns (Nat.repeat body (e.tape.ahead.length + 1) tooDeep) e Q P) :
    Returns (recursively body) e Q P := h

theorem recursively {body : EngineM α → EngineM α} {H : Engine → Prop}
    {Q : Engine → Failure → Engine → Prop} {P : Engine → α → Engine → Prop}
    (hbody : ∀ again e, H e →
      (∀ e', e'.tape.ahead.length < e.tape.ahead.length → H e' →
        Returns again e' (Q e') (P e')) →
      Returns (body again) e (Q e) (P e)) {e : Engine} (h : H e) :
    Returns (recursively body) e (Q e) (P e) := by
  apply of_repeat
  refine repeated (H := fun _ => H) (Q := fun _ => Q) (P := fun _ => P) (fun x (_ : Unit) => x)
    ?_ _ () e (Nat.lt_succ_self _) h
  intro again _ e h hagain
  exact hbody again e h (hagain ())

end Returns

/-- The procedure returns. Either it fails, and the class comes out as `o`, or what it leaves is in
`P`. -/
abbrev Leads (x : EngineM α) (e : Engine) (o : Ending)
    (P : α → Engine → Prop) : Prop :=
  Returns x e (fun failure e' => (.error failure, e') = o) P

end

/-! ## The compiler beside the engine -/

end Engine

namespace Compiler

variable {t : Target} {c d : Compiler}

/-- The compilers come to the same. One that has stopped does not look at its items again. -/
def Alike (c d : Compiler) : Prop :=
  c = d ∨ (c.stopped.isSome ∧ c.stopped = d.stopped ∧ c.scope = d.scope ∧ c.sink = d.sink ∧
    c.log = d.log)

theorem Alike.run (h : c.Alike d) (ls : List Lexeme) : (c.run t ls).Alike (d.run t ls) := by
  rcases h with rfl | ⟨hc, hstopped, h⟩
  · exact .inl rfl
  · have hd : d.stopped.isSome := by rwa [← hstopped]
    rw [run_of_stopped hc, run_of_stopped hd]
    exact .inr ⟨hc, hstopped, h⟩

theorem Alike.ending (h : c.Alike d) (tokens : List Token) :
    c.ending tokens = d.ending tokens := by
  rcases h with rfl | ⟨hc, hstopped, hscope, hsink, hlog⟩
  · rfl
  · obtain ⟨stop, hc⟩ := Option.isSome_iff_exists.mp hc
    simp only [Compiler.ending, fault?, position, ← hstopped, hc, hscope, hsink, hlog,
      Option.some_or]

/-- What a compiler does with what it was fed. -/
def follow (t : Target) (c : Compiler) (fed : Fed) : Compiler :=
  (c.performAll t fed.events).proceed fed.rest

theorem follow_of_stopped (h : c.stopped.isSome) (fed : Fed) : c.follow t fed = c := by
  rw [follow, performAll_of_stopped h, proceed_of_stopped h]

theorem step_eq_follow (hc : c.stopped = none) (l : Lexeme) :
    c.step t l = c.follow t (feed l c.items) := by
  rw [step, follow]
  split
  · next hstop => cases hc.symm.trans hstop
  · rfl

theorem perform_setItems (c : Compiler) (items : List Item) (k : Nat) (event : Event) :
    { c with items := items }.perform t k event = { c.perform t k event with items := items } := by
  obtain ⟨items', scope, sink, log, next, stopped⟩ := c
  cases stopped with
  | some stop => rfl
  | none =>
      simp only [perform]
      split
      · rfl
      · split
        all_goals rfl

theorem perform_setNext (c : Compiler) (next k : Nat) (event : Event) :
    { c with next := next }.perform t k event = { c.perform t k event with next := next } := by
  obtain ⟨items, scope, sink, log, next', stopped⟩ := c
  cases stopped with
  | some stop => rfl
  | none =>
      simp only [perform]
      split
      · rfl
      · split
        all_goals rfl

/-- What is on the stack before does not matter for what a compiler does with what it was fed. -/
theorem follow_setItems (items : List Item) (rest : Except Refusal (List Item)) :
    ∀ (events : List (Place × Event)) (c : Compiler),
      Alike ({ c with items := items }.follow t ⟨events, rest⟩) (c.follow t ⟨events, rest⟩)
  | [], c => by
      obtain ⟨items', scope, sink, log, next, stopped⟩ := c
      cases stopped with
      | some stop => exact .inr ⟨rfl, rfl, rfl, rfl, rfl⟩
      | none =>
          cases rest with
          | ok new => exact .inl rfl
          | error r => exact .inr ⟨rfl, rfl, rfl, rfl, rfl⟩
  | (place, event) :: events, c => by
      have hstep := follow_setItems items rest events (c.perform t (place.index c.next) event)
      rw [← perform_setItems] at hstep
      exact hstep

/-- A compiler whose stack has no events on top waits for the lexeme. -/
theorem follow_feed_settled {l : Lexeme} {ls : List Lexeme} {items : List Item}
    (hitems : settle items = ⟨[], .ok items⟩) (c : Compiler) :
    Alike ((c.follow t (settle items)).run t (l :: ls))
      (({ c with next := c.next + 1 }.follow t (feed l items)).run t ls) := by
  rw [hitems]
  rcases Option.eq_none_or_eq_some c.stopped with hc | ⟨stop, hc⟩
  · have hwaits : c.follow t ⟨[], .ok items⟩ = { c with items := items, next := c.next + 1 } :=
      proceed_of_running hc _
    rw [hwaits]
    change Alike ((Compiler.step t { c with items := items, next := c.next + 1 } l).run t ls) _
    rw [step_eq_follow (c := { c with items := items, next := c.next + 1 }) hc]
    exact (follow_setItems items _ _ { c with next := c.next + 1 }).run ls
  · have hsome : c.stopped.isSome := by rw [hc]; rfl
    have hsome' : ({ c with next := c.next + 1 } : Compiler).stopped.isSome := hsome
    rw [follow_of_stopped hsome, follow_of_stopped hsome', run_of_stopped hsome,
      run_of_stopped hsome']
    exact .inr ⟨hsome, rfl, rfl, rfl, rfl⟩

/-- What a compiler does after some items, it does as well when the next lexeme is fed to them. -/
theorem follow_feed (l : Lexeme) (ls : List Lexeme) : ∀ (items : List Item) (c : Compiler),
    Alike ((c.follow t (settle items)).run t (l :: ls))
      (({ c with next := c.next + 1 }.follow t (feed l items)).run t ls)
  | .raise event :: items, c => by
      have hitems := follow_feed l ls items (c.perform t c.next event)
      rw [next_perform, ← perform_setNext] at hitems
      exact hitems
  | .need g :: items, c => follow_feed_settled rfl c
  | [], c => follow_feed_settled rfl c

end Compiler

namespace Engine

/-- The compiler that has read up to the current lexeme, with nothing left on the stack. -/
def compiler (e : Engine) : Compiler where
  items := []
  scope := e.scope
  sink := e.sink
  log := e.log
  next := e.tape.seen.length - 1

/-- What the compiler comes to, if the current lexeme has led to `fed`. -/
def comesTo (t : Target) (fed : Fed) (e : Engine) : Ending :=
  ((e.compiler.follow t fed).run t (e.tape.ahead.map Token.toLexeme)).ending e.tape.tokens

section
variable {t : Target} {e : Engine} {items : List Item} {token : Token} {rest : List Token}

theorem comesTo_forward (hseen : e.tape.seen ≠ []) (hahead : e.tape.ahead = token :: rest) :
    e.comesTo t (settle items) =
      { e with tape := ⟨token :: e.tape.seen, rest⟩ }.comesTo t (feed token.toLexeme items) := by
  have hcompiler : compiler { e with tape := ⟨token :: e.tape.seen, rest⟩ } =
      { e.compiler with next := e.compiler.next + 1 } := by
    have hlength := List.length_pos_iff.mpr hseen
    simp only [compiler, List.length_cons, Compiler.mk.injEq, true_and, and_true]
    omega
  unfold comesTo
  rw [hcompiler, Tape.tokens_forward hahead, hahead, List.map_cons]
  exact (Compiler.follow_feed _ _ items e.compiler).ending _

/-- A compiler that stands at the current lexeme leaves the engine as it is. -/
theorem ending_eq {c : Compiler} {r : Except Failure Unit} (hseen : e.tape.seen ≠ [])
    (hresult : (c.ending e.tape.tokens).1 = r)
    (hposition : c.position = some (e.tape.seen.length - 1)) (hscope : c.scope = e.scope)
    (hsink : c.sink = e.sink) (hlog : c.log = e.log) : c.ending e.tape.tokens = (r, e) := by
  refine Prod.ext hresult ?_
  simp only [Compiler.ending, hposition, hscope, hsink, hlog, Tape.ofCursor_tokens hseen]

/-- A compiler that has stopped at the current lexeme reports a cause on its line. -/
theorem ending_of_source {c : Compiler} {cause : Cause} (hseen : e.tape.seen ≠ [])
    (hcause : cause ≠ .starved .classDec)
    (hfault : c.fault? = some (.source cause, e.tape.seen.length - 1))
    (hposition : c.position = some (e.tape.seen.length - 1)) (hscope : c.scope = e.scope)
    (hsink : c.sink = e.sink) (hlog : c.log = e.log) :
    c.ending e.tape.tokens = (.error (.compile cause e.tape.line), e) := by
  have hreport : (Fault.source cause).report { tokens := e.tape.tokens } (e.tape.seen.length - 1) =
      .compile cause e.tape.line := by
    rw [Tape.line_of_seen hseen]
    unfold Fault.report
    split
    · next heq => cases heq; exact absurd rfl hcause
    · next heq => cases heq; rfl
    · next heq => cases heq
  refine ending_eq hseen ?_ hposition hscope hsink hlog
  simp only [Compiler.ending, hfault, hreport]

theorem comesTo_refused {r : Refusal} (hseen : e.tape.seen ≠ []) :
    e.comesTo t ⟨[], .error r⟩ = (.error (.compile (.refused r) e.tape.line), e) := by
  unfold comesTo
  rw [Compiler.run_of_stopped rfl]
  exact ending_of_source hseen (by simp) rfl rfl rfl rfl rfl

theorem comesTo_starved {g : Goal} (hg : g ≠ .classDec) (hseen : e.tape.seen ≠ [])
    (hahead : e.tape.ahead = []) : e.comesTo t (settle (.need g :: items)) =
      (.error (.compile (.starved g) e.tape.line), e) := by
  unfold comesTo
  rw [hahead]
  refine ending_of_source hseen (by simpa using hg) ?_ ?_ rfl rfl rfl
  · rfl
  · rfl

theorem comesTo_done (hseen : e.tape.seen ≠ []) (hahead : e.tape.ahead = []) :
    e.comesTo t (settle []) = (.ok (), e) := by
  unfold comesTo
  rw [hahead]
  exact ending_eq hseen rfl rfl rfl rfl rfl

/-- An event is raised by the engine as it is performed by the compiler. -/
theorem leads_raise (hseen : e.tape.seen ≠ []) (event : Event) (fed : Fed) :
    Leads (raise t event) e (e.comesTo t (fed.after [(.here, event)])) fun _ e' =>
      e'.tape = e.tape ∧ e'.comesTo t fed = e.comesTo t (fed.after [(.here, event)]) := by
  have hfollow : e.comesTo t (fed.after [(.here, event)]) =
      (((e.compiler.perform t (e.tape.seen.length - 1) event).follow t fed).run t
        (e.tape.ahead.map Token.toLexeme)).ending e.tape.tokens := rfl
  rw [hfollow, Compiler.perform_of_running rfl]
  refine ⟨(e.perform t event).1, (e.perform t event).2, rfl, ?_⟩
  simp only [perform, compiler]
  rcases e.scope.perform t event with static | ⟨scope, code⟩
  · dsimp only
    rw [Compiler.follow_of_stopped rfl, Compiler.run_of_stopped rfl]
    exact (ending_of_source hseen (by simp) rfl rfl rfl rfl rfl).symm
  · dsimp only
    rcases e.sink.writeAll code with ⟨sink, _ | fault⟩
    · exact ⟨rfl, rfl⟩
    · dsimp only
      rw [Compiler.follow_of_stopped rfl, Compiler.run_of_stopped rfl]
      let full : Engine := { e with sink := sink, log := e.log ++ e.scope.records event }
      refine Eq.symm (ending_eq (e := full) hseen ?_ ?_ ?_ ?_ ?_)
      all_goals rfl

end

/-- The engine is on a lexeme, and the compiler comes to `o` if `items` are read after it. Fewer
than `n` tokens follow. -/
structure Owes (t : Target) (n : Nat) (o : Ending) (items : List Item) (e : Engine) :
    Prop where
  seen : e.tape.seen ≠ []
  ahead : e.tape.ahead.length < n
  comesTo_eq : e.comesTo t (settle items) = o

/-- The engine has stepped ahead to the lexeme `l`, and the compiler comes to `o` if `l` is fed to
`items`. -/
structure Faces (t : Target) (n : Nat) (o : Ending) (items : List Item) (l : Lexeme)
    (e : Engine) : Prop where
  current : e.current? = some l
  seen : 1 < e.tape.seen.length
  ahead : e.tape.ahead.length + 1 < n
  comesTo_eq : e.comesTo t (feed l items) = o

/-- The lexeme before the current one. -/
def previous? (e : Engine) : Option Lexeme := e.tape.seen.tail.head?.map (·.toLexeme)

/-- The lexeme after the current one. -/
def upcoming? (e : Engine) : Option Lexeme := e.tape.ahead.head?.map (·.toLexeme)

section
variable {α : Type} {t : Target} {n m : Nat} {o : Ending} {items items' K : List Item}
  {l : Lexeme} {e : Engine} {g : Goal} {event : Event} {P : α → Engine → Prop}

theorem Owes.mono (h : Owes t n o items e) (hnm : n ≤ m) : Owes t m o items e :=
  { h with ahead := Nat.lt_of_lt_of_le h.ahead hnm }

/-- No more tokens follow than do. -/
theorem Owes.tight (h : Owes t n o items e) : Owes t (e.tape.ahead.length + 1) o items e :=
  { h with ahead := Nat.lt_succ_self _ }

theorem Faces.mono (h : Faces t n o items l e) (hnm : n ≤ m) : Faces t m o items l e :=
  { h with ahead := Nat.lt_of_lt_of_le h.ahead hnm }

theorem Faces.tight (h : Faces t n o items l e) :
    Faces t (e.tape.ahead.length + 2) o items l e :=
  { h with ahead := Nat.lt_succ_self _ }

theorem Faces.weaken (h : Faces t n o items l e) : Faces t (n + 1) o items l e :=
  h.mono n.le_succ

theorem Faces.seen_ne_nil (h : Faces t n o items l e) : e.tape.seen ≠ [] :=
  List.ne_nil_of_length_pos (Nat.zero_lt_of_lt h.seen)

theorem Owes.raise (h : Owes t n o (.raise event :: K) e) :
    Leads (raise t event) e o fun _ e' => Owes t n o K e' ∧ e'.tape = e.tape := by
  obtain ⟨hseen, hahead, rfl⟩ := h
  refine (leads_raise hseen event (settle K)).mono ?_
  rintro - e' ⟨htape, heq⟩
  exact ⟨⟨by rwa [htape], by rwa [htape], heq⟩, htape⟩

theorem Faces.raise (h : Faces t n o items l e)
    (hfeed : feed l items = (feed l items').after [(.here, event)]) :
    Leads (raise t event) e o fun _ e' => Faces t n o items' l e' := by
  have hseen := h.seen_ne_nil
  obtain ⟨hcurrent, hlength, hahead, rfl⟩ := h
  rw [hfeed]
  refine (leads_raise hseen event (feed l items')).mono ?_
  rintro - e' ⟨htape, heq⟩
  exact ⟨by rwa [current?, htape], by rwa [htape], by rwa [htape], heq⟩

theorem run_move (step : Tape → Except CursorFault Tape) (e : Engine) : (move step).run.run e =
    match step e.tape with
    | .ok tape => some (.ok (), { e with tape := tape })
    | .error fault => some (.error (.compile (.cursor fault) e.tape.line), e) := by
  change (match step e.tape with | .ok tape => _ | .error fault => _ : EngineM Unit).run.run e = _
  cases step e.tape with
  | ok tape => rfl
  | error fault => rfl

theorem leads_forward {token : Token} {rest : List Token} (h : e.tape.ahead = token :: rest) :
    Leads (move Tape.forward) e o fun _ e' =>
      e' = { e with tape := ⟨token :: e.tape.seen, rest⟩ } := by
  unfold Leads Returns
  rw [run_move, Tape.forward_of_ahead h]
  exact ⟨_, _, rfl, rfl⟩

theorem run_advance (g : Goal) (e : Engine) : (advance g).run.run e =
    if e.tape.hasMore then (move Tape.forward).run.run e
    else some (.error (.compile (.starved g) e.tape.line), e) := by
  change (if e.tape.hasMore then _ else _ : EngineM Unit).run.run e = _
  cases e.tape.hasMore with
  | true => rfl
  | false => rfl

theorem Owes.advance (h : Owes t n o (.need g :: K) e) (hg : g ≠ .classDec) :
    Leads (advance g) e o fun _ e' =>
      ∃ l, Faces t n o (.need g :: K) l e' ∧ e'.previous? = e.current? ∧
        e.upcoming? = some l := by
  obtain ⟨hseen, hahead, rfl⟩ := h
  have hlength := List.length_pos_iff.mpr hseen
  unfold Leads Returns
  rw [run_advance]
  cases hrest : e.tape.ahead with
  | nil =>
      rw [comesTo_starved hg hseen hrest, Tape.hasMore, hrest]
      exact ⟨_, _, rfl, rfl⟩
  | cons token rest =>
      rw [comesTo_forward hseen hrest, Tape.hasMore, hrest, run_move,
        Tape.forward_of_ahead hrest]
      rw [hrest] at hahead
      refine ⟨_, _, rfl, token.toLexeme, ⟨rfl, Nat.succ_lt_succ hlength, hahead, rfl⟩, rfl, ?_⟩
      rw [upcoming?, hrest]
      rfl

/-- A step back is made from a lexeme that the engine has stepped ahead to. -/
theorem Faces.retreat (h : Faces t n o items l e) :
    Leads retreat e o fun _ e' =>
      Owes t n o items e' ∧ e'.current? = e.previous? ∧ e'.upcoming? = some l := by
  obtain ⟨hcurrent, hlength, hahead, rfl⟩ := h
  unfold Leads Returns Engine.retreat
  rw [run_move, Tape.back]
  obtain ⟨⟨seen, ahead⟩, scope, sink, log⟩ := e
  obtain ⟨token, seen, rfl⟩ := List.exists_cons_of_length_pos (Nat.zero_lt_of_lt hlength)
  obtain ⟨before, seen, rfl⟩ := List.exists_cons_of_length_pos (Nat.lt_of_succ_lt_succ hlength)
  obtain rfl := Option.some.inj hcurrent
  refine ⟨_, _, rfl, ⟨List.cons_ne_nil _ _, hahead, ?_⟩, rfl, rfl⟩
  exact comesTo_forward (List.cons_ne_nil _ _) rfl

/-- The lexeme is taken, and so there is one less ahead. -/
theorem Faces.settle (h : Faces t (n + 1) o items l e) (hfeed : feed l items = settle items') :
    Owes t n o items' e :=
  ⟨h.seen_ne_nil, Nat.lt_of_succ_lt_succ h.ahead, hfeed ▸ h.comesTo_eq⟩

theorem Faces.congr (h : Faces t n o items l e) (hfeed : feed l items = feed l items') :
    Faces t n o items' l e :=
  { h with comesTo_eq := hfeed ▸ h.comesTo_eq }

theorem Faces.fail {r : Refusal} (h : Faces t n o items l e)
    (hfeed : feed l items = ⟨[], .error r⟩) : Leads (fail (.refused r) : EngineM α) e o P := by
  apply Returns.fail
  rw [← h.comesTo_eq, hfeed, comesTo_refused h.seen_ne_nil]

end

end Engine

end JackVm
