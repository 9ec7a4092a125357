import JackVm.Proofs.Online

/-!
# Reading and performing, apart

The grammar never asks the scope, and the scope never asks the grammar. So what
the compiler does splits in two: `Reads` says which events some lexemes raise on
a stack of items, `Performs` which code some events stand for.

A compiler that is still running after some lexemes has read and performed them
(`reads_of_run`); lexemes that can be read and performed leave a compiler with an
unlimited sink running (`run_of_reads`). Both are deterministic, so the two
statements together say what a run leads to.
-/

namespace JackVm

/-! ## The grammar alone -/

/-- On the stack `items` the lexemes `ls` raise the events `es` and leave the
stack `final`. -/
inductive Reads : List Item → List Lexeme → List Event → List Item → Prop where
  | done (items : List Item) : Reads items [] [] items
  | raise {e : Event} {rest final : List Item} {ls : List Lexeme} {es : List Event}
      (h : Reads rest ls es final) : Reads (.raise e :: rest) ls (e :: es) final
  | take {g : Goal} {l : Lexeme} {events : List (Place × Event)}
      {items rest final : List Item} {ls : List Lexeme} {es : List Event}
      (hg : g.meet l = .take events items) (h : Reads (items ++ rest) ls es final) :
      Reads (.need g :: rest) (l :: ls) (events.map Prod.snd ++ es) final
  | leave {g : Goal} {l : Lexeme} {events : List (Place × Event)}
      {rest final : List Item} {ls : List Lexeme} {es : List Event}
      (hg : g.meet l = .leave events) (h : Reads rest (l :: ls) es final) :
      Reads (.need g :: rest) (l :: ls) (events.map Prod.snd ++ es) final

/-- No event is on top of the stack. -/
def Settled : List Item → Prop
  | .raise _ :: _ => False
  | _ => True

/-- A settled stack on which no goal waits is empty. -/
theorem Settled.eq_nil {items : List Item} (hs : Settled items) (h : awaited? items = none) :
    items = [] := by
  match items with
  | [] => rfl
  | .need g :: rest => cases h
  | .raise e :: rest => exact hs.elim

/-- Settling raises the events on top of the stack and nothing else. -/
theorem settle_spec : ∀ items : List Item, ∃ events rest,
    settle items = ⟨events, .ok rest⟩ ∧ Settled rest ∧
      items = events.map (fun e => .raise e.2) ++ rest
  | [] => ⟨[], [], rfl, trivial, rfl⟩
  | .need g :: items => ⟨[], .need g :: items, rfl, trivial, rfl⟩
  | .raise e :: items => by
      obtain ⟨events, rest, hs, hrest, hitems⟩ := settle_spec items
      refine ⟨(.here, e) :: events, rest, ?_, hrest, by simp [hitems]⟩
      simp [settle, hs]

theorem reads_raises_iff {rest final : List Item} (hf : Settled final) {ls : List Lexeme} :
    ∀ {events : List (Place × Event)} {es : List Event},
      Reads (events.map (fun e => .raise e.2) ++ rest) ls es final ↔
        ∃ es', es = events.map Prod.snd ++ es' ∧ Reads rest ls es' final
  | [], es => by simp
  | e :: events, es => by
      constructor
      · intro h
        cases h with
        | done => exact hf.elim
        | raise h =>
            obtain ⟨es', rfl, h'⟩ := (reads_raises_iff hf).mp h
            exact ⟨es', rfl, h'⟩
      · rintro ⟨es', rfl, h⟩
        exact .raise ((reads_raises_iff hf).mpr ⟨es', rfl, h⟩)

/-- Reading a lexeme is feeding it, then reading the others. -/
theorem reads_cons_iff {final : List Item} (hf : Settled final) {l : Lexeme} {ls : List Lexeme} :
    ∀ {items : List Item} {es : List Event},
      Reads items (l :: ls) es final ↔ ∃ events rest es',
        feed l items = ⟨events, .ok rest⟩ ∧ es = events.map Prod.snd ++ es' ∧
          Reads rest ls es' final
  | [], es => by
      constructor
      · intro h
        cases h
      · rintro ⟨_, _, _, h, _⟩
        simp [feed] at h
  | .raise e :: items, es => by
      constructor
      · intro h
        cases h with
        | raise h =>
            obtain ⟨events, rest, es', hfeed, rfl, h'⟩ := (reads_cons_iff hf).mp h
            exact ⟨(.before, e) :: events, rest, es', by simp [feed, Fed.after, hfeed], rfl, h'⟩
      · rintro ⟨events, rest, es', hfeed, rfl, h⟩
        rcases hitems : feed l items with ⟨events', rest'⟩
        simp only [feed, hitems, Fed.after, Fed.mk.injEq] at hfeed
        obtain ⟨rfl, rfl⟩ := hfeed
        exact .raise ((reads_cons_iff hf).mpr ⟨events', rest, es', hitems, rfl, h⟩)
  | .need g :: items, es => by
      constructor
      · intro h
        cases h with
        | take hg h =>
            rename_i events new es
            -- the events on top of the new items belong to this lexeme, too
            obtain ⟨events', rest, hs, -, hnew⟩ := settle_spec (new ++ items)
            rw [hnew] at h
            obtain ⟨es', rfl, h'⟩ := (reads_raises_iff hf).mp h
            exact ⟨events ++ events', rest, es', by simp [feed, hg, hs, Fed.after], by simp, h'⟩
        | leave hg h =>
            rename_i events es
            obtain ⟨events', rest, es', hfeed, rfl, h'⟩ := (reads_cons_iff hf).mp h
            exact ⟨events ++ events', rest, es', by simp [feed, hg, hfeed, Fed.after], by simp, h'⟩
      · rintro ⟨events, rest, es', hfeed, rfl, h⟩
        cases hg : g.meet l with
        | take events' new =>
            obtain ⟨events'', rest', hs, -, hnew⟩ := settle_spec (new ++ items)
            simp only [feed, hg, hs, Fed.after, Fed.mk.injEq, Except.ok.injEq] at hfeed
            obtain ⟨rfl, rfl⟩ := hfeed
            rw [List.map_append, List.append_assoc]
            refine .take hg ?_
            rw [hnew]
            exact (reads_raises_iff hf).mpr ⟨es', rfl, h⟩
        | leave events' =>
            rcases hitems : feed l items with ⟨events'', rest'⟩
            simp only [feed, hg, hitems, Fed.after, Fed.mk.injEq] at hfeed
            obtain ⟨rfl, rfl⟩ := hfeed
            rw [List.map_append, List.append_assoc]
            exact .leave hg ((reads_cons_iff hf).mpr ⟨events'', rest, es', hitems, rfl, h⟩)
        | refuse r => simp [feed, hg] at hfeed

/-- What a fed lexeme leaves is settled. -/
theorem settled_of_feed {l : Lexeme} : ∀ {items : List Item} {events : List (Place × Event)}
    {rest : List Item}, feed l items = ⟨events, .ok rest⟩ → Settled rest
  | [], _, _, h => by simp [feed] at h
  | .raise e :: items, events, rest, h => by
      rcases hitems : feed l items with ⟨events', rest'⟩
      simp only [feed, hitems, Fed.after, Fed.mk.injEq] at h
      obtain ⟨-, rfl⟩ := h
      exact settled_of_feed hitems
  | .need g :: items, events, rest, h => by
      cases hg : g.meet l with
      | take events' new =>
          obtain ⟨events'', rest', hs, hsettled, -⟩ := settle_spec (new ++ items)
          simp only [feed, hg, hs, Fed.after, Fed.mk.injEq, Except.ok.injEq] at h
          obtain ⟨-, rfl⟩ := h
          exact hsettled
      | leave events' =>
          rcases hitems : feed l items with ⟨events'', rest'⟩
          simp only [feed, hg, hitems, Fed.after, Fed.mk.injEq] at h
          obtain ⟨-, rfl⟩ := h
          exact settled_of_feed hitems
      | refuse r => simp [feed, hg] at h

/-- Without a lexeme a settled stack stays as it is. -/
theorem Reads.of_nil {items final : List Item} {es : List Event} (hi : Settled items)
    (h : Reads items [] es final) : es = [] ∧ final = items := by
  cases h with
  | done => exact ⟨rfl, rfl⟩
  | raise => exact hi.elim

/-- What lexemes raise and leave is determined. -/
theorem Reads.unique {items : List Item} {ls : List Lexeme} {es es' : List Event}
    {final final' : List Item} (h : Reads items ls es final) (h' : Reads items ls es' final')
    (hf : Settled final) (hf' : Settled final') (hi : Settled items) :
    es = es' ∧ final = final' := by
  induction ls generalizing items es es' with
  | nil =>
      obtain ⟨rfl, rfl⟩ := h.of_nil hi
      obtain ⟨rfl, rfl⟩ := h'.of_nil hi
      exact ⟨rfl, rfl⟩
  | cons l ls ih =>
      obtain ⟨events, rest, es₁, hfeed, rfl, h₁⟩ := (reads_cons_iff hf).mp h
      obtain ⟨events', rest', es₂, hfeed', rfl, h₂⟩ := (reads_cons_iff hf').mp h'
      rw [hfeed, Fed.mk.injEq, Except.ok.injEq] at hfeed'
      obtain ⟨rfl, rfl⟩ := hfeed'
      obtain ⟨rfl, rfl⟩ := ih h₁ h₂ (settled_of_feed hfeed)
      exact ⟨rfl, rfl⟩

/-! ## The scope alone -/

/-- In the scope `s` the events `es` stand for `code` and leave the scope `s'`. -/
def Performs (t : Target) : Scope → List Event → Scope → List Instruction → Prop
  | s, [], s', code => s' = s ∧ code = []
  | s, e :: es, s', code => ∃ m c₁ c₂,
      s.perform t e = .ok (m, c₁) ∧ Performs t m es s' c₂ ∧ code = c₁ ++ c₂

section
variable {t : Target} {s s' s'' : Scope} {code code' : List Instruction} {es es' : List Event}

@[simp] theorem performs_nil : Performs t s [] s' code ↔ s' = s ∧ code = [] := Iff.rfl

theorem performs_append : Performs t s (es ++ es') s' code ↔ ∃ m c₁ c₂,
    Performs t s es m c₁ ∧ Performs t m es' s' c₂ ∧ code = c₁ ++ c₂ := by
  induction es generalizing s code with
  | nil =>
      constructor
      · intro h
        exact ⟨s, [], code, ⟨rfl, rfl⟩, h, rfl⟩
      · rintro ⟨m, c₁, c₂, ⟨rfl, rfl⟩, h, rfl⟩
        exact h
  | cons e es ih =>
      constructor
      · rintro ⟨m, c₁, c₂, he, h, rfl⟩
        obtain ⟨n, c₃, c₄, h₁, h₂, rfl⟩ := ih.mp h
        exact ⟨n, c₁ ++ c₃, c₄, ⟨m, c₁, c₃, he, h₁, rfl⟩, h₂, (List.append_assoc ..).symm⟩
      · rintro ⟨n, c₁, c₂, ⟨m, c₃, c₄, he, h₁, rfl⟩, h₂, rfl⟩
        exact ⟨m, c₃, c₄ ++ c₂, he, ih.mpr ⟨n, c₄, c₂, h₁, h₂, rfl⟩, List.append_assoc ..⟩

theorem performs_singleton {e : Event} :
    Performs t s [e] s' code ↔ s.perform t e = .ok (s', code) := by
  constructor
  · rintro ⟨m, c₁, c₂, he, ⟨rfl, rfl⟩, rfl⟩
    simpa using he
  · intro he
    exact ⟨s', code, [], he, ⟨rfl, rfl⟩, (List.append_nil _).symm⟩

/-- What events stand for is determined. -/
theorem Performs.unique (h : Performs t s es s' code) (h' : Performs t s es s'' code') :
    s' = s'' ∧ code = code' := by
  induction es generalizing s code code' with
  | nil =>
      obtain ⟨rfl, rfl⟩ := h
      obtain ⟨rfl, rfl⟩ := h'
      exact ⟨rfl, rfl⟩
  | cons e es ih =>
      obtain ⟨m, c₁, c₂, he, h, rfl⟩ := h
      obtain ⟨m', c₁', c₂', he', h', rfl⟩ := h'
      rw [he, Except.ok.injEq, Prod.mk.injEq] at he'
      obtain ⟨rfl, rfl⟩ := he'
      obtain ⟨rfl, rfl⟩ := ih h h'
      exact ⟨rfl, rfl⟩

end

/-- The events `es` can be performed in the scope `s` exactly when `P` holds. Then
they stand for `code` and leave the scope `m`. -/
def Stands (t : Target) (s : Scope) (es : List Event) (P : Prop) (m : Scope)
    (code : List Instruction) : Prop :=
  ∀ s' code', Performs t s es s' code' ↔ P ∧ s' = m ∧ code' = code

namespace Stands

variable {t : Target} {s m n : Scope} {es es' : List Event} {P P' Q : Prop}
  {code code' : List Instruction}

theorem nil : Stands t s [] True s [] := by
  intro s' code'
  simp

theorem append (h : Stands t s es P m code) (h' : P → Stands t m es' Q n code') :
    Stands t s (es ++ es') (P ∧ Q) n (code ++ code') := by
  intro s' c
  rw [performs_append]
  constructor
  · rintro ⟨m', c₁, c₂, h₁, h₂, rfl⟩
    obtain ⟨hP, rfl, rfl⟩ := (h m' c₁).mp h₁
    obtain ⟨hQ, rfl, rfl⟩ := (h' hP s' c₂).mp h₂
    exact ⟨⟨hP, hQ⟩, rfl, rfl⟩
  · rintro ⟨⟨hP, hQ⟩, rfl, rfl⟩
    exact ⟨m, code, code', (h m code).mpr ⟨hP, rfl, rfl⟩,
      (h' hP s' code').mpr ⟨hQ, rfl, rfl⟩, rfl⟩

/-- The scope in the end matters only where the first events can be performed. -/
theorem append_exists (h : Stands t s es P m code)
    (h' : P → ∃ n, Stands t m es' Q n code') :
    ∃ n, Stands t s (es ++ es') (P ∧ Q) n (code ++ code') := by
  by_cases hP : P
  · obtain ⟨n, hn⟩ := h' hP
    exact ⟨n, h.append fun _ => hn⟩
  · refine ⟨s, fun s' c => ⟨fun hc => ?_, fun hc => absurd hc.1.1 hP⟩⟩
    obtain ⟨m', c₁, c₂, h₁, -⟩ := performs_append.mp hc
    exact absurd ((h m' c₁).mp h₁).1 hP

theorem congr (h : Stands t s es P m code) (hP : P ↔ P') : Stands t s es P' m code := by
  intro s' c
  rw [h s' c, hP]

/-- An event that can always be performed. -/
theorem always {e : Event} (h : s.perform t e = .ok (m, code)) : Stands t s [e] True m code := by
  intro s' c
  rw [performs_singleton, h, Except.ok.injEq, Prod.mk.injEq, true_and]
  exact and_congr eq_comm eq_comm

/-- An event that can always be performed, with its code written another way. -/
theorem written {e : Event} (h : s.perform t e = .ok (m, code)) (hcode : code = code') :
    Stands t s [e] True m code' := hcode ▸ always h

/-- An event that is checked. -/
theorem checked {e : Event} (hok : P → s.perform t e = .ok (m, code))
    (hno : ¬P → ∃ err, s.perform t e = .error err) : Stands t s [e] P m code := by
  by_cases hP : P
  · exact (always (hok hP)).congr (by simp [hP])
  · intro s' c
    obtain ⟨err, herr⟩ := hno hP
    rw [performs_singleton, herr]
    simp [hP]

end Stands

/-! ## The sink -/

/-- An instruction that is taken stands behind those taken before. -/
theorem Sink.write_spec {s s' : Sink} {i : Instruction} (h : s.write i = .ok s') :
    s'.code = s.code ++ [i] ∧ s'.outlet = s.outlet := by
  simp only [Sink.write] at h
  split at h
  · obtain rfl := Except.ok.inj h
    exact ⟨by simp [Sink.code], rfl⟩
  · cases h

theorem Sink.writeAll_spec : ∀ {code : List Instruction} {s s' : Sink},
    s.writeAll code = (s', none) → s'.code = s.code ++ code ∧ s'.outlet = s.outlet
  | [], s, s', h => by
      obtain ⟨rfl, -⟩ := Prod.mk.inj h
      simp
  | i :: code, s, s', h => by
      simp only [Sink.writeAll] at h
      split at h
      · next m hm =>
          obtain ⟨hcode, houtlet⟩ := Sink.writeAll_spec h
          obtain ⟨hcode₁, houtlet₁⟩ := Sink.write_spec hm
          exact ⟨by rw [hcode, hcode₁, List.append_assoc]; rfl, houtlet.trans houtlet₁⟩
      · simp at h

/-- A sink without a limit takes all code. -/
theorem Sink.writeAll_unlimited : ∀ (code : List Instruction) {s : Sink},
    s.outlet.limit = none → ∃ s', s.writeAll code = (s', none)
  | [], s, _ => ⟨s, rfl⟩
  | i :: code, s, h => by
      have hw : s.write i = .ok { s with
          taken := i :: s.taken, size := s.size + i.line.utf8ByteSize } := by
        simp [Sink.write, Outlet.admits, h]
      simp only [Sink.writeAll, hw]
      exact Sink.writeAll_unlimited code h

/-! ## The compiler -/

namespace Compiler

variable {t : Target}

/-- A compiler that performs an event and keeps running has written its code. -/
theorem perform_running {c : Compiler} {position : Nat} {e : Event}
    (h : (c.perform t position e).stopped = none) :
    c.stopped = none ∧ ∃ code, c.scope.perform t e = .ok ((c.perform t position e).scope, code) ∧
      (c.perform t position e).sink.code = c.sink.code ++ code ∧
      (c.perform t position e).sink.outlet = c.sink.outlet ∧
      (c.perform t position e).items = c.items ∧ (c.perform t position e).next = c.next := by
  cases hc : c.stopped with
  | some fault => simp [perform, hc] at h
  | none =>
      cases he : c.scope.perform t e with
      | error static => simp [perform, hc, he, stop] at h
      | ok r =>
          obtain ⟨scope, code⟩ := r
          rcases hw : c.sink.writeAll code with ⟨sink, _ | fault⟩
          · obtain ⟨hcode, houtlet⟩ := Sink.writeAll_spec hw
            have hp : c.perform t position e =
                { c with scope := scope, sink := sink, log := c.log ++ c.scope.records e } := by
              simp [perform, hc, he, hw]
            rw [hp]
            exact ⟨rfl, code, rfl, hcode, houtlet, rfl, rfl⟩
          · simp [perform, hc, he, hw, stop] at h

/-- A compiler that performs events and keeps running has written their code. -/
theorem performAll_running : ∀ {events : List (Place × Event)} {c : Compiler},
    (c.performAll t events).stopped = none →
      c.stopped = none ∧ ∃ code,
        Performs t c.scope (events.map Prod.snd) (c.performAll t events).scope code ∧
        (c.performAll t events).sink.code = c.sink.code ++ code ∧
        (c.performAll t events).sink.outlet = c.sink.outlet ∧
        (c.performAll t events).items = c.items ∧ (c.performAll t events).next = c.next
  | [], c, h => ⟨h, [], ⟨rfl, rfl⟩, (List.append_nil _).symm, rfl, rfl, rfl⟩
  | (place, e) :: events, c, h => by
      have hrest : ((c.perform t (place.index c.next) e).performAll t events).stopped = none := h
      obtain ⟨h₁, code₂, hp₂, hc₂, ho₂, hi₂, hn₂⟩ := performAll_running hrest
      obtain ⟨h₀, code₁, hp₁, hc₁, ho₁, hi₁, hn₁⟩ := perform_running h₁
      refine ⟨h₀, code₁ ++ code₂, ⟨_, code₁, code₂, hp₁, hp₂, rfl⟩, ?_, ho₂.trans ho₁,
        hi₂.trans hi₁, hn₂.trans hn₁⟩
      exact hc₂.trans (by rw [hc₁, List.append_assoc])

/-- Events that can be performed leave a compiler with an unlimited sink running. -/
theorem performAll_of_performs : ∀ {events : List (Place × Event)} {c : Compiler} {s : Scope}
    {code : List Instruction}, c.stopped = none → c.sink.outlet.limit = none →
      Performs t c.scope (events.map Prod.snd) s code → (c.performAll t events).stopped = none
  | [], c, _, _, hc, _, _ => hc
  | (place, e) :: events, c, s, code, hc, ho, h => by
      obtain ⟨m, c₁, c₂, he, h, -⟩ := h
      obtain ⟨sink, hw⟩ := Sink.writeAll_unlimited c₁ ho
      have hstep : (c.perform t (place.index c.next) e).stopped = none := by
        simp [perform, hc, he, hw]
      obtain ⟨-, code', hp, -, houtlet, -⟩ := perform_running hstep
      rw [he, Except.ok.injEq, Prod.mk.injEq] at hp
      obtain ⟨hscope, -⟩ := hp
      rw [hscope] at h
      show ((c.perform t (place.index c.next) e).performAll t events).stopped = none
      exact performAll_of_performs hstep (houtlet ▸ ho) h

theorem run_cons (c : Compiler) (l : Lexeme) (ls : List Lexeme) :
    c.run t (l :: ls) = (c.step t l).run t ls := rfl

/-- A compiler that is running was running before. -/
theorem running_of_run {c : Compiler} {ls : List Lexeme} (h : (c.run t ls).stopped = none) :
    c.stopped = none := by
  cases hc : c.stopped with
  | none => rfl
  | some fault =>
      rw [run_of_stopped (by simp [hc]), hc] at h
      exact h

/-- A lexeme after which a compiler is running was fed, and its events performed. -/
theorem step_running {c : Compiler} {l : Lexeme} (h : (c.step t l).stopped = none) :
    c.stopped = none ∧ ∃ events rest code, feed l c.items = ⟨events, .ok rest⟩ ∧
      Performs t c.scope (events.map Prod.snd) (c.step t l).scope code ∧
      (c.step t l).sink.code = c.sink.code ++ code ∧ (c.step t l).items = rest ∧
      (c.step t l).sink.outlet = c.sink.outlet := by
  cases hc : c.stopped with
  | some fault => simp [step, hc] at h
  | none =>
      rcases hfeed : feed l c.items with ⟨events, rest⟩
      have hstep : c.step t l = (c.performAll t events).proceed rest := by
        simp [step, hc, hfeed]
      rw [hstep] at h ⊢
      cases hp : (c.performAll t events).stopped with
      | some fault => simp [proceed, hp] at h
      | none =>
          obtain ⟨-, code, hperforms, hcode, houtlet, -, -⟩ := performAll_running hp
          cases rest with
          | error r => simp [proceed, hp, stop] at h
          | ok rest =>
              simp only [proceed, hp]
              exact ⟨trivial, events, rest, code, rfl, hperforms, hcode, rfl, houtlet⟩

/-- A compiler that is running after some lexemes has read them all, and written
the code of the events they raised. -/
theorem reads_of_run : ∀ {ls : List Lexeme} {c : Compiler}, Settled c.items →
    (c.run t ls).stopped = none → ∃ es code, Reads c.items ls es (c.run t ls).items ∧
      Performs t c.scope es (c.run t ls).scope code ∧
      (c.run t ls).sink.code = c.sink.code ++ code ∧ Settled (c.run t ls).items
  | [], c, hs, _ => ⟨[], [], .done _, ⟨rfl, rfl⟩, (List.append_nil _).symm, hs⟩
  | l :: ls, c, hs, h => by
      rw [run_cons] at h
      obtain ⟨-, events, rest, code₁, hfeed, hp₁, hc₁, hitems, -⟩ := step_running (running_of_run h)
      have hrest : Settled (c.step t l).items := hitems ▸ settled_of_feed hfeed
      obtain ⟨es, code₂, hreads, hp₂, hc₂, hsettled⟩ := reads_of_run hrest h
      rw [hitems] at hreads
      refine ⟨events.map Prod.snd ++ es, code₁ ++ code₂, ?_, ?_, ?_, hsettled⟩
      · exact (reads_cons_iff hsettled).mpr ⟨events, rest, es, hfeed, rfl, hreads⟩
      · exact performs_append.mpr ⟨_, code₁, code₂, hp₁, hp₂, rfl⟩
      · rw [run_cons, hc₂, hc₁, List.append_assoc]

/-- Lexemes that can be read and performed leave a compiler with an unlimited
sink running. -/
theorem run_of_reads : ∀ {ls : List Lexeme} {c : Compiler} {es : List Event} {final : List Item}
    {s : Scope} {code : List Instruction}, c.stopped = none → c.sink.outlet.limit = none →
      Settled final → Reads c.items ls es final → Performs t c.scope es s code →
      (c.run t ls).stopped = none
  | [], _, _, _, _, _, hc, _, _, _, _ => hc
  | l :: ls, c, es, final, s, code, hc, ho, hf, hr, hp => by
      obtain ⟨events, rest, es', hfeed, rfl, hr'⟩ := (reads_cons_iff hf).mp hr
      obtain ⟨m, c₁, c₂, hp₁, hp₂, -⟩ := performs_append.mp hp
      have hall := performAll_of_performs hc ho hp₁
      have hstep : (c.step t l).stopped = none := by
        simp [step, hc, hfeed, proceed, hall]
      -- feeding and performing are functions, so the step did what is assumed
      obtain ⟨-, events', rest', code', hfeed', hp', -, hitems, houtlet⟩ := step_running hstep
      rw [hfeed, Fed.mk.injEq, Except.ok.injEq] at hfeed'
      obtain ⟨rfl, rfl⟩ := hfeed'
      obtain ⟨hscope, -⟩ := hp'.unique hp₁
      rw [run_cons]
      exact run_of_reads hstep (houtlet ▸ ho) hf (hitems ▸ hr') (hscope ▸ hp₂)

end Compiler

end JackVm
