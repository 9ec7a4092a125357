import JackVm.Proofs.Splitting

/-!
# Scanning line by line

The scanner counts the ends of lines, and does the same on every line but for the number it
gives it. So a scanner that begins further down makes the same tokens further down
(`scanFrom_moved`). Where a text may end, the end of a line leaves the scanner as it is in the
beginning (`step_newline_of_ok`).

Main statement: a text and another one on the lines below it are scanned one after the other
(`scan_append_lines`).
-/

namespace JackVm

/-! ## The same further down -/

/-- The token that many lines further down. -/
def Token.moved (k : Nat) (t : Token) : Token := { t with line := t.line + k }

/-- The error that many lines further down. -/
def ScanError.moved (k : Nat) (e : ScanError) : ScanError := { e with line := e.line + k }

/-- An outcome of scanning that many lines further down. -/
def movedOutcome {α β : Type} (k : Nat) (f : α → β) : Except ScanError α → Except ScanError β
  | .ok a => .ok (f a)
  | .error e => .error (e.moved k)

namespace Scanner

/-- Only an open comment knows a line. -/
def Mode.moved (k : Nat) : Mode → Mode
  | .comment opened star => .comment (opened + k) star
  | .code word => .code word
  | .slash => .slash
  | .lineComment => .lineComment
  | .string text => .string text

/-- The scanner that many lines further down, after other tokens. -/
def moved (k : Nat) (before : Array Token) (s : Scanner) : Scanner where
  line := s.line + k
  mode := s.mode.moved k
  tokens := before ++ s.tokens.map (Token.moved k)

section
variable (k : Nat) (before : Array Token) (s : Scanner)

theorem push_moved (l : Lexeme) :
    (s.moved k before).push l = (s.push l).moved k before := by
  simp [push, moved, Token.moved]

theorem countLine_moved (c : Char) :
    (s.moved k before).countLine c = (s.countLine c).moved k before := by
  unfold countLine
  split
  · simp [moved, Nat.add_right_comm]
  · rfl

theorem closeWord_moved (word : String) :
    (s.moved k before).closeWord word = movedOutcome k (moved k before) (s.closeWord word) := by
  unfold closeWord
  split
  · rfl
  · unfold Token.ofText
    cases Lexeme.ofText word with
    | ok l => exact congrArg Except.ok (push_moved k before s l)
    | error fault => rfl

/-- What is done after a word was closed is done further down as well. -/
theorem closeWord_map_moved {f : Scanner → Scanner} (word : String)
    (hf : ∀ m : Scanner, f (m.moved k before) = (f m).moved k before) :
    f <$> (s.moved k before).closeWord word =
      movedOutcome k (moved k before) (f <$> s.closeWord word) := by
  rw [closeWord_moved]
  cases s.closeWord word with
  | ok m => exact congrArg Except.ok (hf m)
  | error e => rfl

theorem readCode_moved (word : String) (c : Char) :
    (s.moved k before).readCode word c = movedOutcome k (moved k before) (s.readCode word c) := by
  unfold readCode
  split
  · exact closeWord_map_moved k before s word fun _ => rfl
  split
  · exact closeWord_map_moved k before s word fun _ => rfl
  split
  · refine closeWord_map_moved k before s word fun m => ?_
    rw [countLine_moved]
    rfl
  split
  · refine closeWord_map_moved k before s word fun m => ?_
    rw [push_moved]
    rfl
  · rfl

/-- A character has the same effect further down. -/
theorem step_moved (c : Char) :
    (s.moved k before).step c = movedOutcome k (moved k before) (s.step c) := by
  obtain ⟨line, mode, tokens⟩ := s
  cases mode with
  | code word => exact readCode_moved k before _ word c
  | slash =>
      simp only [step, moved, Mode.moved]
      split
      · rfl
      split
      · rfl
      · have hpush := push_moved k before ⟨line, .slash, tokens⟩ ⟨.symbol, "/"⟩
        have hread := readCode_moved k before (push ⟨line, .slash, tokens⟩ ⟨.symbol, "/"⟩) "" c
        rw [← hpush] at hread
        exact hread
  | lineComment =>
      have hcount := countLine_moved k before ⟨line, .lineComment, tokens⟩ c
      simp only [step, moved, Mode.moved, movedOutcome] at hcount ⊢
      split
      · rw [hcount]
        rfl
      · rfl
  | comment opened star =>
      have hcount := countLine_moved k before ⟨line, .comment opened star, tokens⟩ c
      simp only [step, moved, Mode.moved, movedOutcome] at hcount ⊢
      split
      · rfl
      · rw [hcount]
        rfl
  | string text =>
      have hcount := countLine_moved k before ⟨line, .string text, tokens⟩ c
      have hpush := push_moved k before ⟨line, .string text, tokens⟩ ⟨.stringConstant, text⟩
      simp only [step, moved, Mode.moved, movedOutcome] at hcount hpush ⊢
      split
      · rw [hpush]
        rfl
      split
      · rw [hcount]
      split
      · rfl
      · rfl

theorem finish_moved : (s.moved k before).finish =
    movedOutcome k (fun ts => before.toList ++ ts.map (Token.moved k)) s.finish := by
  obtain ⟨line, mode, tokens⟩ := s
  cases mode with
  | code word =>
      have hclose := closeWord_moved k before ⟨line, .code word, tokens⟩ word
      simp only [finish, moved, Mode.moved] at hclose ⊢
      rw [hclose]
      cases closeWord ⟨line, .code word, tokens⟩ word with
      | ok m => simp [movedOutcome, moved, Functor.map, Except.map]
      | error e => rfl
  | slash => simp [finish, moved, Mode.moved, movedOutcome, push, Token.moved]
  | lineComment => simp [finish, moved, Mode.moved, movedOutcome]
  | comment opened star => rfl
  | string text => rfl

/-- A text has the same tokens or the same error further down. -/
theorem scanFrom_moved : ∀ (cs : List Char) (s : Scanner), (s.moved k before).scanFrom cs =
    movedOutcome k (fun ts => before.toList ++ ts.map (Token.moved k)) (s.scanFrom cs)
  | [], s => finish_moved k before s
  | c :: cs, s => by
      rw [scanFrom_cons, scanFrom_cons, step_moved]
      cases s.step c with
      | ok m => exact scanFrom_moved cs m
      | error e => rfl

end

/-! ## The end of a line -/

variable {s s' : Scanner}

theorem count_newline_eq_zero {c : Char} (hc : c ≠ '\n') : [c].count '\n' = 0 :=
  List.count_eq_zero.mpr (by simpa using hc.symm)

theorem line_closeWord {word : String} (h : s.closeWord word = .ok s') : s'.line = s.line := by
  unfold closeWord at h
  split at h
  · rw [← Except.ok.inj h]
  split at h
  · rw [← Except.ok.inj h]
  · cases h

/-- What is done after a word was closed counts the lines that it counts. -/
theorem line_closeWord_map {f : Scanner → Scanner} {word : String} {n : Nat}
    (h : f <$> s.closeWord word = .ok s') (hf : ∀ m : Scanner, (f m).line = m.line + n) :
    s'.line = s.line + n := by
  cases hclose : s.closeWord word with
  | error e =>
      rw [hclose] at h
      cases h
  | ok m =>
      rw [hclose] at h
      obtain rfl := Except.ok.inj h
      rw [← line_closeWord hclose]
      exact hf m

theorem line_readCode {word : String} {c : Char} (h : s.readCode word c = .ok s') :
    s'.line = s.line + [c].count '\n' := by
  have hnewline : Text.isBlank '\n' = true := rfl
  unfold readCode at h
  split at h
  · next hc =>
      subst hc
      exact line_closeWord_map h fun _ => rfl
  split at h
  · next hc =>
      subst hc
      exact line_closeWord_map h fun _ => rfl
  split at h
  · exact line_closeWord_map h fun m => by rw [countLine_eq]; rfl
  next hblank =>
  have hc : c ≠ '\n' := by
    rintro rfl
    exact hblank hnewline
  rw [count_newline_eq_zero hc]
  split at h
  · exact line_closeWord_map h fun _ => rfl
  · rw [← Except.ok.inj h]
    rfl

/-- The scanner counts the ends of lines, whatever it is reading. -/
theorem line_step {c : Char} (h : s.step c = .ok s') : s'.line = s.line + [c].count '\n' := by
  unfold step at h
  split at h
  · exact line_readCode h
  · split at h
    · next hc =>
        subst hc
        rw [← Except.ok.inj h]
        rfl
    split at h
    · next hc =>
        subst hc
        rw [← Except.ok.inj h]
        rfl
    · exact line_readCode (s := s.push ⟨.symbol, "/"⟩) h
  · rw [← Except.ok.inj h]
    split
    · rw [countLine_eq]
      rfl
    · next hc => rw [count_newline_eq_zero hc, Nat.add_zero]
  · rw [← Except.ok.inj h]
    split
    · next hc =>
        rw [Bool.and_eq_true, decide_eq_true_iff] at hc
        rw [hc.2]
        rfl
    · rw [countLine_eq]
      rfl
  · rw [← Except.ok.inj h]
    split
    · next hc =>
        subst hc
        rfl
    split
    · rw [countLine_eq]
    next hc =>
    rw [count_newline_eq_zero hc]
    split
    · rfl
    · rfl

theorem line_foldlM : ∀ {cs : List Char} {s s' : Scanner}, cs.foldlM step s = .ok s' →
    s'.line = s.line + cs.count '\n'
  | [], s, s', h => by
      obtain rfl : s = s' := Except.ok.inj h
      rfl
  | c :: cs, s, s', h => by
      rw [List.foldlM_cons] at h
      cases hstep : s.step c with
      | error e =>
          rw [hstep] at h
          cases h
      | ok m =>
          rw [hstep] at h
          rw [line_foldlM h, line_step hstep, Nat.add_assoc, ← List.count_append]
          rfl

theorem readCode_newline (s : Scanner) (word : String) : s.readCode word '\n' =
    (fun m => (m.countLine '\n').enter (.code "")) <$> s.closeWord word := rfl

/-- Where a text may end, a line may end, and what follows is read as in the beginning. -/
theorem step_newline_of_ok {tokens : List Token} (h : s.finish = .ok tokens) :
    s.step '\n' = .ok ⟨s.line + 1, .code "", tokens.toArray⟩ := by
  obtain ⟨line, mode, before⟩ := s
  cases mode with
  | code word =>
      have hfinish : (·.tokens.toList) <$> closeWord ⟨line, .code word, before⟩ word =
          .ok tokens := h
      rw [step_code, readCode_newline]
      cases hclose : closeWord ⟨line, .code word, before⟩ word with
      | error e =>
          rw [hclose] at hfinish
          cases hfinish
      | ok m =>
          rw [hclose] at hfinish
          have hline : m.line = line := line_closeWord hclose
          rw [← Except.ok.inj hfinish, ← hline]
          rfl
  | slash =>
      rw [← Except.ok.inj h]
      rfl
  | lineComment =>
      rw [← Except.ok.inj h]
      rfl
  | comment => cases h
  | string => cases h

/-- A word at the end of a line that is none is reported as at the end of the text. -/
theorem step_newline_of_error {e : ScanError} (h : s.finish = .error e)
    (hfault : e.fault = .unrecognized ∨ e.fault = .outOfRange) : s.step '\n' = .error e := by
  obtain ⟨line, mode, before⟩ := s
  cases mode with
  | code word =>
      have hfinish : (·.tokens.toList) <$> closeWord ⟨line, .code word, before⟩ word =
          .error e := h
      rw [step_code, readCode_newline]
      cases hclose : closeWord ⟨line, .code word, before⟩ word with
      | error e' =>
          rw [hclose] at hfinish
          rw [← Except.error.inj hfinish]
          rfl
      | ok m =>
          rw [hclose] at hfinish
          cases hfinish
  | slash => cases h
  | lineComment => cases h
  | comment opened star =>
      rw [← Except.error.inj h] at hfault
      rcases hfault with hfault | hfault <;> cases hfault
  | string text =>
      rw [← Except.error.inj h] at hfault
      rcases hfault with hfault | hfault <;> cases hfault

/-! ## Two texts -/

theorem scanFrom_append (s : Scanner) (cs ds : List Char) :
    s.scanFrom (cs ++ ds) = cs.foldlM step s >>= (scanFrom · ds) := by
  rw [scanFrom, List.foldlM_append, bind_assoc]
  rfl

end Scanner

theorem scan_eq_scanFrom (source : String) : scan source = Scanner.scanFrom {} source.toList := rfl

/-- A text and another one on the lines below it are scanned one after the other: the tokens or
the error of the second are found further down, by as many lines as the first takes up. A word
that is none in the first is reported whatever follows. -/
theorem scan_append_lines (a b : String) :
    (∀ tokens, scan a = .ok tokens →
      scan (a ++ "\n" ++ b) =
        match scan b with
        | .ok more => .ok (tokens ++ more.map (Token.moved (1 + a.toList.count '\n')))
        | .error e => .error (e.moved (1 + a.toList.count '\n'))) ∧
    ∀ e, scan a = .error e → e.fault = .unrecognized ∨ e.fault = .outOfRange →
      scan (a ++ "\n" ++ b) = .error e := by
  have hlines : (a ++ "\n" ++ b).toList = a.toList ++ '\n' :: b.toList := by simp
  rw [scan_eq_scanFrom (a ++ "\n" ++ b), hlines, Scanner.scanFrom_append]
  cases hread : a.toList.foldlM Scanner.step {} with
  | error e =>
      have hscan : scan a = .error e := by
        rw [scan, hread]
        rfl
      refine ⟨?_, ?_⟩
      · intro tokens htokens
        cases hscan.symm.trans htokens
      · intro e' he' _
        exact hscan.symm.trans he'
  | ok s =>
      have hscan : scan a = s.finish := by
        rw [scan, hread]
        rfl
      have hline : s.line = 1 + a.toList.count '\n' := Scanner.line_foldlM hread
      show (∀ tokens, _ → s.scanFrom ('\n' :: b.toList) = _) ∧
        ∀ e, _ → _ → s.scanFrom ('\n' :: b.toList) = _
      rw [hscan]
      refine ⟨?_, ?_⟩
      · intro tokens htokens
        -- the second text finds the scanner as in the beginning, further down
        have hnext : (⟨s.line + 1, .code "", tokens.toArray⟩ : Scanner) =
            Scanner.moved (1 + a.toList.count '\n') tokens.toArray {} := by
          rw [hline]
          simp [Scanner.moved, Scanner.Mode.moved, Nat.add_comm]
        rw [Scanner.scanFrom_of_step (Scanner.step_newline_of_ok htokens), hnext,
          Scanner.scanFrom_moved, ← scan_eq_scanFrom]
        cases scan b with
        | ok more => rfl
        | error e => rfl
      · intro e he hfault
        rw [Scanner.scanFrom_cons, Scanner.step_newline_of_error he hfault]
        rfl

/-- A slash before the end of a line opens no comment there, and what stands below is counted
from the line above. -/
theorem scan_append_lines_slash :
    scan "x /" = .ok [⟨⟨.identifier, "x"⟩, 1⟩, ⟨⟨.symbol, "/"⟩, 1⟩] ∧
      scan ("x /" ++ "\n" ++ "/*") = .error ⟨.openComment, "/*", 2⟩ ∧
      scan ("1a" ++ "\n" ++ "/*") = .error ⟨.unrecognized, "1a", 1⟩ := by
  have hfirst : scan "x /" = .ok [⟨⟨.identifier, "x"⟩, 1⟩, ⟨⟨.symbol, "/"⟩, 1⟩] := rfl
  have hword : scan "1a" = .error ⟨.unrecognized, "1a", 1⟩ := rfl
  refine ⟨hfirst, ?_, ?_⟩
  · exact (scan_append_lines "x /" "/*").1 _ hfirst
  · exact (scan_append_lines "1a" "/*").2 _ hword (.inl rfl)

end JackVm
