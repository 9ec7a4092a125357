import JackVm.Proofs.Parts
import Mathlib.Data.List.Induction

/-!
# How source text is scanned

The scanner reads part after part. Between parts it is always in the same mode, so what
it does with a part is one equation (`scanFrom_part`), and a text that it accepts begins
with a part (`exists_part`).

Main statement: the texts that are scanned are exactly those put together from separated
parts, in one way only, and the tokens are the lexemes among the parts
(`scan_splits_uniquely`).
-/

namespace JackVm

/-! ## Reading a part -/

namespace Scanner

/-- The tokens of a text whose rest is still to be read. -/
def scanFrom (s : Scanner) (cs : List Char) : Except ScanError (List Token) :=
  cs.foldlM step s >>= finish

theorem scanFrom_cons (s : Scanner) (c : Char) (cs : List Char) :
    s.scanFrom (c :: cs) = s.step c >>= (scanFrom · cs) := by
  simp [scanFrom, bind_assoc]

theorem scanFrom_of_step {s s' : Scanner} {c : Char} (h : s.step c = .ok s') (cs : List Char) :
    s.scanFrom (c :: cs) = s'.scanFrom cs := by
  rw [scanFrom_cons, h]
  rfl

/-- A run of characters is read one by one, when the scanner is known after each beginning
of the run. -/
theorem scanFrom_run (state : List Char → Scanner) {run : List Char} (cs : List Char)
    (h : ∀ done c, done ++ [c] <+: run → (state done).step c = .ok (state (done ++ [c]))) :
    (state []).scanFrom (run ++ cs) = (state run).scanFrom cs := by
  induction run using List.reverseRecOn generalizing cs with
  | nil => rfl
  | append_singleton run c ih =>
      have hrun := ih (c :: cs) fun done c' hdone =>
        h done c' (hdone.trans (List.prefix_append _ _))
      rw [List.append_assoc, List.singleton_append, hrun]
      exact scanFrom_of_step (h run c List.prefix_rfl) cs

theorem mem_of_prefix_concat {α : Type} {done run : List α} {c : α} (h : done ++ [c] <+: run) :
    c ∈ run := h.subset (by simp)

variable {n : Nat} {ts : Array Token} {cs : List Char}

theorem countLine_eq (s : Scanner) (c : Char) :
    s.countLine c = { s with line := s.line + [c].count '\n' } := by
  unfold countLine
  split
  · next hc => simp [hc]
  · next hc => simp [hc]

theorem scanFrom_string {run : List Char} (h : '"' ∉ run) :
    scanFrom ⟨n, .code "", ts⟩ ('"' :: (run ++ cs)) =
      scanFrom ⟨n + run.count '\n', .string (unbroken run), ts⟩ cs := by
  refine scanFrom_run (fun done => ⟨n + done.count '\n', .string (unbroken done), ts⟩) cs ?_
  intro done c hdone
  have hc : c ≠ '"' := by
    rintro rfl
    exact h (mem_of_prefix_concat hdone)
  by_cases hn : c = '\n'
  · subst hn
    simp [step, countLine, unbroken, Nat.add_assoc]
  by_cases hr : c = '\r'
  · subst hr
    simp [step, unbroken]
  · simp [step, enter, unbroken, hc, hn, hr]

theorem scanFrom_string_closed {run : List Char} (h : '"' ∉ run) :
    scanFrom ⟨n, .code "", ts⟩ ('"' :: (run ++ '"' :: cs)) =
      scanFrom ⟨n + run.count '\n', .code "",
        ts.push ⟨⟨.stringConstant, unbroken run⟩, n + run.count '\n'⟩⟩ cs := by
  rw [scanFrom_string h]
  rfl

theorem scanFrom_lineComment {body : List Char} (h : '\n' ∉ body) :
    scanFrom ⟨n, .code "", ts⟩ ('/' :: '/' :: (body ++ cs)) =
      scanFrom ⟨n, .lineComment, ts⟩ cs := by
  refine scanFrom_run (fun _ => ⟨n, .lineComment, ts⟩) cs ?_
  intro done c hdone
  have hc : c ≠ '\n' := by
    rintro rfl
    exact h (mem_of_prefix_concat hdone)
  simp [step, hc]

theorem scanFrom_lineComment_closed {body : List Char} (h : '\n' ∉ body) :
    scanFrom ⟨n, .code "", ts⟩ ('/' :: '/' :: (body ++ '\n' :: cs)) =
      scanFrom ⟨n + 1, .code "", ts⟩ cs := by
  rw [scanFrom_lineComment h]
  rfl

theorem scanFrom_lineComment_end {body : List Char} (h : '\n' ∉ body) :
    scanFrom ⟨n, .code "", ts⟩ ('/' :: '/' :: body) = scanFrom ⟨n, .code "", ts⟩ [] := by
  rw [← List.append_nil body, scanFrom_lineComment h]
  rfl

theorem scanFrom_comment {body : List Char} (h : ¬['*', '/'] <:+: body) :
    scanFrom ⟨n, .code "", ts⟩ ('/' :: '*' :: (body ++ cs)) =
      scanFrom ⟨n + body.count '\n', .comment n (body.getLast? = some '*'), ts⟩ cs := by
  refine scanFrom_run (fun done =>
    ⟨n + done.count '\n', .comment n (done.getLast? = some '*'), ts⟩) cs ?_
  intro done c hdone
  have hopen : ¬(done.getLast? = some '*' ∧ c = '/') := by
    rintro ⟨hlast, rfl⟩
    obtain ⟨done, rfl⟩ := List.getLast?_eq_some_iff.mp hlast
    rw [List.append_assoc] at hdone
    exact h ((List.suffix_append done _).isInfix.trans hdone.isInfix)
  by_cases hn : c = '\n'
  · subst hn
    simp [step, countLine, enter, Nat.add_assoc]
  · simp [step, countLine, enter, hn, hopen]

theorem scanFrom_comment_closed {body : List Char} (h : ¬['*', '/'] <:+: body) :
    scanFrom ⟨n, .code "", ts⟩ ('/' :: '*' :: (body ++ '*' :: '/' :: cs)) =
      scanFrom ⟨n + body.count '\n', .code "", ts⟩ cs := by
  have hstar : step ⟨n + body.count '\n', .comment n (body.getLast? = some '*'), ts⟩ '*' =
      .ok ⟨n + body.count '\n', .comment n true, ts⟩ := by
    simp [step, countLine, enter]
  rw [scanFrom_comment h, scanFrom_of_step hstar]
  rfl

theorem step_code (word : String) (c : Char) :
    step ⟨n, .code word, ts⟩ c = readCode ⟨n, .code word, ts⟩ word c := rfl

theorem readCode_wordChar {c : Char} (hc : isWordChar c = true) (s : Scanner) (word : String) :
    s.readCode word c = .ok (s.enter (.code (word.push c))) := by
  obtain ⟨hblank, hsymbol, hquote⟩ := isWordChar_iff.mp hc
  have hslash : c ≠ '/' := by
    rintro rfl
    exact hsymbol (by decide)
  simp [readCode, hblank, hsymbol, hquote, hslash]

theorem scanFrom_word {word : List Char} (h : ∀ c ∈ word, isWordChar c = true) :
    scanFrom ⟨n, .code "", ts⟩ (word ++ cs) =
      scanFrom ⟨n, .code (String.ofList word), ts⟩ cs := by
  refine scanFrom_run (fun done => ⟨n, .code (String.ofList done), ts⟩) cs ?_
  intro done c hdone
  have hread := readCode_wordChar (h c (mem_of_prefix_concat hdone))
    ⟨n, .code (String.ofList done), ts⟩ (String.ofList done)
  have hpush : (String.ofList done).push c = String.ofList (done ++ [c]) := by simp
  rwa [hpush] at hread

/-- Any other character than one of a word closes the word first. -/
theorem readCode_of_not_wordChar {c : Char} (hc : isWordChar c = false) : ∃ f : Scanner → Scanner,
    (∀ s mode, f (s.enter mode) = f s) ∧ ∀ s word, readCode s word c = f <$> closeWord s word := by
  unfold readCode
  split
  · exact ⟨_, fun _ _ => rfl, fun _ _ => rfl⟩
  split
  · exact ⟨_, fun _ _ => rfl, fun _ _ => rfl⟩
  split
  · refine ⟨_, ?_, fun _ _ => rfl⟩
    intro s mode
    unfold countLine
    split <;> rfl
  split
  · exact ⟨_, fun _ _ => rfl, fun _ _ => rfl⟩
  · next hquote _ hblank hsymbol =>
      have hword := isWordChar_iff.mpr ⟨by simpa using hblank, by simpa using hsymbol, hquote⟩
      cases hc.symm.trans hword

theorem closeWord_of_ok {s : Scanner} {word : String} {l : Lexeme}
    (h : Lexeme.ofText word = .ok l) :
    s.closeWord word = .ok { s with tokens := s.tokens.push ⟨l, s.line⟩ } := by
  have hword : word.isEmpty = false := by
    rw [Bool.eq_false_iff, ne_eq, String.isEmpty_iff]
    rintro rfl
    cases h
  simp [closeWord, hword, Token.ofText, h]

theorem scanFrom_of_ok {word : String} {l : Lexeme} (hl : Lexeme.ofText word = .ok l)
    (h : ∀ c ∈ cs.head?, isWordChar c = false) :
    scanFrom ⟨n, .code word, ts⟩ cs = scanFrom ⟨n, .code "", ts.push ⟨l, n⟩⟩ cs := by
  cases cs with
  | nil =>
      show (·.tokens.toList) <$> closeWord ⟨n, .code word, ts⟩ word = _
      rw [closeWord_of_ok hl]
      rfl
  | cons c cs =>
      obtain ⟨f, hf, hread⟩ := readCode_of_not_wordChar (h c rfl)
      have hword : step ⟨n, .code word, ts⟩ c =
          .ok (f ((Scanner.mk n (.code "") (ts.push ⟨l, n⟩)).enter (.code word))) := by
        rw [step_code, hread, closeWord_of_ok hl]
        rfl
      have hempty : step ⟨n, .code "", ts.push ⟨l, n⟩⟩ c =
          .ok (f ⟨n, .code "", ts.push ⟨l, n⟩⟩) := by
        rw [step_code, hread]
        rfl
      rw [scanFrom_of_step hword, scanFrom_of_step hempty, hf]

theorem scanFrom_of_error {word : String} {fault : ScanFault}
    (hl : Lexeme.ofText word = .error fault) (hne : word ≠ "")
    (h : ∀ c ∈ cs.head?, isWordChar c = false) :
    scanFrom ⟨n, .code word, ts⟩ cs = .error ⟨fault, word, n⟩ := by
  have hclose : closeWord ⟨n, .code word, ts⟩ word = .error ⟨fault, word, n⟩ := by
    have hword : word.isEmpty = false := by rwa [Bool.eq_false_iff, ne_eq, String.isEmpty_iff]
    simp [closeWord, hword, Token.ofText, hl]
  cases cs with
  | nil =>
      show (·.tokens.toList) <$> closeWord ⟨n, .code word, ts⟩ word = _
      rw [hclose]
      rfl
  | cons c cs =>
      obtain ⟨f, -, hread⟩ := readCode_of_not_wordChar (h c rfl)
      rw [scanFrom_cons, step_code, hread, hclose]
      rfl

theorem readCode_enter (s : Scanner) (mode : Mode) (c : Char) :
    (s.enter mode).readCode "" c = s.readCode "" c := by
  cases hc : isWordChar c with
  | true =>
      rw [readCode_wordChar hc, readCode_wordChar hc]
      rfl
  | false =>
      obtain ⟨f, hf, hread⟩ := readCode_of_not_wordChar hc
      rw [hread, hread]
      exact congrArg Except.ok (hf s mode)

theorem scanFrom_slash (h : cs.head? ≠ some '/' ∧ cs.head? ≠ some '*') :
    scanFrom ⟨n, .slash, ts⟩ cs = scanFrom ⟨n, .code "", ts.push ⟨⟨.symbol, "/"⟩, n⟩⟩ cs := by
  cases cs with
  | nil => rfl
  | cons c cs =>
      have hc : c ≠ '/' ∧ c ≠ '*' := by simpa using h
      have hstep : step ⟨n, .slash, ts⟩ c = step ⟨n, .code "", ts.push ⟨⟨.symbol, "/"⟩, n⟩⟩ c := by
        simp only [step, hc, if_false]
        exact readCode_enter ⟨n, .code "", ts.push ⟨⟨.symbol, "/"⟩, n⟩⟩ .slash c
      rw [scanFrom_cons, scanFrom_cons, hstep]

theorem scanFrom_blank {c : Char} (hc : Text.isBlank c = true) :
    scanFrom ⟨n, .code "", ts⟩ (c :: cs) = scanFrom ⟨n + [c].count '\n', .code "", ts⟩ cs := by
  have hquote : c ≠ '"' := by
    rintro rfl
    cases hc
  have hslash : c ≠ '/' := by
    rintro rfl
    cases hc
  have hstep : step ⟨n, .code "", ts⟩ c =
      .ok ((countLine ⟨n, .code "", ts⟩ c).enter (.code "")) := by
    simp only [step_code, readCode, hquote, hslash, hc, if_true, if_false]
    rfl
  rw [scanFrom_of_step hstep, countLine_eq]
  rfl

theorem scanFrom_symbol {c : Char} (hc : c ∈ symbols) (h : (Part.symbol c hc).EndsBefore cs) :
    scanFrom ⟨n, .code "", ts⟩ (c :: cs) =
      scanFrom ⟨n, .code "", ts.push ⟨⟨.symbol, c.toString⟩, n⟩⟩ cs := by
  by_cases hslash : c = '/'
  · subst hslash
    exact scanFrom_slash (h rfl)
  · obtain ⟨hquote, hblank⟩ := symbols_spec hc
    have hstep : step ⟨n, .code "", ts⟩ c =
        .ok ⟨n, .code "", ts.push ⟨⟨.symbol, c.toString⟩, n⟩⟩ := by
      simp only [step_code, readCode, hquote, hslash, hblank, List.contains_iff_mem, hc, if_true,
        if_false]
      rfl
    rw [scanFrom_of_step hstep]

/-- A part is read by itself. -/
theorem scanFrom_part {p : Part} (h : p.EndsBefore cs) :
    scanFrom ⟨n, .code "", ts⟩ (p.text ++ cs) =
      scanFrom ⟨n + p.text.count '\n', .code "",
        ts ++ (p.lexeme?.map (Token.mk · (n + p.text.dropLast.count '\n'))).toArray⟩ cs := by
  cases p with
  | blank c hc => simpa [Part.text, Part.lexeme?] using scanFrom_blank hc
  | lineComment body hbody ended =>
      have hcount := List.count_eq_zero.mpr hbody
      cases ended with
      | true => simpa [Part.text, Part.lexeme?, hcount] using scanFrom_lineComment_closed hbody
      | false =>
          obtain rfl := h rfl
          simpa [Part.text, Part.lexeme?, hcount] using scanFrom_lineComment_end hbody
  | comment body hbody => simpa [Part.text, Part.lexeme?] using scanFrom_comment_closed hbody
  | symbol c hc =>
      have hcount : [c].count '\n' = 0 := by
        rw [List.count_eq_zero, List.mem_singleton]
        rintro rfl
        cases (symbols_spec hc).2
      simpa [Part.text, Part.lexeme?, hcount] using scanFrom_symbol hc h
  | string run hrun =>
      have hlast : ('"' :: (run ++ ['"'])).dropLast = '"' :: run := by
        rw [← List.cons_append, List.dropLast_concat]
      simpa [Part.text, Part.lexeme?, hlast] using scanFrom_string_closed hrun
  | word l hl =>
      have hread : scanFrom ⟨n, .code "", ts⟩ (l.text.toList ++ cs) =
          scanFrom ⟨n, .code "", ts.push ⟨l, n⟩⟩ cs := by
        rw [scanFrom_word hl.chars, String.ofList_toList, scanFrom_of_ok hl.ofText h]
      have hline : '\n' ∉ l.text.toList := fun hmem => by cases hl.chars _ hmem
      have hcount := List.count_eq_zero.mpr hline
      have hlast := List.count_eq_zero.mpr fun hmem => hline (List.dropLast_subset _ hmem)
      simpa [Part.text, Part.lexeme?, hcount, hlast] using hread

/-- Separated parts are read one after the other. -/
theorem scanFrom_joined : ∀ {parts : List Part} (before : List Char) (ts : Array Token),
    parts.IsChain Part.MayPrecede →
      scanFrom ⟨1 + before.count '\n', .code "", ts⟩ (joined parts) =
        .ok (ts.toList ++ tokensAfter before parts)
  | [], before, ts, _ => by
      rw [tokensAfter, List.append_nil]
      rfl
  | p :: parts, before, ts, h => by
      obtain ⟨hp, hparts⟩ := isChain_cons_iff.mp h
      rw [joined_cons, scanFrom_part hp, Nat.add_assoc, ← List.count_append,
        scanFrom_joined _ _ hparts, tokensAfter, Part.token?, List.count_append]
      simp [Nat.add_assoc]

/-! ## Finding a part -/

section
variable {tokens : List Token}

theorem exists_string (h : scanFrom ⟨n, .code "", ts⟩ ('"' :: cs) = .ok tokens) :
    ∃ run rest, cs = run ++ '"' :: rest ∧ '"' ∉ run := by
  by_contra hno
  have hmem : '"' ∉ cs := fun hmem => hno (List.eq_append_cons_of_mem hmem)
  rw [← List.append_nil cs, scanFrom_string hmem] at h
  cases h

theorem exists_infix : ∀ {cs : List Char}, ['*', '/'] <:+: cs →
    ∃ body rest, cs = body ++ '*' :: '/' :: rest ∧ ¬['*', '/'] <:+: body
  | [], h => by simp at h
  | c :: cs, h => by
      by_cases hc : ['*', '/'] <+: c :: cs
      · obtain ⟨rest, hrest⟩ := hc
        exact ⟨[], rest, hrest.symm, by simp⟩
      · obtain ⟨body, rest, rfl, hbody⟩ := exists_infix ((List.infix_cons_iff.mp h).resolve_left hc)
        refine ⟨c :: body, rest, rfl, ?_⟩
        rw [List.infix_cons_iff, not_or]
        exact ⟨fun hpre => hc (hpre.trans (List.prefix_append (c :: body) _)), hbody⟩

theorem exists_comment (h : scanFrom ⟨n, .code "", ts⟩ ('/' :: '*' :: cs) = .ok tokens) :
    ∃ body rest, cs = body ++ '*' :: '/' :: rest ∧ ¬['*', '/'] <:+: body := by
  apply exists_infix
  by_contra hno
  rw [← List.append_nil cs, scanFrom_comment hno] at h
  cases h

theorem exists_word {c : Char} (hc : isWordChar c = true)
    (h : scanFrom ⟨n, .code "", ts⟩ (c :: cs) = .ok tokens) :
    ∃ l : Lexeme, ∃ rest, c :: cs = l.text.toList ++ rest ∧ l.IsWord ∧
      ∀ d ∈ rest.head?, isWordChar d = false := by
  let word := c :: cs.takeWhile isWordChar
  have hsplit : c :: cs = word ++ cs.dropWhile isWordChar := by
    rw [List.cons_append, List.takeWhile_append_dropWhile]
  have hword : ∀ d ∈ word, isWordChar d = true :=
    List.forall_mem_cons.mpr ⟨hc, fun d hd => List.mem_takeWhile_imp hd⟩
  have hrest : ∀ d ∈ (cs.dropWhile isWordChar).head?, isWordChar d = false := by
    intro d hd
    have hhead := List.head?_dropWhile_not isWordChar cs
    rwa [hd] at hhead
  rw [hsplit, scanFrom_word hword] at h
  have hchars : ∀ d ∈ (String.ofList word).toList, isWordChar d = true := by
    rwa [String.toList_ofList]
  cases hl : Lexeme.ofText (String.ofList word) with
  | error fault =>
      rw [scanFrom_of_error hl (by simp [word]) hrest] at h
      cases h
  | ok l =>
      obtain ⟨htext, hl⟩ := Lexeme.isWord_of_ofText hchars hl
      exact ⟨l, _, by rw [hsplit, htext, String.toList_ofList], hl, hrest⟩

theorem exists_lineComment (cs : List Char) :
    ∃ p : Part, ∃ rest, '/' :: '/' :: cs = p.text ++ rest ∧ p.EndsBefore rest := by
  by_cases hmem : '\n' ∈ cs
  · obtain ⟨body, rest, rfl, hbody⟩ := List.eq_append_cons_of_mem hmem
    exact ⟨.lineComment body hbody true, rest, by simp [Part.text], by simp [Part.EndsBefore]⟩
  · exact ⟨.lineComment cs hmem false, [], by simp [Part.text], fun _ => rfl⟩

/-- A text that is scanned begins with a part. -/
theorem exists_part {c : Char} (h : scanFrom ⟨n, .code "", ts⟩ (c :: cs) = .ok tokens) :
    ∃ p : Part, ∃ rest, c :: cs = p.text ++ rest ∧ p.EndsBefore rest := by
  cases hword : isWordChar c with
  | true =>
      obtain ⟨l, rest, hsplit, hl, hrest⟩ := exists_word hword h
      exact ⟨.word l hl, rest, hsplit, hrest⟩
  | false =>
  by_cases hblank : Text.isBlank c = true
  · exact ⟨.blank c hblank, cs, rfl, trivial⟩
  by_cases hquote : c = '"'
  · subst hquote
    obtain ⟨run, rest, rfl, hrun⟩ := exists_string h
    exact ⟨.string run hrun, rest, by simp [Part.text], trivial⟩
  have hsymbol : c ∈ symbols := by
    by_contra hno
    cases hword.symm.trans (isWordChar_iff.mpr ⟨by simpa using hblank, hno, hquote⟩)
  by_cases hends : (Part.symbol c hsymbol).EndsBefore cs
  · exact ⟨.symbol c hsymbol, cs, rfl, hends⟩
  -- a slash that opens a comment
  simp only [Part.EndsBefore, ne_eq, Classical.not_imp, not_and_or, not_not] at hends
  obtain ⟨rfl, hhead | hhead⟩ := hends
  · obtain ⟨cs, rfl⟩ := List.head?_eq_some_iff.mp hhead
    exact exists_lineComment cs
  · obtain ⟨cs, rfl⟩ := List.head?_eq_some_iff.mp hhead
    obtain ⟨body, rest, rfl, hbody⟩ := exists_comment h
    exact ⟨.comment body hbody, rest, by simp [Part.text], trivial⟩

/-- A text that is scanned is put together from separated parts. -/
theorem exists_parts : ∀ {cs : List Char} {n : Nat} {ts : Array Token},
    scanFrom ⟨n, .code "", ts⟩ cs = .ok tokens →
      ∃ parts, joined parts = cs ∧ parts.IsChain Part.MayPrecede
  | [], _, _, _ => ⟨[], rfl, .nil⟩
  | c :: cs, _, _, h => by
      obtain ⟨p, rest, hsplit, hp⟩ := exists_part h
      have hshort : rest.length < (c :: cs).length := by
        obtain ⟨d, ds, hd, -⟩ := p.exists_cons
        rw [hsplit, hd, List.cons_append, List.length_cons, List.length_append]
        omega
      rw [hsplit, scanFrom_part hp] at h
      obtain ⟨parts, rfl, hparts⟩ := exists_parts h
      exact ⟨p :: parts, hsplit.symm, isChain_cons_iff.mpr ⟨hp, hparts⟩⟩
termination_by cs => cs.length
decreasing_by exact hshort

end

end Scanner

/-! ## All texts -/

/-- The texts that are scanned are those that split into parts. There is one way to split
a text, and the tokens are the lexemes among its parts. -/
theorem scan_splits_uniquely (source : String) :
    (∀ parts parts', Splits source parts → Splits source parts' → parts = parts') ∧
      ∀ tokens, scan source = .ok tokens ↔
        ∃ parts, Splits source parts ∧ tokensAfter [] parts = tokens := by
  have hread : ∀ parts, Splits source parts → scan source = .ok (tokensAfter [] parts) := by
    rintro parts ⟨hjoined, hparts⟩
    have hscan := Scanner.scanFrom_joined [] #[] hparts
    rw [hjoined] at hscan
    exact hscan
  refine ⟨?_, ?_⟩
  · rintro parts parts' ⟨hjoined, hparts⟩ ⟨hjoined', hparts'⟩
    exact eq_of_joined hparts hparts' (hjoined.trans hjoined'.symm)
  · intro tokens
    constructor
    · intro h
      obtain ⟨parts, hsplits⟩ := Scanner.exists_parts h
      exact ⟨parts, hsplits, Except.ok.inj ((hread parts hsplits).symm.trans h)⟩
    · rintro ⟨parts, hsplits, rfl⟩
      exact hread parts hsplits

-- a comment that is closed at once, and a slash after it that opens none
example : scan "1/**//2" = .ok [⟨⟨.integerConstant, "1"⟩, 1⟩, ⟨⟨.symbol, "/"⟩, 1⟩,
    ⟨⟨.integerConstant, "2"⟩, 1⟩] := rfl

end JackVm
