import JackVm.Proofs.Scanning
import Mathlib.Data.List.Chain
import Mathlib.Data.List.TakeWhile

/-!
# The parts of a source text

A source text is put together from parts: blank characters and comments, which separate,
and symbols, string constants and words, which are lexemes. Each part carries what makes
it one, so a comment ends where it is closed first and a word is one that is known.

Parts are separated when none of them runs on into the next: a word does not stand
before a word, a slash not before what would make it open a comment, and a comment that
is not ended by a line stands last.

Main statement: separated parts can be told from the text they are put together to
(`eq_of_joined`).
-/

namespace JackVm

/-! ## Parts of a text -/

/-- Whether `c` may stand in a word. -/
def isWordChar (c : Char) : Bool := !(Text.isBlank c || symbols.contains c || c == '"')

/-- A keyword, an identifier or an integer constant. -/
structure Lexeme.IsWord (l : Lexeme) : Prop where
  kind : l.kind = .keyword ∨ l.kind = .identifier ∨ l.kind = .integerConstant
  proper : l.Proper
  chars : ∀ c ∈ l.text.toList, isWordChar c = true

/-- The characters of a run that do not break lines. -/
def unbroken (run : List Char) : String :=
  String.ofList (run.filter fun c => c ≠ '\n' && c ≠ '\r')

/-- A stretch of text that is read as a whole. -/
inductive Part where
  | blank (c : Char) (hc : Text.isBlank c = true)
  /-- A comment up to the end of a line, or of the text. -/
  | lineComment (body : List Char) (hbody : '\n' ∉ body) (ended : Bool)
  | comment (body : List Char) (hbody : ¬['*', '/'] <:+: body)
  | symbol (c : Char) (hc : c ∈ symbols)
  | string (run : List Char) (hrun : '"' ∉ run)
  | word (l : Lexeme) (hl : l.IsWord)

namespace Part

/-- The characters of a part. -/
def text : Part → List Char
  | .blank c _ => [c]
  | .lineComment body _ ended => '/' :: '/' :: (body ++ if ended then ['\n'] else [])
  | .comment body _ => '/' :: '*' :: (body ++ ['*', '/'])
  | .symbol c _ => [c]
  | .string run _ => '"' :: (run ++ ['"'])
  | .word l _ => l.text.toList

/-- The lexeme that a part is. -/
def lexeme? : Part → Option Lexeme
  | .blank .. | .lineComment .. | .comment .. => none
  | .symbol c _ => some ⟨.symbol, c.toString⟩
  | .string run _ => some ⟨.stringConstant, unbroken run⟩
  | .word l _ => some l

/-- The token that a part after some text is. It is on the line of its last character. -/
def token? (before : List Char) (p : Part) : Option Token :=
  p.lexeme?.map (⟨·, 1 + (before ++ p.text.dropLast).count '\n'⟩)

def isWord : Part → Bool
  | .word .. => true
  | _ => false

/-- Whether a part may stand directly before another one. -/
def MayPrecede : Part → Part → Prop
  | .lineComment _ _ ended, _ => ended = true
  | .symbol c _, next => c = '/' → next.text.head? ≠ some '/' ∧ next.text.head? ≠ some '*'
  | .word .., next => next.isWord = false
  | .blank .., _ | .comment .., _ | .string .., _ => True

end Part

/-- The text that parts are put together to. -/
def joined (parts : List Part) : List Char := parts.flatMap Part.text

/-- The lexemes among the parts that follow some text. -/
def tokensAfter : List Char → List Part → List Token
  | _, [] => []
  | before, p :: parts => (p.token? before).toList ++ tokensAfter (before ++ p.text) parts

/-- The source text is put together from the parts, and they are separated. -/
def Splits (source : String) (parts : List Part) : Prop :=
  joined parts = source.toList ∧ parts.IsChain Part.MayPrecede

/-! ## Words -/

theorem isWordChar_iff {c : Char} :
    isWordChar c = true ↔ Text.isBlank c = false ∧ c ∉ symbols ∧ c ≠ '"' := by
  simp [isWordChar, and_assoc]

/-- A text of word characters is no symbol and no string constant. -/
theorem Lexeme.ofText_word {text : String} (h : ∀ c ∈ text.toList, isWordChar c = true) :
    Lexeme.ofText text =
      if text ∈ keywords then .ok ⟨.keyword, text⟩
      else if Text.isDigits text.toList then
        if Text.digitsValue text.toList ≤ maxInteger then .ok ⟨.integerConstant, text⟩
        else .error .outOfRange
      else if isIdentifier text.toList then .ok ⟨.identifier, text⟩
      else .error .unrecognized := by
  have hsymbol : isOneSymbol text.toList = false := by
    unfold isOneSymbol
    split
    · next c hc =>
        have hword := isWordChar_iff.mp (h c (by simp [hc]))
        simpa using hword.2.1
    · rfl
  have hquote : unquote? text.toList = none := by
    unfold unquote?
    split
    · next cs hcs =>
        have hword := isWordChar_iff.mp (h '"' (by simp [hcs]))
        exact absurd rfl hword.2.2
    · rfl
  simp only [Lexeme.ofText, hsymbol, hquote, List.contains_iff_mem]
  rfl

theorem isDigits_keyword : ∀ text ∈ keywords, Text.isDigits text.toList = false := by
  decide +kernel

theorem toNat_of_isAlpha {c : Char} (h : c.isAlpha = true) :
    'A'.toNat ≤ c.toNat ∧ c.toNat ≤ 'z'.toNat := by
  rcases Bool.or_eq_true_iff.mp h with hupper | hlower
  · obtain ⟨hlow, hhigh⟩ := of_decide_eq_true hupper
    exact ⟨UInt32.le_iff_toNat_le.mp hlow,
      Nat.le_trans (UInt32.le_iff_toNat_le.mp hhigh) (by decide)⟩
  · obtain ⟨hlow, hhigh⟩ := Bool.and_eq_true_iff.mp hlower
    exact ⟨Nat.le_trans (by decide) (UInt32.le_iff_toNat_le.mp (of_decide_eq_true hlow)),
      UInt32.le_iff_toNat_le.mp (of_decide_eq_true hhigh)⟩

theorem isDigits_of_isIdentifier {cs : List Char} (h : isIdentifier cs = true) :
    Text.isDigits cs = false := by
  cases cs with
  | nil => rfl
  | cons c cs =>
      have hc : c.isDigit = false := by
        rw [Bool.eq_false_iff]
        intro hdigit
        obtain ⟨-, hle⟩ := Char.isDigit_iff_toNat.mp hdigit
        simp only [isIdentifier, opensIdentifier, Bool.and_eq_true, Bool.or_eq_true,
          beq_iff_eq] at h
        rcases h.1 with halpha | rfl
        · exact absurd (Nat.le_trans (toNat_of_isAlpha halpha).1 hle) (by decide)
        · cases hdigit
      simp [Text.isDigits, hc]

theorem Lexeme.IsWord.ofText {l : Lexeme} (h : l.IsWord) : Lexeme.ofText l.text = .ok l := by
  obtain ⟨kind, text⟩ := l
  rw [Lexeme.ofText_word h.chars]
  have hproper := h.proper
  rcases h.kind with hk | hk | hk
  · obtain rfl : kind = .keyword := hk
    exact if_pos hproper
  · obtain rfl : kind = .identifier := hk
    simp [hproper.1, hproper.2, isDigits_of_isIdentifier hproper.1]
  · obtain rfl : kind = .integerConstant := hk
    have hkeyword : text ∉ keywords := by
      intro hmem
      cases hproper.1.symm.trans (isDigits_keyword text hmem)
    simp [hkeyword, hproper.1, hproper.2]

theorem Lexeme.isWord_of_ofText {text : String} {l : Lexeme}
    (h : ∀ c ∈ text.toList, isWordChar c = true) (hl : Lexeme.ofText text = .ok l) :
    l.text = text ∧ l.IsWord := by
  have hproper := Lexeme.proper_of_ofText hl
  rw [Lexeme.ofText_word h] at hl
  split at hl
  · obtain rfl := Except.ok.inj hl
    exact ⟨rfl, .inl rfl, hproper, h⟩
  split at hl
  · split at hl
    · obtain rfl := Except.ok.inj hl
      exact ⟨rfl, .inr (.inr rfl), hproper, h⟩
    · cases hl
  split at hl
  · obtain rfl := Except.ok.inj hl
    exact ⟨rfl, .inr (.inl rfl), hproper, h⟩
  · cases hl

/-! ## Where parts end -/

/-- Whether a part does not run on into the text that follows. -/
def Part.EndsBefore (cs : List Char) : Part → Prop
  | .lineComment _ _ ended => ended = false → cs = []
  | .symbol c _ => c = '/' → cs.head? ≠ some '/' ∧ cs.head? ≠ some '*'
  | .word .. => ∀ c ∈ cs.head?, isWordChar c = false
  | .blank .. | .comment .. | .string .. => True

theorem Lexeme.IsWord.exists_cons {l : Lexeme} (h : l.IsWord) :
    ∃ c cs, l.text.toList = c :: cs ∧ isWordChar c = true := by
  cases hcs : l.text.toList with
  | nil =>
      have hempty : l.text = "" := String.toList_eq_nil_iff.mp hcs
      cases (congrArg Lexeme.ofText hempty).symm.trans h.ofText
  | cons c cs => exact ⟨c, cs, rfl, h.chars c (by simp [hcs])⟩

theorem symbols_spec {c : Char} (hc : c ∈ symbols) : c ≠ '"' ∧ Text.isBlank c = false := by
  have hall : symbols.all (fun c => c != '"' && !Text.isBlank c) = true := by decide
  simpa using List.all_eq_true.mp hall c hc

/-- Only words open with a character of a word. -/
theorem Part.exists_cons : ∀ p : Part, ∃ c cs, p.text = c :: cs ∧ isWordChar c = p.isWord
  | .blank c hc => ⟨c, [], rfl, by simp [isWordChar, hc, isWord]⟩
  | .lineComment .. | .comment .. => ⟨'/', _, rfl, rfl⟩
  | .symbol c hc => ⟨c, [], rfl, by simp [isWordChar, hc, isWord]⟩
  | .string .. => ⟨'"', _, rfl, rfl⟩
  | .word _ hl => by
      obtain ⟨c, cs, hcs, hc⟩ := hl.exists_cons
      exact ⟨c, cs, hcs, hc⟩

theorem Part.mayPrecede_iff {p q : Part} {cs : List Char} :
    p.MayPrecede q ↔ p.EndsBefore (q.text ++ cs) := by
  obtain ⟨c, rest, hq, hword⟩ := q.exists_cons
  cases p with
  | lineComment _ _ ended => cases ended <;> simp [MayPrecede, EndsBefore, hq]
  | symbol => simp [MayPrecede, EndsBefore, hq]
  | word => simp [MayPrecede, EndsBefore, hq, hword]
  | blank | comment | string => simp [MayPrecede, EndsBefore]

theorem joined_cons (p : Part) (parts : List Part) : joined (p :: parts) = p.text ++ joined parts :=
  rfl

/-- Parts are separated when each of them ends where the next begins. -/
theorem isChain_cons_iff {p : Part} {parts : List Part} : (p :: parts).IsChain Part.MayPrecede ↔
    p.EndsBefore (joined parts) ∧ parts.IsChain Part.MayPrecede := by
  rw [List.isChain_cons]
  refine and_congr_left' ?_
  cases parts with
  | nil => cases p <;> simp [Part.EndsBefore, joined]
  | cons q parts =>
      rw [joined_cons, ← Part.mayPrecede_iff]
      simp

/-! ## One way only -/

/-- What the beginning of a text tells about its first part. -/
inductive Opening where
  | blank
  | lineComment
  | comment
  | symbol
  | string
  | word

def Opening.of (c : Char) (cs : List Char) : Opening :=
  if isWordChar c then .word
  else if Text.isBlank c then .blank
  else if c = '"' then .string
  else if c = '/' ∧ cs.head? = some '/' then .lineComment
  else if c = '/' ∧ cs.head? = some '*' then .comment
  else .symbol

def Part.opening : Part → Opening
  | .blank .. => .blank
  | .lineComment .. => .lineComment
  | .comment .. => .comment
  | .symbol .. => .symbol
  | .string .. => .string
  | .word .. => .word

theorem Part.opening_eq {cs : List Char} : ∀ {p : Part}, p.EndsBefore cs →
    ∃ c rest, p.text ++ cs = c :: rest ∧ Opening.of c rest = p.opening
  | .blank c hc, _ => ⟨c, cs, rfl, by simp [Opening.of, isWordChar, hc, opening]⟩
  | .lineComment .., _ => ⟨'/', _, rfl, rfl⟩
  | .comment .., _ => ⟨'/', _, rfl, rfl⟩
  | .symbol c hc, h => by
      obtain ⟨hquote, hblank⟩ := symbols_spec hc
      refine ⟨c, cs, rfl, ?_⟩
      have hline : ¬(c = '/' ∧ cs.head? = some '/') := fun ⟨hslash, hhead⟩ => (h hslash).1 hhead
      have hopen : ¬(c = '/' ∧ cs.head? = some '*') := fun ⟨hslash, hhead⟩ => (h hslash).2 hhead
      simp [Opening.of, isWordChar, hc, hquote, hblank, hline, hopen, opening]
  | .string .., _ => ⟨'"', _, rfl, rfl⟩
  | .word l hl, _ => by
      obtain ⟨c, rest, hcons, hc⟩ := hl.exists_cons
      exact ⟨c, rest ++ cs, by simp [text, hcons], by simp [Opening.of, hc, opening]⟩

/-- The end of a comment does not overlap with itself. -/
theorem eq_nil_of_comment {body cs cs' : List Char} : ∀ {more : List Char},
    ¬['*', '/'] <:+: body ++ more → '*' :: '/' :: cs = more ++ '*' :: '/' :: cs' → more = []
  | [], _, _ => rfl
  | [_], _, h => by simp at h
  | _ :: _ :: more, hbody, h => by
      simp only [List.cons_append, List.cons.injEq] at h
      obtain ⟨rfl, rfl, -⟩ := h
      exact absurd ⟨body, more, by simp⟩ hbody

theorem comment_cancel {body body' cs cs' : List Char} (hbody : ¬['*', '/'] <:+: body)
    (hbody' : ¬['*', '/'] <:+: body')
    (h : body ++ '*' :: '/' :: cs = body' ++ '*' :: '/' :: cs') : body = body' := by
  rcases List.append_eq_append_iff.mp h with ⟨more, rfl, heq⟩ | ⟨more, rfl, heq⟩
  · rw [eq_nil_of_comment hbody' heq, List.append_nil]
  · rw [eq_nil_of_comment hbody heq, List.append_nil]

theorem lineComment_cancel {body body' cs cs' : List Char} {ended ended' : Bool}
    (hbody : '\n' ∉ body) (hbody' : '\n' ∉ body') (hcs : ended = false → cs = [])
    (hcs' : ended' = false → cs' = [])
    (h : body ++ (if ended then ['\n'] else []) ++ cs =
      body' ++ (if ended' then ['\n'] else []) ++ cs') : body = body' ∧ ended = ended' := by
  cases ended with
  | true =>
      cases ended' with
      | true => exact ⟨(append_cons_cancel hbody hbody' (by simpa using h)).1, rfl⟩
      | false =>
          obtain rfl : body ++ '\n' :: cs = body' := by simpa [hcs' rfl] using h
          simp at hbody'
  | false =>
      cases ended' with
      | true =>
          obtain rfl : body = body' ++ '\n' :: cs' := by simpa [hcs rfl] using h
          simp at hbody
      | false => exact ⟨by simpa [hcs rfl, hcs' rfl] using h, rfl⟩

theorem takeWhile_word {word cs : List Char} (hword : ∀ c ∈ word, isWordChar c = true)
    (hcs : ∀ c ∈ cs.head?, isWordChar c = false) : (word ++ cs).takeWhile isWordChar = word := by
  rw [List.takeWhile_append_of_pos hword]
  cases cs with
  | nil => simp
  | cons c cs => simp [hcs c rfl]

theorem Lexeme.IsWord.eq_of_text {l l' : Lexeme} (hl : l.IsWord) (hl' : l'.IsWord)
    (h : l.text = l'.text) : l = l' := by
  have htext := hl.ofText
  rw [h, hl'.ofText] at htext
  exact (Except.ok.inj htext).symm

theorem Part.eq_of_text {p q : Part} {cs cs' : List Char} (hp : p.EndsBefore cs)
    (hq : q.EndsBefore cs') (h : p.text ++ cs = q.text ++ cs') : p = q := by
  have hopening : p.opening = q.opening := by
    obtain ⟨c, rest, hc, hpo⟩ := opening_eq hp
    obtain ⟨c', rest', hc', hqo⟩ := opening_eq hq
    obtain ⟨rfl, rfl⟩ := List.cons.inj (hc.symm.trans (h.trans hc'))
    exact hpo.symm.trans hqo
  -- both parts are of one kind, and each kind ends in one place only
  cases p with
  | blank c hc =>
      cases q with
      | blank c' hc' =>
          obtain ⟨rfl, -⟩ := List.cons.inj h
          rfl
      | _ => cases hopening
  | lineComment body hbody ended =>
      cases q with
      | lineComment body' hbody' ended' =>
          obtain ⟨rfl, rfl⟩ := lineComment_cancel hbody hbody' hp hq
            (List.cons.inj (List.cons.inj h).2).2
          rfl
      | _ => cases hopening
  | comment body hbody =>
      cases q with
      | comment body' hbody' =>
          obtain rfl := comment_cancel hbody hbody' (by simpa [text] using h)
          rfl
      | _ => cases hopening
  | symbol c hc =>
      cases q with
      | symbol c' hc' =>
          obtain ⟨rfl, -⟩ := List.cons.inj h
          rfl
      | _ => cases hopening
  | string run hrun =>
      cases q with
      | string run' hrun' =>
          obtain ⟨rfl, -⟩ := append_cons_cancel hrun hrun' (by simpa [text] using h)
          rfl
      | _ => cases hopening
  | word l hl =>
      cases q with
      | word l' hl' =>
          have htext : l.text.toList = l'.text.toList := by
            rw [← takeWhile_word hl.chars hp, ← takeWhile_word hl'.chars hq]
            exact congrArg _ h
          obtain rfl := hl.eq_of_text hl' (String.toList_inj.mp htext)
          rfl
      | _ => cases hopening

/-- No two ways of putting separated parts together give one text. -/
theorem eq_of_joined : ∀ {parts parts' : List Part}, parts.IsChain Part.MayPrecede →
    parts'.IsChain Part.MayPrecede → joined parts = joined parts' → parts = parts'
  | [], [], _, _, _ => rfl
  | [], q :: _, _, _, h => by
      obtain ⟨c, cs, hq, -⟩ := q.exists_cons
      rw [joined_cons, hq] at h
      cases h
  | p :: _, [], _, _, h => by
      obtain ⟨c, cs, hp, -⟩ := p.exists_cons
      rw [joined_cons, hp] at h
      cases h
  | p :: _, q :: _, hchain, hchain', h => by
      obtain ⟨hp, hparts⟩ := isChain_cons_iff.mp hchain
      obtain ⟨hq, hparts'⟩ := isChain_cons_iff.mp hchain'
      obtain rfl := Part.eq_of_text hp hq h
      rw [joined_cons, joined_cons, List.append_cancel_left_eq] at h
      rw [eq_of_joined hparts hparts' h]

end JackVm
