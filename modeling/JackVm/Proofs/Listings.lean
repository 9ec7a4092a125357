import JackVm.Listing

/-!
# Listings are read back

In texts the angle brackets are escaped, so in a listing they stand around tags only.
Cut at its opening brackets, and each piece at its closing bracket, a listing falls into
tags and what follows them; no text can imitate a bracket, and an ampersand is always the
beginning of an entity. Layout is what follows a closing tag, and is not looked at.

Main statement: what is written for a list of tokens is read back as their kinds and
texts, so different lists have different listings (`write_loses_nothing`).
-/

namespace JackVm.Listing

/-! ## Reading -/

/-- The kind that a tag names. -/
def kind? (tag : List Char) : Option LexemeKind :=
  [.keyword, .symbol, .identifier, .integerConstant, .stringConstant].find?
    fun kind => kind.name.toList = tag

/-- The text that was escaped. An ampersand stands only where an entity begins. -/
def unescape? : List Char → Option (List Char)
  | [] => some []
  | '&' :: 'l' :: 't' :: ';' :: cs => (unescape? cs).map ('<' :: ·)
  | '&' :: 'g' :: 't' :: ';' :: cs => (unescape? cs).map ('>' :: ·)
  | '&' :: 'a' :: 'm' :: 'p' :: ';' :: cs => (unescape? cs).map ('&' :: ·)
  | c :: cs => if c = '&' then none else (unescape? cs).map (c :: ·)

/-- The tags of a document, each with what follows it. -/
def tags (document : List Char) : List (List (List Char)) :=
  ((document.splitOn '<').drop 1).map (·.splitOn '>')

/-- The lexemes of the elements up to the end of the root. -/
def elements? : List (List (List Char)) → Option (List Lexeme)
  | [[_, _]] => some []
  | [name, text] :: [_, _] :: rest => do
      let kind ← kind? name
      let text ← unescape? text
      let ls ← elements? rest
      return ⟨kind, String.ofList text⟩ :: ls
  | _ => none

/-- The lexemes that a document lists. -/
def read? (document : String) : Option (List Lexeme) :=
  match tags document.toList with
  | [_, _] :: [root, _] :: rest =>
      if root = "tokens /".toList then some [] else elements? rest
  | _ => none

/-! ## Escaped texts -/

theorem kind?_name (kind : LexemeKind) : kind? kind.name.toList = some kind := by
  cases kind <;> decide

theorem unescape?_cons {c : Char} (hc : c ≠ '&') (cs : List Char) :
    unescape? (c :: cs) = (unescape? cs).map (c :: ·) := by
  rw [unescape?.eq_def]
  split <;> simp_all

/-- A character is not escaped, or it is one of three. -/
theorem escape_cases (c : Char) :
    (c ≠ '<' ∧ c ≠ '>' ∧ c ≠ '&' ∧ escape c = [c]) ∨ c = '<' ∨ c = '>' ∨ c = '&' := by
  unfold escape
  split
  · exact .inr (.inl rfl)
  · exact .inr (.inr (.inl rfl))
  · exact .inr (.inr (.inr rfl))
  · next hlt hgt hamp => exact .inl ⟨hlt, hgt, hamp, rfl⟩

/-- Escaping is undone. -/
theorem unescape?_escape (cs : List Char) : unescape? (cs.flatMap escape) = some cs := by
  induction cs with
  | nil => rfl
  | cons c cs ih =>
      rw [List.flatMap_cons]
      rcases escape_cases c with ⟨-, -, hamp, hc⟩ | rfl | rfl | rfl
      · rw [hc, List.singleton_append, unescape?_cons hamp, ih]
        rfl
      · show (unescape? (cs.flatMap escape)).map ('<' :: ·) = _
        rw [ih]
        rfl
      · show (unescape? (cs.flatMap escape)).map ('>' :: ·) = _
        rw [ih]
        rfl
      · show (unescape? (cs.flatMap escape)).map ('&' :: ·) = _
        rw [ih]
        rfl

/-- No bracket is left in an escaped text. -/
theorem not_mem_escape {b : Char} (hb : b = '<' ∨ b = '>') (cs : List Char) :
    b ∉ cs.flatMap escape := by
  intro hmem
  obtain ⟨c, -, hc⟩ := List.mem_flatMap.mp hmem
  rcases escape_cases c with ⟨hlt, hgt, -, heq⟩ | rfl | rfl | rfl
  · rw [heq, List.mem_singleton] at hc
    rcases hb with rfl | rfl
    · exact hlt hc.symm
    · exact hgt hc.symm
  all_goals rcases hb with rfl | rfl <;> revert hc <;> decide

/-! ## Tags -/

/-- A tag and what follows it, as they are written. -/
def markup (p : List Char × List Char) : List Char := '<' :: p.1 ++ '>' :: p.2

/-- Neither the tag nor what follows it has a bracket. -/
def IsPlain (p : List Char × List Char) : Prop :=
  ('<' ∉ p.1 ∧ '>' ∉ p.1) ∧ '<' ∉ p.2 ∧ '>' ∉ p.2

/-- Cut at the opening brackets, the pieces begin with the tags. -/
theorem splitOn_markup : ∀ {ps : List (List Char × List Char)} {front : List Char},
    '<' ∉ front → (∀ p ∈ ps, IsPlain p) →
      (front ++ ps.flatMap markup).splitOn '<' = front :: ps.map fun p => p.1 ++ '>' :: p.2
  | [], front, hfront, _ => by
      simpa using List.splitOn_eq_singleton hfront
  | p :: ps, front, hfront, h => by
      obtain ⟨hp, hps⟩ := List.forall_mem_cons.mp h
      have hpiece : '<' ∉ p.1 ++ '>' :: p.2 := by simp [hp.1.1, hp.2.1]
      rw [List.flatMap_cons, markup, List.cons_append, List.cons_append,
        List.splitOn_append_cons_self_of_not_mem hfront, splitOn_markup hpiece hps, List.map_cons]

/-- Tags without brackets are found again. -/
theorem tags_markup {ps : List (List Char × List Char)} (h : ∀ p ∈ ps, IsPlain p) :
    tags (ps.flatMap markup) = ps.map fun p => [p.1, p.2] := by
  have hpieces := splitOn_markup (List.not_mem_nil (a := '<')) h
  rw [List.nil_append] at hpieces
  rw [tags, hpieces, List.drop_one, List.tail_cons, List.map_map]
  apply List.map_congr_left
  intro p hp
  obtain ⟨⟨-, htag⟩, -, htext⟩ := h p hp
  rw [Function.comp_apply, List.splitOn_append_cons_self_of_not_mem htag,
    List.splitOn_eq_singleton htext]

/-- The layout in front of the elements, or in front of the end of the root. -/
def gap (ls : List Lexeme) : List Char := (if ls.isEmpty then "\n" else "\n  ").toList

/-- The tags after that of the root: an opening and a closing one for each lexeme. -/
def elementTags : List Lexeme → List (List Char × List Char)
  | [] => [("/tokens".toList, [])]
  | l :: ls => (l.kind.name.toList, l.text.toList.flatMap escape)
      :: ('/' :: l.kind.name.toList, gap ls) :: elementTags ls

/-- All tags of a listing. -/
def allTags (ls : List Lexeme) : List (List Char × List Char) :=
  ("?xml version=\"1.0\" encoding=\"UTF-8\"?".toList, "\n".toList) ::
    if ls.isEmpty then [("tokens /".toList, [])] else ("tokens".toList, gap ls) :: elementTags ls

theorem gap_elementTags : ∀ ls : List Lexeme, gap ls ++ (elementTags ls).flatMap markup =
    ls.flatMap element ++ '\n' :: closeTag "tokens"
  | [] => rfl
  | l :: ls => by
      have ih := gap_elementTags ls
      have hgap : gap (l :: ls) = "\n  ".toList := rfl
      simp only [elementTags, List.flatMap_cons, markup, hgap, element, openTag, closeTag,
        List.append_assoc, List.cons_append, List.nil_append] at ih ⊢
      rw [ih]

theorem render_eq_markup (ls : List Lexeme) : render ls = (allTags ls).flatMap markup := by
  cases ls with
  | nil => rfl
  | cons l ls =>
      have hgap := gap_elementTags (l :: ls)
      simp only [render, allTags, List.isEmpty_cons, Bool.false_eq_true, if_false,
        List.flatMap_cons, markup, List.append_assoc, List.cons_append] at hgap ⊢
      rw [hgap]
      rfl

theorem bracket_not_mem_gap (ls : List Lexeme) : '<' ∉ gap ls ∧ '>' ∉ gap ls := by
  unfold gap
  split <;> decide

theorem isPlain_element (l : Lexeme) (ls : List Lexeme) :
    IsPlain (l.kind.name.toList, l.text.toList.flatMap escape) ∧
      IsPlain ('/' :: l.kind.name.toList, gap ls) := by
  have hname : ('<' ∉ l.kind.name.toList ∧ '>' ∉ l.kind.name.toList) ∧
      '<' ∉ '/' :: l.kind.name.toList ∧ '>' ∉ '/' :: l.kind.name.toList := by
    cases l.kind <;> decide
  exact ⟨⟨hname.1, not_mem_escape (.inl rfl) _, not_mem_escape (.inr rfl) _⟩, hname.2,
    bracket_not_mem_gap ls⟩

theorem isPlain_elementTags : ∀ ls : List Lexeme, ∀ p ∈ elementTags ls, IsPlain p
  | [] => by simp [elementTags, IsPlain]
  | l :: ls => by
      obtain ⟨hopen, hclose⟩ := isPlain_element l ls
      exact List.forall_mem_cons.mpr
        ⟨hopen, List.forall_mem_cons.mpr ⟨hclose, isPlain_elementTags ls⟩⟩

theorem isPlain_allTags (ls : List Lexeme) : ∀ p ∈ allTags ls, IsPlain p := by
  refine List.forall_mem_cons.mpr ⟨by simp [IsPlain], ?_⟩
  split
  · simp [IsPlain]
  · have hroot : '<' ∉ "tokens".toList ∧ '>' ∉ "tokens".toList := by decide
    exact List.forall_mem_cons.mpr ⟨⟨hroot, bracket_not_mem_gap ls⟩, isPlain_elementTags ls⟩

/-! ## Listings -/

theorem elements?_elementTags : ∀ ls : List Lexeme,
    elements? ((elementTags ls).map fun p => [p.1, p.2]) = some ls
  | [] => rfl
  | l :: ls => by
      rw [elementTags, List.map_cons, List.map_cons, elements?, kind?_name, unescape?_escape,
        elements?_elementTags ls]
      simp

/-- A listing is read back. -/
theorem read?_text (ls : List Lexeme) : read? (text ls) = some ls := by
  rw [read?, text, String.toList_ofList, render_eq_markup, tags_markup (isPlain_allTags ls)]
  cases ls with
  | nil => rfl
  | cons l ls => exact elements?_elementTags (l :: ls)

/-- What is written is the listing. -/
theorem text_of_write {outlet : Outlet} {ls : List Lexeme} {document : String}
    (h : write outlet ls = .ok document) : document = text ls := by
  unfold write at h
  dsimp only at h
  split at h
  · split at h
    · exact (Except.ok.inj h).symm
    · cases h
  · cases h

/-- An outlet that does not fail takes the listing of any tokens, and whatever outlet took
it, the listing is read back as the kinds and texts of the tokens. So tokens with the same
listing agree in all kinds and texts. -/
theorem write_loses_nothing (tokens : List Token) :
    write {} (tokens.map (·.toLexeme)) = .ok (text (tokens.map (·.toLexeme))) ∧
      ∀ (outlet : Outlet) (document : String),
        write outlet (tokens.map (·.toLexeme)) = .ok document →
          read? document = some (tokens.map (·.toLexeme)) ∧
          ∀ (outlet' : Outlet) (tokens' : List Token),
            write outlet' (tokens'.map (·.toLexeme)) = .ok document →
              tokens'.map (·.toLexeme) = tokens.map (·.toLexeme) := by
  refine ⟨rfl, ?_⟩
  intro outlet document hwrite
  obtain rfl := text_of_write hwrite
  refine ⟨read?_text _, ?_⟩
  intro outlet' tokens' hwrite'
  have hread := read?_text (tokens'.map (·.toLexeme))
  rw [← text_of_write hwrite', read?_text] at hread
  exact (Option.some.inj hread).symm

/-- Texts that look like tags and entities, a line break in one, and a text that is empty. -/
def deceptive : List Token :=
  [⟨⟨.stringConstant, "</symbol>"⟩, 1⟩, ⟨⟨.symbol, "&lt;"⟩, 1⟩, ⟨⟨.identifier, ""⟩, 2⟩,
    ⟨⟨.keyword, "\n  <keyword>&\""⟩, 2⟩]

theorem write_loses_nothing_deceptive :
    read? (text (deceptive.map (·.toLexeme))) = some (deceptive.map (·.toLexeme)) ∧
      ∀ (outlet : Outlet) (tokens : List Token),
        write outlet (tokens.map (·.toLexeme)) = .ok (text (deceptive.map (·.toLexeme))) →
          tokens.map (·.toLexeme) = deceptive.map (·.toLexeme) := by
  obtain ⟨hwrite, hread⟩ := write_loses_nothing deceptive
  exact hread {} _ hwrite

end JackVm.Listing
