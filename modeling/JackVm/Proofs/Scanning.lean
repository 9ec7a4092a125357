import JackVm.Proofs.Parsing

/-!
# What the scanner makes

Every token of a scanned text is proper: its kind and text fit together
(`proper_of_scan`). There are no more tokens than characters
(`length_of_scan`), since what is not yet a token was read from characters that
no token was made of.
-/

namespace JackVm

/-- A list is cut at its first `a` in one way only. -/
theorem append_cons_cancel {α : Type} {a : α} : ∀ {xs ys us vs : List α}, a ∉ xs → a ∉ ys →
    xs ++ a :: us = ys ++ a :: vs → xs = ys ∧ us = vs
  | [], [], _, _, _, _, h => ⟨rfl, (List.cons.inj h).2⟩
  | [], y :: ys, _, _, _, hys, h => absurd ((List.cons.inj h).1 ▸ List.mem_cons_self) hys
  | x :: xs, [], _, _, hxs, _, h => absurd ((List.cons.inj h).1 ▸ List.mem_cons_self) hxs
  | x :: xs, y :: ys, _, _, hxs, hys, h => by
      obtain ⟨rfl, htail⟩ := List.cons.inj h
      obtain ⟨rfl, rfl⟩ := append_cons_cancel (fun hmem => hxs (List.mem_cons_of_mem _ hmem))
        (fun hmem => hys (List.mem_cons_of_mem _ hmem)) htail
      exact ⟨rfl, rfl⟩

/-- A piece of text that is a lexeme is a proper one. -/
theorem Lexeme.proper_of_ofText {text : String} {l : Lexeme} (h : Lexeme.ofText text = .ok l) :
    l.Proper := by
  simp only [Lexeme.ofText] at h
  split at h
  · next hk =>
      obtain rfl := Except.ok.inj h
      simpa [Lexeme.Proper] using hk
  next hk =>
  split at h
  · next hs =>
      obtain rfl := Except.ok.inj h
      unfold isOneSymbol at hs
      split at hs
      · next c hc =>
          refine ⟨c, by simpa using hs, ?_⟩
          have : text = String.ofList [c] := by rw [← hc, String.ofList_toList]
          simpa [Char.toString] using this
      · simp at hs
  split at h
  · obtain rfl := Except.ok.inj h
    trivial
  split at h
  · next hd =>
      split at h
      · next hv =>
          obtain rfl := Except.ok.inj h
          exact ⟨hd, hv⟩
      · simp at h
  split at h
  · next hi =>
      obtain rfl := Except.ok.inj h
      exact ⟨hi, by simpa using hk⟩
  · simp at h

namespace Scanner

/-- The tokens that characters read last will be part of. -/
def Mode.pending : Mode → Nat
  | .code word => if word.isEmpty then 0 else 1
  | .slash | .string _ => 1
  | .lineComment | .comment _ _ => 0

@[simp] theorem Mode.pending_code_empty : (Mode.code "").pending = 0 := rfl

/-- After `n` characters: all tokens are proper, and there is a character for each
of them and for what is pending. -/
structure Sound (s : Scanner) (n : Nat) : Prop where
  proper : ∀ t ∈ s.tokens, t.toLexeme.Proper
  size : s.tokens.size + s.mode.pending ≤ n

/-- Closing a word makes at most one token of it. -/
theorem closeWord_spec {s s' : Scanner} {word : String} (h : s.closeWord word = .ok s')
    (hs : ∀ t ∈ s.tokens, t.toLexeme.Proper) :
    (∀ t ∈ s'.tokens, t.toLexeme.Proper) ∧
      s'.tokens.size = s.tokens.size + (Mode.code word).pending := by
  simp only [closeWord] at h
  split at h
  · next he =>
      obtain rfl := Except.ok.inj h
      exact ⟨hs, by simp [Mode.pending, he]⟩
  next he =>
  split at h
  · next t ht =>
      obtain rfl := Except.ok.inj h
      refine ⟨?_, by simp [Mode.pending, he]⟩
      intro t' ht'
      rcases Array.mem_push.mp ht' with ht' | rfl
      · exact hs t' ht'
      · simp only [Token.ofText] at ht
        split at ht
        · next l hl =>
            obtain rfl := Except.ok.inj ht
            exact Lexeme.proper_of_ofText hl
        · simp at ht
  · simp at h

theorem push_spec {s : Scanner} {l : Lexeme} (hl : l.Proper)
    (hs : ∀ t ∈ s.tokens, t.toLexeme.Proper) : ∀ t ∈ (s.push l).tokens, t.toLexeme.Proper := by
  intro t ht
  rcases Array.mem_push.mp ht with ht | rfl
  · exact hs t ht
  · exact hl

/-- A word is closed, and then something happens that makes no further token. -/
theorem closeWord_map {s s' : Scanner} {word : String} {f : Scanner → Scanner} {n k : Nat}
    (h : f <$> s.closeWord word = .ok s') (hs : ∀ t ∈ s.tokens, t.toLexeme.Proper)
    (hn : s.tokens.size + (Mode.code word).pending ≤ n)
    (hf : ∀ m : Scanner, (∀ t ∈ m.tokens, t.toLexeme.Proper) → m.tokens.size ≤ n →
      (f m).Sound k) : s'.Sound k := by
  cases hc : s.closeWord word with
  | error e => simp [hc, Functor.map, Except.map] at h
  | ok m =>
      simp only [hc, Functor.map, Except.map, Except.ok.injEq] at h
      obtain rfl := h
      obtain ⟨hproper, hsize⟩ := closeWord_spec hc hs
      exact hf m hproper (by omega)

theorem countLine_tokens (s : Scanner) (c : Char) : (s.countLine c).tokens = s.tokens := by
  unfold countLine
  split <;> rfl

theorem readCode_sound {s s' : Scanner} {word : String} {c : Char} {n : Nat}
    (h : s.readCode word c = .ok s') (hs : ∀ t ∈ s.tokens, t.toLexeme.Proper)
    (hn : s.tokens.size + (Mode.code word).pending ≤ n) : s'.Sound (n + 1) := by
  simp only [readCode] at h
  split at h
  · refine closeWord_map h hs hn fun m hm hk => ⟨hm, ?_⟩
    exact Nat.add_le_add_right hk 1
  split at h
  · refine closeWord_map h hs hn fun m hm hk => ⟨hm, ?_⟩
    exact Nat.add_le_add_right hk 1
  split at h
  · refine closeWord_map h hs hn fun m hm hk => ⟨?_, ?_⟩
    · simpa [enter, countLine_tokens] using hm
    · simp only [enter, countLine_tokens, Mode.pending_code_empty]
      omega
  split at h
  · next hc =>
      refine closeWord_map h hs hn fun m hm hk => ⟨?_, ?_⟩
      · exact push_spec ⟨c, by simpa using hc, rfl⟩ hm
      · simpa [enter, push, Mode.pending] using hk
  · obtain rfl := Except.ok.inj h
    refine ⟨hs, ?_⟩
    have : (Mode.code (word.push c)).pending ≤ 1 := by
      simp only [Mode.pending]
      split <;> omega
    simp only [enter]
    omega

theorem step_sound {s s' : Scanner} {c : Char} {n : Nat} (h : s.step c = .ok s')
    (hs : s.Sound n) : s'.Sound (n + 1) := by
  obtain ⟨hproper, hsize⟩ := hs
  simp only [step] at h
  split at h
  · next word hm =>
      rw [hm] at hsize
      exact readCode_sound h hproper hsize
  · next hm =>
      simp only [hm, Mode.pending] at hsize
      split at h
      · obtain rfl := Except.ok.inj h
        exact ⟨hproper, by simp only [enter, Mode.pending]; omega⟩
      split at h
      · obtain rfl := Except.ok.inj h
        exact ⟨hproper, by simp only [enter, Mode.pending]; omega⟩
      · -- the slash was a symbol, and its character is not used up yet
        refine readCode_sound h (push_spec ⟨'/', by decide, rfl⟩ hproper) ?_
        simpa [push, Mode.pending] using hsize
  · next hm =>
      obtain rfl := Except.ok.inj h
      simp only [hm, Mode.pending] at hsize
      split
      · refine ⟨by simpa [enter, countLine_tokens] using hproper, ?_⟩
        simp only [enter, countLine_tokens, Mode.pending_code_empty]
        omega
      · exact ⟨hproper, by simp only [hm, Mode.pending]; omega⟩
  · next opened star hm =>
      obtain rfl := Except.ok.inj h
      simp only [hm, Mode.pending] at hsize
      split
      · refine ⟨hproper, ?_⟩
        simp only [enter, Mode.pending_code_empty]
        omega
      · refine ⟨by simpa [enter, countLine_tokens] using hproper, ?_⟩
        simp only [enter, countLine_tokens, Mode.pending]
        omega
  · next text hm =>
      obtain rfl := Except.ok.inj h
      simp only [hm, Mode.pending] at hsize
      split
      · refine ⟨push_spec trivial hproper, ?_⟩
        simp only [enter, push, Array.size_push, Mode.pending_code_empty]
        omega
      split
      · refine ⟨by simpa [countLine_tokens] using hproper, ?_⟩
        have hmode : (s.countLine c).mode = s.mode := by
          unfold countLine
          split <;> rfl
        simp only [countLine_tokens, hmode, hm, Mode.pending]
        omega
      split
      · exact ⟨hproper, by simp only [hm, Mode.pending]; omega⟩
      · exact ⟨hproper, by simp only [enter, Mode.pending]; omega⟩

theorem foldlM_sound : ∀ {cs : List Char} {s s' : Scanner} {n : Nat},
    cs.foldlM step s = .ok s' → s.Sound n → s'.Sound (n + cs.length)
  | [], s, s', n, h, hs => by
      obtain rfl : s = s' := by simpa [pure, Except.pure] using h
      exact hs
  | c :: cs, s, s', n, h, hs => by
      rw [List.foldlM_cons] at h
      cases hc : s.step c with
      | error e => simp [hc, bind, Except.bind] at h
      | ok m =>
          simp only [hc, bind, Except.bind] at h
          have := foldlM_sound h (step_sound hc hs)
          rwa [List.length_cons, Nat.add_comm cs.length, ← Nat.add_assoc]

/-- What is pending at the end becomes a token, or is none. -/
theorem finish_spec {s : Scanner} {tokens : List Token} {n : Nat} (h : s.finish = .ok tokens)
    (hs : s.Sound n) : (∀ t ∈ tokens, t.toLexeme.Proper) ∧ tokens.length ≤ n := by
  obtain ⟨hproper, hsize⟩ := hs
  simp only [finish] at h
  split at h
  · next word hm =>
      rw [hm] at hsize
      cases hc : s.closeWord word with
      | error e => simp [hc, Functor.map, Except.map] at h
      | ok m =>
          simp only [hc, Functor.map, Except.map, Except.ok.injEq] at h
          obtain rfl := h
          obtain ⟨hp, hz⟩ := closeWord_spec hc hproper
          exact ⟨by simpa using hp, by simp only [Array.length_toList]; omega⟩
  · next hm =>
      obtain rfl := Except.ok.inj h
      simp only [hm, Mode.pending] at hsize
      refine ⟨?_, by simpa [push] using hsize⟩
      simpa using push_spec (l := ⟨.symbol, "/"⟩) ⟨'/', by decide, rfl⟩ hproper
  · next hm =>
      obtain rfl := Except.ok.inj h
      exact ⟨by simpa using hproper, by simpa [hm, Mode.pending] using hsize⟩
  · simp at h
  · simp at h

end Scanner

theorem sound_of_scan {source : String} {tokens : List Token} (h : scan source = .ok tokens) :
    (∀ t ∈ tokens, t.toLexeme.Proper) ∧ tokens.length ≤ source.length := by
  simp only [scan, bind, Except.bind] at h
  cases hf : source.toList.foldlM Scanner.step {} with
  | error e => simp [hf] at h
  | ok s =>
      simp only [hf] at h
      have hs := Scanner.foldlM_sound (n := 0) hf ⟨by simp, by simp [Scanner.Mode.pending]⟩
      rw [Nat.zero_add, String.length_toList] at hs
      exact Scanner.finish_spec h hs

theorem proper_of_scan {source : String} {tokens : List Token} (h : scan source = .ok tokens) :
    ∀ l ∈ tokens.map (·.toLexeme), l.Proper := by
  intro l hl
  obtain ⟨t, ht, rfl⟩ := List.mem_map.mp hl
  exact (sound_of_scan h).1 t ht

theorem length_of_scan {source : String} {tokens : List Token} (h : scan source = .ok tokens) :
    tokens.length ≤ source.length := (sound_of_scan h).2

end JackVm
