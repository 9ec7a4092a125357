import JackVm.Proofs.Printing

/-!
# One tree for a printed form

Two trees with the same printed form are equal (`Class.print_injective`). Parts of
a class are compared together with what follows them, since a name is a term of
its own or the beginning of a longer one depending on the next lexeme: printed
forms that agree with lexemes after them that end the part are those of one
part, and the lexemes after them agree, too.
-/

namespace JackVm.Tree

/-! ## Lexemes -/

section
variable {c d : Char} {v w : String} {x y : Identifier}

@[simp] theorem mark_inj : mark c = mark d ↔ c = d := by
  constructor
  · intro h
    have := congrArg Lexeme.mark? h
    simpa using this
  · rintro rfl
    rfl

@[simp] theorem word_inj : word v = word w ↔ v = w := by
  simp [word]

theorem Identifier.text_injective : Function.Injective Identifier.text := by
  rintro ⟨text, _, _⟩ ⟨text', _, _⟩ rfl
  rfl

@[simp] theorem lexeme_inj : x.lexeme = y.lexeme ↔ x = y := by
  cases x
  cases y
  simp [Identifier.lexeme]

@[simp] theorem mark_ne_word : mark c ≠ word w := by simp [mark, word]

@[simp] theorem word_ne_mark : word w ≠ mark c := by simp [mark, word]

@[simp] theorem lexeme_ne_mark : x.lexeme ≠ mark c := by simp [mark, Identifier.lexeme]

@[simp] theorem mark_ne_lexeme : mark c ≠ x.lexeme := by simp [mark, Identifier.lexeme]

@[simp] theorem lexeme_ne_word : x.lexeme ≠ word w := by simp [word, Identifier.lexeme]

@[simp] theorem word_ne_lexeme : word w ≠ x.lexeme := by simp [word, Identifier.lexeme]

theorem typeLexeme_inj : ∀ {t t' : VarType}, t.lexeme = t'.lexeme → t = t' := by
  intro t t' h
  cases t <;> cases t' <;> simp_all [VarType.lexeme, VarType.text]

theorem typeLexeme_ne_mark (t : VarType) : t.lexeme ≠ mark c := by
  intro h
  have hsymbol := isSymbol_typeLexeme c t
  simp [h] at hsymbol

theorem typeLexeme_ne_void (t : VarType) : t.lexeme ≠ word "void" := by
  intro h
  have hvoid := isKeyword_void t
  simp [h] at hvoid

end

theorem unaryMark_inj {op op' : UnaryOp} (h : unaryMark op = unaryMark op') : op = op' := by
  cases op <;> cases op' <;> simp_all [unaryMark]

theorem binaryMark_inj {op op' : BinaryOp} (h : binaryMark op = binaryMark op') : op = op' := by
  have := congrArg BinaryOp.ofMark? h
  simpa using this

theorem constantWord_inj {c c' : KeywordConstant} (h : constantWord c = constantWord c') :
    c = c' := by
  cases c <;> cases c' <;> simp_all [constantWord]

/-- An expression does not begin with a symbol that closes something. -/
theorem Expression.print_ne {c : Char} (hc : c = ')' ∨ c = ';') (e : Expression)
    (a b : List Lexeme) : e.print ++ a ≠ mark c :: b := by
  intro h
  obtain ⟨l, tail, items, hprint, hl, -⟩ := e.opens
  rw [hprint, List.cons_append, List.cons.injEq] at h
  have hclosed := isSymbol_of_expressionItems? hl hc
  simp [h.1] at hclosed

/-! ## Expressions -/

/-- The names of two calls agree up to the opening parenthesis. -/
theorem CallName.print_cancel {f f' : CallName} {a b : List Lexeme}
    (h : f.print ++ mark '(' :: a = f'.print ++ mark '(' :: b) : f = f' ∧ a = b := by
  cases f <;> cases f' <;> simp_all [CallName.print]

mutual
theorem Term.print_cancel : ∀ (t t' : Term) {l l' : Lexeme} {ls ls' : List Lexeme},
    EndsTerm l → EndsTerm l' → t.print ++ l :: ls = t'.print ++ l' :: ls' →
      t = t' ∧ l :: ls = l' :: ls'
  | .integer n, t', l, l', ls, ls', hl, hl', h => by
      cases t' with
      | integer n' =>
          cases n
          cases n'
          simp_all [Term.print]
      | call f args => cases f <;> simp [Term.print, CallName.print, Identifier.lexeme] at h
      | _ => simp [Term.print, word, mark, Identifier.lexeme] at h
  | .string text, t', l, l', ls, ls', hl, hl', h => by
      cases t' with
      | string text' => simp_all [Term.print]
      | call f args => cases f <;> simp [Term.print, CallName.print, Identifier.lexeme] at h
      | _ => simp [Term.print, word, mark, Identifier.lexeme] at h
  | .constant c, t', l, l', ls, ls', hl, hl', h => by
      cases t' with
      | constant c' =>
          simp only [Term.print, List.singleton_append, List.cons.injEq, word_inj] at h
          obtain rfl := constantWord_inj h.1
          exact ⟨rfl, by simp [h.2]⟩
      | call f args => cases f <;> simp [Term.print, CallName.print] at h
      | _ => simp [Term.print, word, mark, Identifier.lexeme] at h
  | .var x, t', l, l', ls, ls', hl, hl', h => by
      cases t' with
      | var x' => simp_all [Term.print]
      | element x' i => simp_all [Term.print, EndsTerm]
      | call f args => cases f <;> simp_all [Term.print, CallName.print, EndsTerm]
      | _ => simp [Term.print, word, mark, Identifier.lexeme] at h
  | .element x i, t', l, l', ls, ls', hl, hl', h => by
      cases t' with
      | var x' =>
          simp only [Term.print, List.cons_append, List.nil_append, List.cons.injEq] at h
          -- a bracket would have gone on with the name
          obtain ⟨-, rfl, -⟩ := h
          simp [EndsTerm] at hl'
      | element x' i' =>
          simp only [Term.print, List.cons_append, List.nil_append, List.append_assoc,
            List.cons.injEq, lexeme_inj, true_and] at h
          obtain ⟨rfl, h₁⟩ := h
          obtain ⟨rfl, h₂⟩ := i.print_cancel i' (endsExpression_mark (by simp))
            (endsExpression_mark (by simp)) h₁
          exact ⟨rfl, (List.cons.inj h₂).2⟩
      | call f args => cases f <;> simp [Term.print, CallName.print] at h
      | _ => simp [Term.print, word, mark, Identifier.lexeme] at h
  | .call f args, t', l, l', ls, ls', hl, hl', h => by
      cases t' with
      | var x' =>
          cases f <;> simp only [Term.print, CallName.print, List.cons_append, List.nil_append,
            List.cons.injEq] at h <;> obtain ⟨-, rfl, -⟩ := h <;> simp [EndsTerm] at hl'
      | element x' i' => cases f <;> simp [Term.print, CallName.print] at h
      | call f' args' =>
          simp only [Term.print, List.append_assoc, List.cons_append, List.nil_append] at h
          obtain ⟨rfl, h₁⟩ := CallName.print_cancel h
          obtain ⟨rfl, h₂⟩ := args.print_cancel args' h₁
          exact ⟨rfl, h₂⟩
      | _ => cases f <;> simp [Term.print, CallName.print, word, mark, Identifier.lexeme] at h
  | .group e, t', l, l', ls, ls', hl, hl', h => by
      cases t' with
      | group e' =>
          simp only [Term.print, List.cons_append, List.nil_append, List.append_assoc,
            List.cons.injEq, true_and] at h
          obtain ⟨rfl, h₁⟩ := e.print_cancel e' (endsExpression_mark (by simp))
            (endsExpression_mark (by simp)) h
          exact ⟨rfl, (List.cons.inj h₁).2⟩
      | call f args => cases f <;> simp [Term.print, CallName.print] at h
      | unary op t => cases op <;> simp [Term.print, unaryMark] at h
      | _ => simp [Term.print, word, mark, Identifier.lexeme] at h
  | .unary op t, t', l, l', ls, ls', hl, hl', h => by
      cases t' with
      | group e => cases op <;> simp [Term.print, unaryMark] at h
      | unary op' t' =>
          simp only [Term.print, List.cons_append, List.nil_append, List.cons.injEq, mark_inj] at h
          obtain ⟨hop, h₁⟩ := h
          obtain rfl := unaryMark_inj hop
          obtain ⟨rfl, h₂⟩ := t.print_cancel t' hl hl' h₁
          exact ⟨rfl, h₂⟩
      | call f args => cases f <;> simp [Term.print, CallName.print] at h
      | _ => simp [Term.print, word, mark, Identifier.lexeme] at h

theorem Expression.print_cancel : ∀ (e e' : Expression) {l l' : Lexeme} {ls ls' : List Lexeme},
    EndsExpression l → EndsExpression l' → e.print ++ l :: ls = e'.print ++ l' :: ls' →
      e = e' ∧ l :: ls = l' :: ls'
  | .mk t ops, .mk t' ops', l, l', ls, ls', hl, hl', h => by
      -- the first terms are compared up to the lexemes that end them
      obtain ⟨m, ms, hm, hend⟩ := ops.print_endsTerm hl ls
      obtain ⟨m', ms', hm', hend'⟩ := ops'.print_endsTerm hl' ls'
      simp only [Expression.print, List.append_assoc, hm, hm'] at h
      obtain ⟨rfl, h₁⟩ := t.print_cancel t' hend hend' h
      rw [← hm, ← hm'] at h₁
      obtain ⟨rfl, h₂⟩ := ops.print_cancel ops' hl hl' h₁
      exact ⟨rfl, h₂⟩

theorem Operations.print_cancel : ∀ (o o' : Operations) {l l' : Lexeme} {ls ls' : List Lexeme},
    EndsExpression l → EndsExpression l' → o.print ++ l :: ls = o'.print ++ l' :: ls' →
      o = o' ∧ l :: ls = l' :: ls'
  | .nil, .nil, _, _, _, _, _, _, h => ⟨rfl, h⟩
  | .nil, .cons op t o, l, l', ls, ls', hl, _, h => by
      simp only [Operations.print, List.nil_append, List.cons_append, List.cons.injEq] at h
      have hop := hl.2
      simp [h.1] at hop
  | .cons op t o, .nil, l, l', ls, ls', _, hl', h => by
      simp only [Operations.print, List.nil_append, List.cons_append, List.cons.injEq] at h
      have hop := hl'.2
      simp [← h.1] at hop
  | .cons op t o, .cons op' t' o', l, l', ls, ls', hl, hl', h => by
      obtain ⟨m, ms, hm, hend⟩ := o.print_endsTerm hl ls
      obtain ⟨m', ms', hm', hend'⟩ := o'.print_endsTerm hl' ls'
      simp only [Operations.print, List.cons_append, List.nil_append, List.append_assoc,
        List.cons.injEq, mark_inj, hm, hm'] at h
      obtain ⟨hop, h₁⟩ := h
      obtain rfl := binaryMark_inj hop
      obtain ⟨rfl, h₂⟩ := t.print_cancel t' hend hend' h₁
      rw [← hm, ← hm'] at h₂
      obtain ⟨rfl, h₃⟩ := o.print_cancel o' hl hl' h₂
      exact ⟨rfl, h₃⟩

theorem ArgumentList.print_cancel : ∀ (s s' : ArgumentList) {a b : List Lexeme},
    s.print ++ mark ')' :: a = s'.print ++ mark ')' :: b → s = s' ∧ a = b
  | .nil, .nil, a, b, h => ⟨rfl, by simpa [ArgumentList.print] using h⟩
  | .nil, .cons e s, a, b, h => by
      simp only [ArgumentList.print, List.nil_append, List.append_assoc] at h
      exact absurd h.symm (e.print_ne (.inl rfl) _ _)
  | .cons e s, .nil, a, b, h => by
      simp only [ArgumentList.print, List.nil_append, List.append_assoc] at h
      exact absurd h (e.print_ne (.inl rfl) _ _)
  | .cons e s, .cons e' s', a, b, h => by
      obtain ⟨m, ms, hm, hend⟩ := s.printMore_endsExpression a
      obtain ⟨m', ms', hm', hend'⟩ := s'.printMore_endsExpression b
      simp only [ArgumentList.print, List.append_assoc, hm, hm'] at h
      obtain ⟨rfl, h₁⟩ := e.print_cancel e' hend hend' h
      rw [← hm, ← hm'] at h₁
      obtain ⟨rfl, h₂⟩ := s.printMore_cancel s' h₁
      exact ⟨rfl, h₂⟩

theorem ArgumentList.printMore_cancel : ∀ (s s' : ArgumentList) {a b : List Lexeme},
    s.printMore ++ mark ')' :: a = s'.printMore ++ mark ')' :: b → s = s' ∧ a = b
  | .nil, .nil, a, b, h => ⟨rfl, by simpa [ArgumentList.printMore] using h⟩
  | .nil, .cons e s, a, b, h => by simp [ArgumentList.printMore] at h
  | .cons e s, .nil, a, b, h => by simp [ArgumentList.printMore] at h
  | .cons e s, .cons e' s', a, b, h => by
      obtain ⟨m, ms, hm, hend⟩ := s.printMore_endsExpression a
      obtain ⟨m', ms', hm', hend'⟩ := s'.printMore_endsExpression b
      simp only [ArgumentList.printMore, List.cons_append, List.nil_append, List.append_assoc,
        List.cons.injEq, true_and, hm, hm'] at h
      obtain ⟨rfl, h₁⟩ := e.print_cancel e' hend hend' h
      rw [← hm, ← hm'] at h₁
      obtain ⟨rfl, h₂⟩ := s.printMore_cancel s' h₁
      exact ⟨rfl, h₂⟩
end

/-! ## Statements -/

/-- Expressions up to the symbol that closes them. -/
theorem Expression.cancel_mark {e e' : Expression} {c : Char} {a b : List Lexeme}
    (hc : c ∈ [')', ']', ';', ',']) (h : e.print ++ mark c :: a = e'.print ++ mark c :: b) :
    e = e' ∧ a = b := by
  have hends := endsExpression_mark hc
  obtain ⟨rfl, h₁⟩ := e.print_cancel e' hends hends h
  exact ⟨rfl, (List.cons.inj h₁).2⟩

theorem printCondition_cancel {e e' : Expression} {a b : List Lexeme}
    (h : printCondition e ++ a = printCondition e' ++ b) : e = e' ∧ a = b := by
  simp only [printCondition, List.cons_append, List.nil_append, List.append_assoc,
    List.cons.injEq, true_and] at h
  exact Expression.cancel_mark (by simp) h

theorem printCall_cancel {f f' : CallName} {s s' : ArgumentList} {a b : List Lexeme}
    (h : printCall f s ++ a = printCall f' s' ++ b) : f = f' ∧ s = s' ∧ a = b := by
  simp only [printCall, List.append_assoc, List.cons_append, List.nil_append] at h
  obtain ⟨rfl, h₁⟩ := CallName.print_cancel h
  obtain ⟨rfl, h₂⟩ := s.print_cancel s' h₁
  exact ⟨rfl, rfl, h₂⟩

/-- A statement begins with one of five words. -/
theorem Statement.print_head (s : Statement) : ∃ w tail,
    s.print = word w :: tail ∧ w ∈ ["let", "if", "while", "do", "return"] := by
  cases s <;> exact ⟨_, _, by simp [Statement.print]; exact ⟨rfl, rfl⟩, by simp⟩

mutual
theorem Statement.print_cancel : ∀ (s s' : Statement) {l l' : Lexeme} {ls ls' : List Lexeme},
    EndsStatement l → EndsStatement l' → s.print ++ l :: ls = s'.print ++ l' :: ls' →
      s = s' ∧ l :: ls = l' :: ls'
  | .letVar x e, s', l, l', ls, ls', hl, hl', h => by
      cases s' with
      | letVar x' e' =>
          simp only [Statement.print, List.cons_append, List.nil_append, List.append_assoc,
            List.cons.injEq, true_and, lexeme_inj] at h
          obtain ⟨rfl, h₁⟩ := h
          obtain ⟨rfl, h₂⟩ := Expression.cancel_mark (by simp) h₁
          exact ⟨rfl, h₂⟩
      | _ => simp [Statement.print] at h
  | .letElement x i e, s', l, l', ls, ls', hl, hl', h => by
      cases s' with
      | letElement x' i' e' =>
          simp only [Statement.print, List.cons_append, List.nil_append, List.append_assoc,
            List.cons.injEq, true_and, lexeme_inj] at h
          obtain ⟨rfl, h₁⟩ := h
          obtain ⟨rfl, h₂⟩ := Expression.cancel_mark (by simp) h₁
          simp only [List.cons.injEq, true_and] at h₂
          obtain ⟨rfl, h₃⟩ := Expression.cancel_mark (by simp) h₂
          exact ⟨rfl, h₃⟩
      | _ => simp [Statement.print] at h
  | .ifThen c b, s', l, l', ls, ls', hl, hl', h => by
      cases s' with
      | ifThen c' b' =>
          simp only [Statement.print, List.cons_append, List.nil_append, List.append_assoc,
            List.cons.injEq, true_and] at h
          obtain ⟨rfl, h₁⟩ := printCondition_cancel h
          simp only [List.cons.injEq, true_and] at h₁
          obtain ⟨rfl, h₂⟩ := b.print_cancel b' h₁
          exact ⟨rfl, h₂⟩
      | ifElse c' b' d' =>
          simp only [Statement.print, List.cons_append, List.nil_append, List.append_assoc,
            List.cons.injEq, true_and] at h
          obtain ⟨rfl, h₁⟩ := printCondition_cancel h
          simp only [List.cons.injEq, true_and] at h₁
          obtain ⟨rfl, h₂⟩ := b.print_cancel b' h₁
          -- an `else` would have gone on with the first statement
          simp only [List.cons.injEq] at h₂
          obtain ⟨rfl, -⟩ := h₂
          simp [EndsStatement] at hl
      | _ => simp [Statement.print] at h
  | .ifElse c b d, s', l, l', ls, ls', hl, hl', h => by
      cases s' with
      | ifThen c' b' =>
          simp only [Statement.print, List.cons_append, List.nil_append, List.append_assoc,
            List.cons.injEq, true_and] at h
          obtain ⟨rfl, h₁⟩ := printCondition_cancel h
          simp only [List.cons.injEq, true_and] at h₁
          obtain ⟨rfl, h₂⟩ := b.print_cancel b' h₁
          simp only [List.cons.injEq] at h₂
          obtain ⟨rfl, -⟩ := h₂
          simp [EndsStatement] at hl'
      | ifElse c' b' d' =>
          simp only [Statement.print, List.cons_append, List.nil_append, List.append_assoc,
            List.cons.injEq, true_and] at h
          obtain ⟨rfl, h₁⟩ := printCondition_cancel h
          simp only [List.cons.injEq, true_and] at h₁
          obtain ⟨rfl, h₂⟩ := b.print_cancel b' h₁
          simp only [List.cons.injEq, true_and] at h₂
          obtain ⟨rfl, h₃⟩ := d.print_cancel d' h₂
          exact ⟨rfl, h₃⟩
      | _ => simp [Statement.print] at h
  | .whileDo c b, s', l, l', ls, ls', hl, hl', h => by
      cases s' with
      | whileDo c' b' =>
          simp only [Statement.print, List.cons_append, List.nil_append, List.append_assoc,
            List.cons.injEq, true_and] at h
          obtain ⟨rfl, h₁⟩ := printCondition_cancel h
          simp only [List.cons.injEq, true_and] at h₁
          obtain ⟨rfl, h₂⟩ := b.print_cancel b' h₁
          exact ⟨rfl, h₂⟩
      | _ => simp [Statement.print] at h
  | .doCall f args, s', l, l', ls, ls', hl, hl', h => by
      cases s' with
      | doCall f' args' =>
          simp only [Statement.print, List.cons_append, List.nil_append, List.append_assoc,
            List.cons.injEq, true_and] at h
          obtain ⟨rfl, rfl, h₁⟩ := printCall_cancel h
          exact ⟨rfl, (List.cons.inj h₁).2⟩
      | _ => simp [Statement.print] at h
  | .returnNothing, s', l, l', ls, ls', hl, hl', h => by
      cases s' with
      | returnNothing => exact ⟨rfl, by simpa [Statement.print] using h⟩
      | returnValue e =>
          simp only [Statement.print, List.cons_append, List.nil_append, List.append_assoc,
            List.cons.injEq, true_and] at h
          exact absurd h.symm (e.print_ne (.inr rfl) _ _)
      | _ => simp [Statement.print] at h
  | .returnValue e, s', l, l', ls, ls', hl, hl', h => by
      cases s' with
      | returnNothing =>
          simp only [Statement.print, List.cons_append, List.nil_append, List.append_assoc,
            List.cons.injEq, true_and] at h
          exact absurd h (e.print_ne (.inr rfl) _ _)
      | returnValue e' =>
          simp only [Statement.print, List.cons_append, List.nil_append, List.append_assoc,
            List.cons.injEq, true_and] at h
          obtain ⟨rfl, h₁⟩ := Expression.cancel_mark (by simp) h
          exact ⟨rfl, h₁⟩
      | _ => simp [Statement.print] at h

theorem StatementList.print_cancel : ∀ (s s' : StatementList) {a b : List Lexeme},
    s.print ++ mark '}' :: a = s'.print ++ mark '}' :: b → s = s' ∧ a = b
  | .nil, .nil, a, b, h => ⟨rfl, by simpa [StatementList.print] using h⟩
  | .nil, .cons s ss, a, b, h => by
      obtain ⟨w, tail, hprint, -⟩ := s.print_head
      simp [StatementList.print, hprint] at h
  | .cons s ss, .nil, a, b, h => by
      obtain ⟨w, tail, hprint, -⟩ := s.print_head
      simp [StatementList.print, hprint] at h
  | .cons s ss, .cons s' ss', a, b, h => by
      obtain ⟨m, ms, hm, hend⟩ := ss.print_endsStatement a
      obtain ⟨m', ms', hm', hend'⟩ := ss'.print_endsStatement b
      simp only [StatementList.print, List.append_assoc, hm, hm'] at h
      obtain ⟨rfl, h₁⟩ := s.print_cancel s' hend hend' h
      rw [← hm, ← hm'] at h₁
      obtain ⟨rfl, h₂⟩ := ss.print_cancel ss' h₁
      exact ⟨rfl, h₂⟩
end

/-! ## Declarations and classes -/

theorem names_cancel : ∀ {xs ys : List Identifier} {a b : List Lexeme},
    xs.flatMap (fun x => [mark ',', x.lexeme]) ++ mark ';' :: a =
      ys.flatMap (fun x => [mark ',', x.lexeme]) ++ mark ';' :: b → xs = ys ∧ a = b
  | [], [], a, b, h => ⟨rfl, by simpa using h⟩
  | [], y :: ys, a, b, h => by simp at h
  | x :: xs, [], a, b, h => by simp at h
  | x :: xs, y :: ys, a, b, h => by
      simp only [List.flatMap_cons, List.cons_append, List.nil_append, List.cons.injEq, true_and,
        lexeme_inj] at h
      obtain ⟨rfl, h₁⟩ := h
      obtain ⟨rfl, h₂⟩ := names_cancel h₁
      exact ⟨rfl, h₂⟩

theorem VarDec.print_cancel {d d' : VarDec} {a b : List Lexeme}
    (h : d.print ++ a = d'.print ++ b) : d = d' ∧ a = b := by
  obtain ⟨type, first, more⟩ := d
  obtain ⟨type', first', more'⟩ := d'
  simp only [VarDec.print, List.cons_append, List.nil_append, List.append_assoc, List.cons.injEq,
    lexeme_inj] at h
  obtain ⟨ht, rfl, h₁⟩ := h
  obtain rfl := typeLexeme_inj ht
  obtain ⟨rfl, h₂⟩ := names_cancel h₁
  exact ⟨rfl, h₂⟩

theorem parameters_cancel : ∀ {ps qs : List Parameter} {a b : List Lexeme},
    ps.flatMap (fun p => mark ',' :: p.print) ++ mark ')' :: a =
      qs.flatMap (fun p => mark ',' :: p.print) ++ mark ')' :: b → ps = qs ∧ a = b
  | [], [], a, b, h => ⟨rfl, by simpa using h⟩
  | [], q :: qs, a, b, h => by simp at h
  | p :: ps, [], a, b, h => by simp at h
  | ⟨t, x⟩ :: ps, ⟨t', x'⟩ :: qs, a, b, h => by
      simp only [List.flatMap_cons, Parameter.print, List.cons_append, List.nil_append,
        List.cons.injEq, true_and, lexeme_inj] at h
      obtain ⟨ht, rfl, h₁⟩ := h
      obtain rfl := typeLexeme_inj ht
      obtain ⟨rfl, h₂⟩ := parameters_cancel h₁
      exact ⟨rfl, h₂⟩

theorem printParameters_cancel {ps qs : List Parameter} {a b : List Lexeme}
    (h : printParameters ps ++ mark ')' :: a = printParameters qs ++ mark ')' :: b) :
    ps = qs ∧ a = b := by
  cases ps with
  | nil =>
      cases qs with
      | nil => exact ⟨rfl, by simpa [printParameters] using h⟩
      | cons q qs =>
          simp only [printParameters, Parameter.print, List.nil_append, List.cons_append,
            List.cons.injEq] at h
          exact absurd h.1.symm (typeLexeme_ne_mark _)
  | cons p ps =>
      cases qs with
      | nil =>
          simp only [printParameters, Parameter.print, List.nil_append, List.cons_append,
            List.cons.injEq] at h
          exact absurd h.1 (typeLexeme_ne_mark _)
      | cons q qs =>
          -- with a comma in front, both are lists of further parameters
          refine parameters_cancel ?_
          simp only [List.flatMap_cons, List.cons_append, List.append_assoc, List.cons.injEq,
            true_and]
          simpa [printParameters] using h

/-- No statement declares a variable. -/
theorem StatementList.print_ne_var (s : StatementList) (a b : List Lexeme) :
    s.print ++ mark '}' :: a ≠ word "var" :: b := by
  intro h
  cases s with
  | nil => simp [StatementList.print] at h
  | cons s ss =>
      obtain ⟨w, tail, hprint, hw⟩ := s.print_head
      simp only [StatementList.print, hprint, List.cons_append, List.cons.injEq, word_inj] at h
      obtain ⟨rfl, -⟩ := h
      simp at hw

theorem locals_cancel {ds ds' : List VarDec} {s s' : StatementList} {a b : List Lexeme}
    (h : ds.flatMap (fun d => word "var" :: d.print) ++ (s.print ++ mark '}' :: a) =
      ds'.flatMap (fun d => word "var" :: d.print) ++ (s'.print ++ mark '}' :: b)) :
    ds = ds' ∧ s = s' ∧ a = b := by
  induction ds generalizing ds' with
  | nil =>
      cases ds' with
      | nil => exact ⟨rfl, s.print_cancel s' h⟩
      | cons d' ds' => exact absurd h (StatementList.print_ne_var _ _ _)
  | cons d ds ih =>
      cases ds' with
      | nil => exact absurd h.symm (StatementList.print_ne_var _ _ _)
      | cons d' ds' =>
          simp only [List.flatMap_cons, List.cons_append, List.append_assoc, List.cons.injEq,
            true_and] at h
          obtain ⟨rfl, h₁⟩ := VarDec.print_cancel h
          obtain ⟨rfl, h₂⟩ := ih h₁
          exact ⟨rfl, h₂⟩

theorem kindWord_inj {k k' : SubroutineKind} (h : kindWord k = kindWord k') : k = k' := by
  cases k <;> cases k' <;> simp_all [kindWord]

theorem printResult_inj {r r' : Option VarType} (h : printResult r = printResult r') : r = r' := by
  cases r with
  | none =>
      cases r' with
      | none => rfl
      | some t => exact absurd h.symm (typeLexeme_ne_void t)
  | some t =>
      cases r' with
      | none => exact absurd h (typeLexeme_ne_void t)
      | some t' => exact congrArg some (typeLexeme_inj h)

theorem Subroutine.print_cancel {s s' : Subroutine} {a b : List Lexeme}
    (h : s.print ++ a = s'.print ++ b) : s = s' ∧ a = b := by
  obtain ⟨kind, result, name, parameters, locals, body⟩ := s
  obtain ⟨kind', result', name', parameters', locals', body'⟩ := s'
  simp only [Subroutine.print, List.cons_append, List.nil_append, List.append_assoc,
    List.cons.injEq, word_inj, lexeme_inj, true_and] at h
  obtain ⟨hk, hr, rfl, h₁⟩ := h
  obtain rfl := kindWord_inj hk
  obtain rfl := printResult_inj hr
  obtain ⟨rfl, h₂⟩ := printParameters_cancel h₁
  simp only [List.cons.injEq, true_and] at h₂
  obtain ⟨rfl, rfl, h₃⟩ := locals_cancel h₂
  exact ⟨rfl, h₃⟩

theorem subroutines_cancel : ∀ {ss ss' : List Subroutine} {a b : List Lexeme},
    ss.flatMap Subroutine.print ++ mark '}' :: a =
      ss'.flatMap Subroutine.print ++ mark '}' :: b → ss = ss' ∧ a = b
  | [], [], a, b, h => ⟨rfl, by simpa using h⟩
  | [], s' :: ss', a, b, h => by simp [Subroutine.print] at h
  | s :: ss, [], a, b, h => by simp [Subroutine.print] at h
  | s :: ss, s' :: ss', a, b, h => by
      simp only [List.flatMap_cons, List.append_assoc] at h
      obtain ⟨rfl, h₁⟩ := Subroutine.print_cancel h
      obtain ⟨rfl, h₂⟩ := subroutines_cancel h₁
      exact ⟨rfl, h₂⟩

/-- No subroutine begins like the variables of a class. -/
theorem subroutines_ne_storage (ss : List Subroutine) (v : ClassVarDec) (a b : List Lexeme) :
    ss.flatMap Subroutine.print ++ mark '}' :: a ≠ word v.storage.name :: b := by
  intro h
  cases ss with
  | nil => simp at h
  | cons s ss =>
      simp only [List.flatMap_cons, Subroutine.print, List.cons_append, List.cons.injEq,
        word_inj] at h
      cases hk : s.kind <;> cases v <;>
        simp [hk, kindWord, ClassVarDec.storage, Storage.name] at h

theorem members_cancel {vs vs' : List ClassVarDec} {ss ss' : List Subroutine} {a b : List Lexeme}
    (h : vs.flatMap ClassVarDec.print ++ (ss.flatMap Subroutine.print ++ mark '}' :: a) =
      vs'.flatMap ClassVarDec.print ++ (ss'.flatMap Subroutine.print ++ mark '}' :: b)) :
    vs = vs' ∧ ss = ss' ∧ a = b := by
  induction vs generalizing vs' with
  | nil =>
      cases vs' with
      | nil => exact ⟨rfl, subroutines_cancel h⟩
      | cons v' vs' => exact absurd h (subroutines_ne_storage _ _ _ _)
  | cons v vs ih =>
      cases vs' with
      | nil => exact absurd h.symm (subroutines_ne_storage _ _ _ _)
      | cons v' vs' =>
          simp only [List.flatMap_cons, ClassVarDec.print, List.cons_append, List.append_assoc,
            List.cons.injEq, word_inj] at h
          obtain ⟨hstorage, h₁⟩ := h
          obtain ⟨hdec, h₂⟩ := VarDec.print_cancel h₁
          obtain ⟨rfl, h₃⟩ := ih h₂
          refine ⟨?_, h₃⟩
          cases v <;> cases v' <;>
            simp_all [ClassVarDec.storage, ClassVarDec.dec, Storage.name]

/-- Classes with the same printed form are equal. -/
theorem Class.print_injective {c c' : Class} (h : c.print = c'.print) : c = c' := by
  obtain ⟨name, vs, ss⟩ := c
  obtain ⟨name', vs', ss'⟩ := c'
  simp only [Class.print, List.cons_append, List.nil_append, List.append_assoc, List.cons.injEq,
    true_and, lexeme_inj] at h
  obtain ⟨rfl, h₁⟩ := h
  obtain ⟨rfl, rfl, -⟩ := members_cancel h₁
  rfl

end JackVm.Tree
