import JackVm.Proofs.Recording

/-!
# The events of a valid class stand for its code

The events of each part of a class can be performed exactly when the part obeys
the rules, and what they stand for is its code. Main statement: so it is for a
class (`Class.stands`).

The compiler counts labels in 32-bit words. The statements here hold whether or not
the count wraps, with labels named after the wrapped numbers.
-/

namespace JackVm

open JackVm.Tree

/-! ## Names -/

/-- A scope knows what an environment says. -/
structure Scope.Models (s : Scope) (env : Env) : Prop where
  className : s.className = env.className
  subroutine : s.subroutine = env.subroutine
  kind : s.kind = env.kind
  returnsVoid : s.returnsVoid = env.returnsVoid
  get? : ∀ x, s.table.get? x = (env.find? x).map Slot.variable

/-- The name of a label whose number is a machine word. -/
def Tree.Env.wordLabel (env : Env) (tag : Tag) (n : Nat) : String :=
  env.label tag (UInt32.ofNat n).toNat

theorem segment_eq_home (st : Storage) : st.segment = home st := by
  cases st <;> rfl

/-- The primitive types, as texts and as types. A class is never named like one. -/
theorem isPrimitive_text (t : VarType) :
    isPrimitive t.text = true ↔ t ∈ [VarType.int, .char, .boolean] := by
  cases t with
  | object c =>
      have hc := c.unreserved
      simp only [keywords, List.mem_cons, not_or] at hc
      simp [isPrimitive, VarType.text, hc]
  | _ => decide

namespace Scope.Models

variable {t : Target} {s : Scope} {env : Env}

theorem hasObject_iff (h : s.Models env) : s.hasObject = true ↔ env.HasObject := by
  simp [hasObject, Env.HasObject, h.kind]

/-- Only the labels change inside a subroutine, and no name depends on them. -/
theorem withLabels (h : s.Models env) (labels : UInt32) (opened : List UInt32) :
    Models { s with labels := labels, opened := opened } env :=
  ⟨h.className, h.subroutine, h.kind, h.returnsVoid, h.get?⟩

theorem label_eq (h : s.Models env) (tag : Tag) (n : Nat) :
    s.label tag.text (UInt32.ofNat n) = env.wordLabel tag n := by
  simp only [Scope.label, Scope.qualify, Env.wordLabel, Env.label, h.className, h.subroutine]

/-- The scope turns down a field exactly where the rules do. -/
theorem turned_down_iff (h : s.Models env) (v : Slot) :
    (v.variable.storage = .field ∧ ¬s.hasObject = true) ↔ ¬env.Admits v := by
  rw [h.hasObject_iff, Env.Admits, Classical.not_imp]
  rfl

theorem lookup_of_uses (h : s.Models env) {x : String} {v : Slot} (hv : env.find? x = some v)
    (hadmits : env.Admits v) : s.lookup x = .ok v.variable := by
  have hfield := mt (h.turned_down_iff v).mp (not_not_intro hadmits)
  simp only [Scope.lookup, h.get?, hv, Option.map_some, if_neg hfield]

theorem lookup_of_not_uses (h : s.Models env) {x : Identifier} (hx : ¬env.Uses x) :
    ∃ err, s.lookup x.text = .error err := by
  cases hv : env.find? x.text with
  | none => exact ⟨_, by simp only [Scope.lookup, h.get?, hv, Option.map_none]; rfl⟩
  | some v =>
      have hadmits : ¬env.Admits v := fun hv' => hx ⟨v, hv, hv'⟩
      have hfield := (h.turned_down_iff v).mpr hadmits
      exact ⟨_, by simp only [Scope.lookup, h.get?, hv, Option.map_some, if_pos hfield]; rfl⟩

/-- An event that uses a variable. -/
theorem stands_lookup (h : s.Models env) (x : Identifier) {e : Event}
    {c : Variable → List Instruction} {code : List Instruction}
    (he : s.perform t e = (s.lookup x.text).map fun v => (s, c v))
    (hcode : ∀ v, env.find? x.text = some v → c v.variable = code) :
    Stands t s [e] (env.Uses x) s code := by
  apply Stands.checked
  · rintro ⟨v, hv, hadmits⟩
    rw [he, h.lookup_of_uses hv hadmits, ← hcode v hv]
    rfl
  · intro hx
    obtain ⟨err, herr⟩ := h.lookup_of_not_uses hx
    exact ⟨err, by rw [he, herr]; rfl⟩

theorem stands_target (h : s.Models env) (x : Identifier) :
    Stands t s [.target x.text] (env.Uses x) s [] :=
  h.stands_lookup x rfl fun _ _ => rfl

theorem stands_load (h : s.Models env) (x : Identifier) :
    Stands t s [.load x.text] (env.Uses x) s (env.load x.text) := by
  refine h.stands_lookup (c := fun v => [.push v.storage.segment v.index]) x rfl ?_
  intro v hv
  simp only [Env.load, hv, Slot.variable, segment_eq_home]

theorem stands_store (h : s.Models env) (x : Identifier) :
    Stands t s [.store x.text] (env.Uses x) s (env.store x.text) := by
  refine h.stands_lookup (c := fun v => [.pop v.storage.segment v.index]) x rfl ?_
  intro v hv
  simp only [Env.store, hv, Slot.variable, segment_eq_home]

/-! ## Calls -/

/-- A callable name is resolved to the full name and the object to pass on. -/
theorem resolve_of_calls (h : s.Models env) {f : CallName} (hf : env.Calls f) :
    ∃ r, s.resolve f.callee = .ok r ∧ r.name = env.callee f ∧
      (match r.receiver with
        | some (segment, index) => [Instruction.push segment index]
        | none => []) = env.receiver f ∧
      env.receivers f = if r.receiver.isSome then 1 else 0 := by
  cases f with
  | bare f =>
      have ho := h.hasObject_iff.mpr hf
      refine ⟨⟨s.qualify f.text, some (.pointer, 0)⟩, ?_, ?_, rfl, rfl⟩
      · simp [CallName.callee, Scope.resolve, ho]
      · simp only [Scope.qualify, Env.callee, h.className]
  | dotted r f =>
      cases hv : env.find? r.text with
      | none =>
          refine ⟨⟨r.text ++ "." ++ f.text, none⟩, ?_, ?_, ?_, ?_⟩
          · simp only [CallName.callee, Scope.resolve, h.get?, hv, Option.map_none]
          · simp only [Env.callee, hv]
          · simp only [Env.receiver, Env.load, hv]
          · simp [Env.receivers, hv]
      | some v =>
          obtain ⟨hprim, hadmits⟩ := hf v hv
          have hprim' : ¬isPrimitive v.variable.type = true :=
            fun hp => hprim ((isPrimitive_text v.type).mp hp)
          have hfield := mt (h.turned_down_iff v).mp (not_not_intro hadmits)
          refine ⟨⟨v.type.text ++ "." ++ f.text, some (home v.storage, UInt32.ofNat v.index)⟩,
            ?_, ?_, ?_, ?_⟩
          · simp only [CallName.callee, Scope.resolve, h.get?, hv, Option.map_some, if_neg hprim',
              if_neg hfield]
            simp only [Slot.variable, segment_eq_home]
          · simp only [Env.callee, hv]
          · simp only [Env.receiver, Env.load, hv]
          · simp [Env.receivers, hv]

theorem resolve_of_not_calls (h : s.Models env) {f : CallName} (hf : ¬env.Calls f) :
    ∃ err, s.resolve f.callee = .error err := by
  cases f with
  | bare f =>
      have ho : ¬s.hasObject = true := fun ho => hf (h.hasObject_iff.mp ho)
      exact ⟨_, by simp only [CallName.callee, Scope.resolve, if_neg ho]; rfl⟩
  | dotted r f =>
      cases hv : env.find? r.text with
      | none => simp [Env.Calls, hv] at hf
      | some v =>
          by_cases hprim : isPrimitive v.variable.type = true
          · exact ⟨_, by
              simp only [CallName.callee, Scope.resolve, h.get?, hv, Option.map_some,
                if_pos hprim]
              rfl⟩
          · have hadmits : ¬env.Admits v := by
              intro hadmits
              apply hf
              intro w hw
              rw [hv, Option.some.injEq] at hw
              subst hw
              exact ⟨fun hp => hprim ((isPrimitive_text v.type).mpr hp), hadmits⟩
            have hfield := (h.turned_down_iff v).mpr hadmits
            exact ⟨_, by
              simp only [CallName.callee, Scope.resolve, h.get?, hv, Option.map_some,
                if_neg hprim, if_pos hfield]
              rfl⟩

/-- An event that uses a callee. -/
theorem stands_resolve (h : s.Models env) (f : CallName) {e : Event}
    {c : Resolved → List Instruction} {code : List Instruction}
    (he : s.perform t e = (s.resolve f.callee).map fun r => (s, c r))
    (hcode : ∀ r : Resolved, r.name = env.callee f →
      (match r.receiver with
        | some (segment, index) => [Instruction.push segment index]
        | none => []) = env.receiver f →
      env.receivers f = (if r.receiver.isSome then 1 else 0) → c r = code) :
    Stands t s [e] (env.Calls f) s code := by
  apply Stands.checked
  · intro hf
    obtain ⟨r, hr, hname, hreceiver, hcount⟩ := h.resolve_of_calls hf
    rw [he, hr, ← hcode r hname hreceiver hcount]
    rfl
  · intro hf
    obtain ⟨err, herr⟩ := h.resolve_of_not_calls hf
    exact ⟨err, by rw [he, herr]; rfl⟩

/-- What comes before the arguments of a call. -/
theorem stands_receive (h : s.Models env) (f : CallName) :
    Stands t s (f.events ++ [.receive f.callee]) (env.Calls f) s (env.receiver f) := by
  have hreceive : Stands t s [.receive f.callee] (env.Calls f) s (env.receiver f) :=
    h.stands_resolve f rfl fun _ _ hreceiver _ => hreceiver
  cases f with
  | bare f => exact hreceive
  | dotted r f =>
      have hresolve : Stands t s [.resolve (.dotted r.text f.text)]
          (env.Calls (.dotted r f)) s [] :=
        h.stands_resolve (.dotted r f) rfl fun _ _ _ _ => rfl
      exact (hresolve.append fun _ => hreceive).congr (and_self_iff ..)

theorem stands_call (h : s.Models env) (f : CallName) (n : Nat) :
    Stands t s [.call f.callee (UInt32.ofNat n)] (env.Calls f) s
      [.call (env.callee f) (UInt32.ofNat (env.receivers f + n))] := by
  refine h.stands_resolve (c := fun r =>
    [.call r.name (if r.receiver.isSome then UInt32.ofNat n + 1 else UInt32.ofNat n)]) f rfl ?_
  intro r hname _ hcount
  rw [hname, hcount]
  cases r.receiver with
  | none => simp
  | some _ => simp [Nat.add_comm 1, UInt32.ofNat_add]

end Scope.Models

/-! ## Expressions -/

theorem readWord?_numeral (n : Numeral) :
    Text.readWord? n.text = some (UInt32.ofNat n.value) := by
  have hplus : Text.dropPlus n.text.toList = n.text.toList := by
    have hdigits := n.digits
    unfold Text.dropPlus
    split
    · next cs hcs => simp [Text.isDigits, hcs, Char.isDigit] at hdigits
    · rfl
  have hrange : Text.digitsValue n.text.toList < UInt32.size := by
    have hmax := n.inRange
    simp only [maxInteger] at hmax
    have hsize : UInt32.size = 4294967296 := rfl
    omega
  simp only [Text.readWord?, hplus, n.digits, hrange, decide_true, Bool.and_true, if_true]
  rfl

theorem stringCode_eq (r : Runtime) (text : String) : stringCode r text = textCode r text := by
  have hchar : ∀ c : Char, UInt32.ofNat c.toNat = c.val := fun c => UInt32.ofNat_toNat
  simp only [stringCode, textCode, hchar, Runtime.newString, Runtime.appendChar]

section
variable {t : Target} {s : Scope} {env : Env}

theorem stands_unary (op : UnaryOp) : Stands t s [.unary op] True s [unaryCommand op] := by
  cases op <;> exact .always rfl

theorem stands_binary (op : BinaryOp) :
    Stands t s [.binary op] True s [binaryCommand t.runtime op] := by
  cases op <;> exact .always rfl

theorem stands_constant (h : s.Models env) (c : KeywordConstant) :
    Stands t s [.constant c] (c = .self → env.HasObject) s (constantCode c) := by
  cases c with
  | self =>
      apply Stands.checked
      · intro ho
        simp only [Scope.perform, if_pos (h.hasObject_iff.mpr (ho rfl)), constantCode]
      · intro ho
        have hno : ¬s.hasObject = true := fun hs => ho fun _ => h.hasObject_iff.mp hs
        exact ⟨_, by simp only [Scope.perform, if_neg hno]; rfl⟩
  | truth => exact (Stands.always rfl).congr (by simp)
  | falsity => exact (Stands.always rfl).congr (by simp)
  | null => exact (Stands.always rfl).congr (by simp)

mutual
theorem Tree.Term.stands (h : s.Models env) : ∀ e : Term,
    Stands t s e.events (e.Valid env) s (e.code env t.runtime)
  | .integer n => .always (by simp only [Scope.perform, readWord?_numeral, Term.code])
  | .string text => .always (by simp only [Scope.perform, stringCode_eq, Term.code])
  | .constant c => stands_constant h c
  | .var x => h.stands_load x
  | .element x i => by
      have hbase := (h.stands_load (t := t) x).append fun _ => Expression.stands h i
      have hall := hbase.append fun _ => Stands.always (e := .fetch) rfl
      exact hall.congr (by simp [Term.Valid])
  | .call f args => by
      have hargs := (h.stands_receive (t := t) f).append fun _ => ArgumentList.stands h args
      -- the callee is looked up before the arguments and after them
      have hall := hargs.append fun _ => h.stands_call f args.length
      refine Stands.congr hall ?_
      constructor
      · rintro ⟨⟨hf, hargs⟩, -⟩
        exact ⟨hf, hargs⟩
      · rintro ⟨hf, hargs⟩
        exact ⟨⟨hf, hargs⟩, hf⟩
  | .group e => Expression.stands h e
  | .unary op e => by
      have hall := (Term.stands h e).append fun _ => stands_unary (t := t) op
      exact hall.congr (by simp [Term.Valid])
theorem Tree.Expression.stands (h : s.Models env) : ∀ e : Expression,
    Stands t s e.events (e.Valid env) s (e.code env t.runtime)
  | .mk first rest => (Term.stands h first).append fun _ => Operations.stands h rest
theorem Tree.Operations.stands (h : s.Models env) : ∀ e : Operations,
    Stands t s e.events (e.Valid env) s (e.code env t.runtime)
  | .nil => .nil
  | .cons op e rest => by
      have hop := (Term.stands h e).append fun _ => stands_binary (t := t) op
      have hall := hop.append fun _ => Operations.stands h rest
      exact hall.congr (by simp [Operations.Valid])
theorem Tree.ArgumentList.stands (h : s.Models env) : ∀ e : ArgumentList,
    Stands t s e.events (e.Valid env) s (e.code env t.runtime)
  | .nil => .nil
  | .cons e rest => (Expression.stands h e).append fun _ => ArgumentList.stands h rest
end

end

/-! ## Statements -/

/-- The scope after so many labels were drawn and their constructs were closed. -/
def Scope.draw (s : Scope) (n : Nat) : Scope := { s with labels := s.labels + UInt32.ofNat n }

section
variable {s : Scope} {k n n' : Nat}

@[simp] theorem Scope.draw_zero : s.draw 0 = s := by
  simp [Scope.draw]

theorem Scope.draw_draw : (s.draw n).draw n' = s.draw (n + n') := by
  simp [Scope.draw, UInt32.ofNat_add, UInt32.add_assoc]

theorem Scope.labels_draw (hk : s.labels = UInt32.ofNat k) :
    (s.draw n).labels = UInt32.ofNat (k + n) := by
  simp [Scope.draw, hk, UInt32.ofNat_add]

theorem Scope.labels_openConstruct (hk : s.labels = UInt32.ofNat k) :
    s.openConstruct.labels = UInt32.ofNat (k + 2) := by
  simp [Scope.openConstruct, hk, UInt32.ofNat_add]

/-- Inside a construct, its first label is the one next to be drawn when it began. -/
theorem Scope.innermost_draw (hk : s.labels = UInt32.ofNat k) :
    (s.openConstruct.draw n).innermost = UInt32.ofNat k := hk

theorem Scope.closeConstruct_draw : (s.openConstruct.draw n).closeConstruct = s.draw (2 + n) := by
  simp [Scope.openConstruct, Scope.draw, Scope.closeConstruct, UInt32.ofNat_add, UInt32.add_assoc]

end

section
variable {t : Target} {s : Scope} {env : Env} {k : Nat}

theorem Scope.Models.draw (h : s.Models env) (n : Nat) : (s.draw n).Models env :=
  h.withLabels _ _

theorem Scope.Models.openConstruct (h : s.Models env) : s.openConstruct.Models env :=
  h.withLabels _ _

theorem ofNat_add_one : UInt32.ofNat k + 1 = UInt32.ofNat (k + 1) := by
  simp [UInt32.ofNat_add]

theorem stands_ifTest (h : s.Models env) (hk : s.innermost = UInt32.ofNat k) :
    Stands t s [.ifTest] True s [.command .not, .ifGoto (env.wordLabel .ifFalse k)] := by
  refine .written rfl ?_
  rw [hk, ← h.label_eq]
  rfl

theorem stands_ifElse (h : s.Models env) (hk : s.innermost = UInt32.ofNat k) :
    Stands t s [.ifElse] True s
      [.goto (env.wordLabel .ifEnd (k + 1)), .label (env.wordLabel .ifFalse k)] := by
  refine .written rfl ?_
  rw [hk, ofNat_add_one, ← h.label_eq, ← h.label_eq]
  rfl

theorem stands_ifEnd (h : s.Models env) (hk : s.innermost = UInt32.ofNat k) :
    Stands t s [.ifEnd] True s.closeConstruct [.label (env.wordLabel .ifEnd (k + 1))] := by
  refine .written rfl ?_
  rw [hk, ofNat_add_one, ← h.label_eq]
  rfl

theorem stands_whileBegin (h : s.Models env) (hk : s.labels = UInt32.ofNat k) :
    Stands t s [.whileBegin] True s.openConstruct [.label (env.wordLabel .whileExp k)] := by
  refine .written rfl ?_
  rw [hk, ← h.label_eq]
  rfl

theorem stands_whileTest (h : s.Models env) (hk : s.innermost = UInt32.ofNat k) :
    Stands t s [.whileTest] True s
      [.command .not, .ifGoto (env.wordLabel .whileEnd (k + 1))] := by
  refine .written rfl ?_
  rw [hk, ofNat_add_one, ← h.label_eq]
  rfl

theorem stands_whileEnd (h : s.Models env) (hk : s.innermost = UInt32.ofNat k) :
    Stands t s [.whileEnd] True s.closeConstruct
      [.goto (env.wordLabel .whileExp k), .label (env.wordLabel .whileEnd (k + 1))] := by
  refine .written rfl ?_
  rw [hk, ofNat_add_one, ← h.label_eq, ← h.label_eq]
  rfl

theorem stands_returnNothing (h : s.Models env) :
    Stands t s [.returnNothing] (env.returnsVoid = true) s [.push .constant 0, .ret] := by
  apply Stands.checked
  · intro hv
    simp only [Scope.perform, h.returnsVoid, hv, if_true]
  · intro hv
    exact ⟨_, by simp only [Scope.perform, h.returnsVoid, if_neg hv]; rfl⟩

theorem stands_returnValue (h : s.Models env) :
    Stands t s [.returnValue] (env.returnsVoid = false) s [] := by
  apply Stands.checked
  · intro hv
    simp [Scope.perform, h.returnsVoid, hv]
  · intro hv
    exact ⟨_, by simp only [Scope.perform, h.returnsVoid, Bool.not_eq_false _ ▸ hv, if_true]; rfl⟩

mutual
theorem Tree.Statement.stands : ∀ (st : Statement) {s : Scope} {k : Nat}, s.Models env →
    s.labels = UInt32.ofNat k → Stands t s st.events (st.Valid env) (s.draw st.labels)
      (st.code env t.runtime env.wordLabel k)
  | .letVar x e, s, k, h, hk => by
      have he := (h.stands_target (t := t) x).append fun _ => Expression.stands h e
      have hall := he.append fun _ => h.stands_store x
      rw [Statement.labels, Scope.draw_zero]
      refine Stands.congr hall ?_
      constructor
      · rintro ⟨hx, -⟩
        exact hx
      · intro hx
        exact ⟨hx, hx.1⟩
  | .letElement x i e, s, k, h, hk => by
      have hx := (h.stands_target (t := t) x).append fun _ => h.stands_load x
      have hi := hx.append fun _ => Expression.stands h i
      have haddress := hi.append fun _ => Stands.always (e := .address) rfl
      have he := haddress.append fun _ => Expression.stands h e
      have hall := he.append fun _ => Stands.always (e := .storeElement) rfl
      rw [Statement.labels, Scope.draw_zero]
      refine Stands.congr hall ?_
      simp only [Statement.Valid, and_self, and_true, and_assoc]
  | .ifThen c b, s, k, h, hk => by
      have ho := h.openConstruct
      have hbegin := Stands.always (t := t) (s := s) (e := .ifBegin) rfl
      have hcond := hbegin.append fun _ => Expression.stands ho c
      have htest := hcond.append fun _ => stands_ifTest ho hk
      have hb := htest.append fun _ => StatementList.stands b ho (Scope.labels_openConstruct hk)
      have hends := (stands_ifElse (t := t) (ho.draw b.labels) (Scope.innermost_draw hk)).append
        fun _ => stands_ifEnd (ho.draw b.labels) (Scope.innermost_draw hk)
      have hall := hb.append fun _ => hends
      rw [Scope.closeConstruct_draw] at hall
      refine Stands.congr hall ?_
      simp only [Statement.Valid, true_and, and_true]
  | .ifElse c b b', s, k, h, hk => by
      have ho := h.openConstruct
      -- the second block draws its labels after those of the first
      have hk' := Scope.labels_draw (n := b.labels) (Scope.labels_openConstruct hk)
      have hbegin := Stands.always (t := t) (s := s) (e := .ifBegin) rfl
      have hcond := hbegin.append fun _ => Expression.stands ho c
      have htest := hcond.append fun _ => stands_ifTest ho hk
      have hb := htest.append fun _ => StatementList.stands b ho (Scope.labels_openConstruct hk)
      have helse := hb.append fun _ =>
        stands_ifElse (ho.draw b.labels) (Scope.innermost_draw hk)
      have hb' := helse.append fun _ => StatementList.stands b' (ho.draw b.labels) hk'
      rw [Scope.draw_draw] at hb'
      have hall := hb'.append fun _ => stands_ifEnd (ho.draw _) (Scope.innermost_draw hk)
      rw [Scope.closeConstruct_draw, ← Nat.add_assoc] at hall
      refine Stands.congr hall ?_
      simp only [Statement.Valid, true_and, and_true, and_assoc]
  | .whileDo c b, s, k, h, hk => by
      have ho := h.openConstruct
      have hcond := (stands_whileBegin (t := t) h hk).append fun _ => Expression.stands ho c
      have htest := hcond.append fun _ => stands_whileTest ho hk
      have hb := htest.append fun _ => StatementList.stands b ho (Scope.labels_openConstruct hk)
      have hall := hb.append fun _ =>
        stands_whileEnd (ho.draw b.labels) (Scope.innermost_draw hk)
      rw [Scope.closeConstruct_draw] at hall
      refine Stands.congr hall ?_
      simp only [Statement.Valid, true_and, and_true]
  | .doCall f args, s, k, h, hk => by
      have hall := (Term.stands (t := t) h (.call f args)).append fun _ =>
        Stands.always (e := .discard) rfl
      rw [Statement.labels, Scope.draw_zero]
      exact hall.congr (by simp [Statement.Valid, Term.Valid])
  | .returnNothing, s, k, h, hk => by
      rw [Statement.labels, Scope.draw_zero]
      exact stands_returnNothing h
  | .returnValue e, s, k, h, hk => by
      have he := (stands_returnValue (t := t) h).append fun _ => Expression.stands h e
      have hall := he.append fun _ => Stands.always (e := .ret) rfl
      rw [Statement.labels, Scope.draw_zero]
      exact hall.congr (by simp [Statement.Valid])
theorem Tree.StatementList.stands : ∀ (ss : StatementList) {s : Scope} {k : Nat}, s.Models env →
    s.labels = UInt32.ofNat k → Stands t s ss.events (ss.Valid env) (s.draw ss.labels)
      (ss.code env t.runtime env.wordLabel k)
  | .nil, s, k, h, hk => by
      rw [StatementList.labels, Scope.draw_zero]
      exact .nil
  | .cons st rest, s, k, h, hk => by
      rw [StatementList.labels, ← Scope.draw_draw]
      exact (Statement.stands st h hk).append fun _ =>
        StatementList.stands rest (h.draw _) (Scope.labels_draw hk)
end

end

/-! ## Declarations -/

theorem Tree.VarDec.events_eq (storage : Storage) (d : VarDec) :
    d.events storage = (d.decls storage).map Decl.event := by
  simp [VarDec.events, VarDec.decls, Decl.event]

theorem Tree.Class.declEvents_eq (c : Tree.Class) :
    c.classVars.flatMap (fun v => v.dec.events v.storage) = c.decls.map Decl.event := by
  simp [Class.decls, List.map_flatMap, VarDec.events_eq]

theorem Tree.Subroutine.declEvents_eq (s : Subroutine) :
    s.parameters.map Parameter.event ++ s.locals.flatMap (VarDec.events .var) =
      s.decls.map Decl.event := by
  have hparameters : s.parameters.map Parameter.event =
      (s.parameters.map Parameter.decl).map Decl.event := by
    rw [List.map_map]
    rfl
  have hlocals : s.locals.flatMap (VarDec.events .var) =
      (s.locals.flatMap (VarDec.decls .var)).map Decl.event := by
    rw [List.map_flatMap]
    exact congrArg (List.flatMap · s.locals) (funext (VarDec.events_eq .var))
  rw [Subroutine.decls, List.map_append, hparameters, hlocals]

theorem Tree.Class.isOfClass_decls (c : Tree.Class) :
    ∀ d ∈ c.decls, d.storage.isOfClass = true := by
  intro d hd
  simp only [Class.decls, List.mem_flatMap, VarDec.decls, List.mem_map] at hd
  obtain ⟨v, -, x, -, rfl⟩ := hd
  cases v <;> rfl

theorem Tree.Subroutine.isOfClass_decls (s : Subroutine) :
    ∀ d ∈ s.decls, d.storage.isOfClass = false := by
  intro d hd
  simp only [Subroutine.decls, List.mem_append, List.mem_map, List.mem_flatMap, VarDec.decls] at hd
  obtain ⟨p, -, rfl⟩ | ⟨v, -, x, -, rfl⟩ := hd
  · rfl
  · rfl

/-- The current object is called by a reserved word, so no variable has its name. -/
theorem Tree.Subroutine.self_not_mem_decls (s : Subroutine) : "this" ∉ s.decls.map Decl.name := by
  have hself : ∀ x : Identifier, x.text ≠ "this" := by
    intro x hx
    exact x.unreserved (hx ▸ by decide)
  intro h
  simp only [Subroutine.decls, List.mem_map, List.mem_append, List.mem_flatMap, VarDec.decls] at h
  obtain ⟨d, ⟨p, -, rfl⟩ | ⟨v, -, x, -, rfl⟩, hd⟩ := h
  · exact hself _ hd
  · exact hself _ hd

theorem Tree.Subroutine.nodup_receiver (c : Tree.Class) (s : Subroutine) :
    ((s.receiver c ++ s.decls).map Decl.name).Nodup ↔ (s.decls.map Decl.name).Nodup := by
  unfold Subroutine.receiver
  split
  · have hself := s.self_not_mem_decls
    simp only [List.singleton_append, List.map_cons, List.nodup_cons, hself, not_false_eq_true,
      true_and]
  · rfl

/-! ## Subroutines -/

/-- The code of a subroutine whose labels are numbered by machine words. -/
def Tree.Subroutine.wordCode (r : Runtime) (c : Tree.Class) (s : Subroutine) : List Instruction :=
  (c.env s).header r ++ s.body.code (c.env s) r (c.env s).wordLabel 0

/-- A scope between two subroutines of a class. -/
def Scope.Between (c : Tree.Class) (s : Scope) : Prop :=
  s.className = c.name.text ∧ ∃ ss, s.table.Records c.decls ss

section
variable {t : Target} {c : Tree.Class} {s : Scope}

/-- The kind and the result of a subroutine. -/
theorem stands_result (h : s.className = c.name.text) (sub : Subroutine) :
    Stands t s [.result sub.kind (sub.result.map VarType.text)]
      (sub.kind = .constructor → sub.result = some (.object c.name))
      { s with kind := sub.kind, returnsVoid := sub.result.isNone } [] := by
  have hresult : sub.result.map VarType.text = some s.className ↔
      sub.result = some (.object c.name) := by
    rw [h]
    constructor
    · intro htext
      obtain ⟨type, htype, htext⟩ := Option.map_eq_some_iff.mp htext
      cases type with
      | object c' =>
          obtain ⟨text, spelled, unreserved⟩ := c'
          obtain rfl : text = c.name.text := htext
          exact htype
      | int => exact absurd (htext ▸ c.name.unreserved) (by decide)
      | char => exact absurd (htext ▸ c.name.unreserved) (by decide)
      | boolean => exact absurd (htext ▸ c.name.unreserved) (by decide)
    · intro hsome
      rw [hsome]
      rfl
  have hnone : (sub.result.map VarType.text).isNone = sub.result.isNone := by
    cases sub.result <;> rfl
  apply Stands.checked
  · intro hP
    have hno : ¬(sub.kind = .constructor ∧ sub.result.map VarType.text ≠ some s.className) := by
      rintro ⟨hkind, hne⟩
      exact hne (hresult.mpr (hP hkind))
    simp only [Scope.perform, if_neg hno, hnone]
  · intro hP
    have hyes : sub.kind = .constructor ∧ sub.result.map VarType.text ≠ some s.className := by
      rw [Classical.not_imp] at hP
      exact ⟨hP.1, fun he => hP.2 (hresult.mp he)⟩
    exact ⟨_, by simp only [Scope.perform, if_pos hyes]; rfl⟩

/-- At its start a subroutine knows the class and, in a method, the current object. -/
theorem Scope.Between.enter (h : s.Between c) (sub : Subroutine) (hkind : s.kind = sub.kind) :
    s.enter.table.Records c.decls (sub.receiver c) := by
  obtain ⟨hname, ss, hrecords⟩ := h
  have hdrop := hrecords.dropLocals
  unfold Scope.enter Subroutine.receiver
  rw [hkind]
  split
  · rw [hname]
    exact hdrop.addDecl_subroutine (d := ⟨.argument, .object c.name, "this"⟩) rfl (by simp)
  · exact hdrop

theorem stands_prologue {env : Env} (h : s.Models env)
    (hrecords : s.table.Records env.ofClass env.ofSubroutine) :
    Stands t s [.prologue] True s (env.header t.runtime) := by
  refine .written rfl ?_
  unfold Scope.prologue Env.header
  rw [hrecords.vars, hrecords.fields, h.kind, Scope.qualify, h.className, h.subroutine]
  cases env.kind <;> rfl

/-- After the declarations of a subroutine its names stand for what they should. -/
theorem Scope.Between.models {sub : Subroutine} (hname : s.className = c.name.text)
    (hsub : s.subroutine = sub.name.text) (hkind : s.kind = sub.kind)
    (hvoid : s.returnsVoid = sub.result.isNone)
    (hrecords : s.table.Records c.decls (sub.receiver c ++ sub.decls)) : s.Models (c.env sub) where
  className := hname
  subroutine := hsub
  kind := hkind
  returnsVoid := hvoid
  get? x := by
    rw [VariableTable.get?, hrecords.ofSubroutine x, hrecords.ofClass x, Env.find?, Option.map_or]
    rfl

theorem Tree.Subroutine.nodup_receiver_names (sub : Subroutine) :
    ((sub.receiver c).map Decl.name).Nodup := by
  unfold Subroutine.receiver
  split <;> simp

/-- The events of a subroutine can be performed exactly when it obeys the rules. -/
theorem Tree.Subroutine.stands (h : s.Between c) (sub : Subroutine) :
    ∃ m, Stands t s sub.events (sub.Valid c) m (sub.wordCode t.runtime c) ∧
      (sub.Valid c → m.Between c) := by
  -- the scope when the name is read, and the scope after the declarations
  let s₁ : Scope := { s with
    kind := sub.kind, returnsVoid := sub.result.isNone, subroutine := sub.name.text }
  have hs₁ : s₁.Between c := h
  have hrecords := hs₁.enter sub rfl
  let s₂ : Scope := { s₁.enter with table := sub.decls.foldl .addDecl s₁.enter.table }
  obtain ⟨hdeclare, hafter⟩ :=
    hrecords.stands_subroutine (t := t) sub.isOfClass_decls sub.nodup_receiver_names
  rw [← sub.declEvents_eq, sub.nodup_receiver] at hdeclare
  rw [sub.nodup_receiver] at hafter
  have hmodels := fun hnodup => Scope.Between.models (s := s₂) h.1 rfl rfl rfl (hafter hnodup)
  have hresult := stands_result (t := t) h.1 sub
  have hname := hresult.append fun _ => Stands.always (m := s₁) (e := .subroutine sub.name.text) rfl
  have henter := hname.append fun _ => Stands.always (m := s₁.enter) (e := .enter) rfl
  have hdecls := henter.append fun _ => hdeclare
  have hprologue := hdecls.append fun hP => stands_prologue (hmodels hP.2) (hafter hP.2)
  have hall := hprologue.append fun hP =>
    StatementList.stands sub.body (k := 0) (hmodels hP.1.2) rfl
  refine ⟨s₂.draw sub.body.labels, ?_, ?_⟩
  · have hevents : sub.events = [.result sub.kind (sub.result.map VarType.text)]
        ++ [.subroutine sub.name.text] ++ [.enter] ++ (sub.parameters.map Parameter.event
          ++ sub.locals.flatMap (VarDec.events .var)) ++ [.prologue] ++ sub.body.events := by
      simp [Subroutine.events]
    rw [hevents]
    refine Stands.congr hall ⟨?_, ?_⟩
    · rintro ⟨⟨⟨⟨⟨hres, -⟩, -⟩, hnodup⟩, -⟩, hbody⟩
      exact ⟨hres, hnodup, hbody⟩
    · rintro ⟨hres, hnodup, hbody⟩
      exact ⟨⟨⟨⟨⟨hres, trivial⟩, trivial⟩, hnodup⟩, trivial⟩, hbody⟩
  · intro hvalid
    exact ⟨h.1, _, hafter hvalid.distinct⟩

theorem stands_subroutines : ∀ (subs : List Subroutine) {s : Scope}, s.Between c →
    ∃ m, Stands t s (subs.flatMap Subroutine.events) (∀ sub ∈ subs, sub.Valid c) m
      (subs.flatMap (Subroutine.wordCode t.runtime c))
  | [], s, _ => ⟨s, Stands.nil.congr (by simp)⟩
  | sub :: subs, s, h => by
      obtain ⟨m, hsub, hm⟩ := Subroutine.stands (t := t) h sub
      obtain ⟨n, hall⟩ := hsub.append_exists fun hvalid => stands_subroutines subs (hm hvalid)
      exact ⟨n, hall.congr (by simp)⟩

/-- The events of a class can be performed exactly when it obeys the rules, and
then stand for the code of its subroutines. -/
theorem Tree.Class.stands (c : Tree.Class) :
    ∃ m, Stands t {} c.events (c.Valid t.className) m
      (c.subroutines.flatMap (Subroutine.wordCode t.runtime c)) := by
  have hname : Stands t {} [.className c.name.text] (c.name.text = t.className)
      { className := c.name.text } [] := by
    apply Stands.checked
    · intro hn
      simp only [Scope.perform, if_pos hn]
    · intro hn
      exact ⟨_, by simp only [Scope.perform, if_neg hn]; rfl⟩
  obtain ⟨hdeclare, hafter⟩ := VariableTable.Records.stands_class (t := t)
    (s := { className := c.name.text }) VariableTable.records_empty c.isOfClass_decls
    List.nodup_nil
  rw [← c.declEvents_eq] at hdeclare
  have hdecls := hname.append fun _ => hdeclare
  obtain ⟨m, hall⟩ := hdecls.append_exists fun hP =>
    stands_subroutines (t := t) c.subroutines ⟨rfl, [], hafter hP.2⟩
  refine ⟨m, Stands.congr hall ⟨?_, ?_⟩⟩
  · rintro ⟨⟨hn, hnodup⟩, hsubs⟩
    exact ⟨hn, hnodup, hsubs⟩
  · rintro ⟨hn, hnodup, hsubs⟩
    exact ⟨⟨hn, hnodup⟩, hsubs⟩

end

end JackVm
