import LiveC.Proofs.Parsing
import LiveC.Proofs.TypingRules

/-!
Conversions keep expressions well typed: decay, conversion to a type, conversion as if by
assignment, comparison, and the 0-or-1 form of a condition.
-/

namespace LiveC

/-- Canonical words are constants of their type. -/
def TypingContext.Closed (Γ : TypingContext) : Prop := ∀ t v, Γ.constant t (t.wrap v)

namespace CType

/-- Neither an array nor a function: the type of a value. -/
def Decayed (t : CType) : Prop := t.isArray = false ∧ t.isFunction = false

theorem decayed_of_isScalar {t : CType} (h : t.isScalar = true) : t.Decayed := by
  cases t <;> first | exact ⟨rfl, rfl⟩ | cases h

theorem isScalar_of_isArithmetic {t : CType} (h : t.isArithmetic = true) : t.isScalar = true := by
  cases t <;> first | rfl | cases h

theorem isScalar_of_isPointer {t : CType} (h : t.isPointer = true) : t.isScalar = true := by
  cases t <;> first | rfl | cases h

theorem isArithmetic_of_isInteger {t : CType} (h : t.isInteger = true) :
    t.isArithmetic = true := by
  cases t <;> first | rfl | cases h

theorem wellFormed_of_isArithmetic {t : CType} (h : t.isArithmetic = true) : t.WellFormed := by
  cases t <;> trivial

theorem isArithmetic_of_takes {op : BinaryOp} {t : CType} (h : Expr.Takes op t) :
    t.isArithmetic = true := by
  cases op with
  | add | sub | mul | div => exact h
  | rem | shl | shr | bitAnd | bitOr | bitXor => exact isArithmetic_of_isInteger h

theorem castable_of_isArithmetic {s t : CType} (hs : s.isArithmetic = true)
    (ht : t.isArithmetic = true) : Expr.castable s t = true := by
  cases s <;> cases t <;> first | rfl | contradiction

theorem castable_of_isPointer {s t : CType} (hs : s.isPointer = true) (ht : t.isPointer = true) :
    Expr.castable s t = true := by
  cases s <;> cases t <;> first | rfl | contradiction

end CType

namespace Expr

open CType Typing

variable {Γ : TypingContext} {e l r : Expr} {n : Note} {ty : CType}

/-! ### Nodes by their parts -/

theorem WellTyped.leaf (wf : e.ty.WellFormed) (rule : e.Rule Γ) (parts : e.parts = []) :
    e.WellTyped Γ := Everywhere.leaf ⟨wf, rule⟩ parts

theorem WellTyped.one {a : Expr} (wf : e.ty.WellFormed) (rule : e.Rule Γ) (parts : e.parts = [a])
    (ha : a.WellTyped Γ) : e.WellTyped Γ := Everywhere.one ⟨wf, rule⟩ parts ha

theorem WellTyped.two {a b : Expr} (wf : e.ty.WellFormed) (rule : e.Rule Γ)
    (parts : e.parts = [a, b]) (ha : a.WellTyped Γ) (hb : b.WellTyped Γ) : e.WellTyped Γ :=
  Everywhere.two ⟨wf, rule⟩ parts ha hb

theorem WellTyped.wellFormed (h : e.WellTyped Γ) : e.ty.WellFormed := h.here.1

/-- The rules ask nothing of the place of an expression. -/
theorem WellTyped.withNote (h : e.WellTyped Γ) (same : n.ty = e.ty) :
    (e.withNote n).WellTyped Γ := by
  obtain ⟨ty, loc⟩ := n
  subst same
  cases e <;> exact .node h.here fun part member => h.part member

theorem ty_withNote (e : Expr) (n : Note) : (e.withNote n).ty = n.ty := by
  cases e <;> rfl

theorem WellTyped.withLoc (h : e.WellTyped Γ) (loc : Location) : (e.withLoc loc).WellTyped Γ :=
  h.withNote rfl

theorem isPlace_of_isLvalue (h : e.isLvalue = true) : e.isPlace = true := by
  cases e <;> first | rfl | cases h

/-- Only what is in memory has the type of an array or function. -/
theorem decayed_or_isPlace (h : e.WellTyped Γ) : e.ty.Decayed ∨ e.isPlace = true := by
  have rule := h.here.2
  cases e with
  | str | var | global | deref => exact .inr rfl
  | int n v =>
      rcases rule with pointer | ⟨t, ty, -⟩
      · exact .inl (decayed_of_isScalar (isScalar_of_isPointer pointer))
      · exact .inl (decayed_of_isScalar (by rw [Expr.ty, note, ty]; rfl))
  | float n v => exact .inl (decayed_of_isScalar (by rw [Expr.ty, note, rule]; rfl))
  | compare | logic => exact .inl (decayed_of_isScalar (by rw [Expr.ty, note, rule.1]; rfl))
  | unary n op e =>
      refine .inl (decayed_of_isScalar (isScalar_of_isArithmetic ?_))
      cases op with
      | neg => exact rule.2
      | bitNot => exact isArithmetic_of_isInteger rule.2
  | binary n op l r =>
      obtain ⟨-, ⟨-, takes⟩ | ⟨pointer, -⟩⟩ := rule
      · exact .inl (decayed_of_isScalar (isScalar_of_isArithmetic (isArithmetic_of_takes takes)))
      · exact .inl (decayed_of_isScalar (isScalar_of_isPointer pointer))
  | assign n target value =>
      obtain ⟨-, scalar, ty, -⟩ := rule
      exact .inl (decayed_of_isScalar (by rwa [Expr.ty, note, ty]))
  | opAssign n op opTy target value =>
      refine .inl (decayed_of_isScalar ?_)
      obtain ⟨-, ty, ⟨-, -, takes⟩ | ⟨pointer, -⟩⟩ := rule
      · rw [Expr.ty, note, ty]
        exact isScalar_of_isArithmetic (isArithmetic_of_takes takes)
      · rw [Expr.ty, note, ty]
        exact isScalar_of_isPointer pointer
  | step n delta before target =>
      obtain ⟨-, scalar, ty⟩ := rule
      exact .inl (decayed_of_isScalar (by rwa [Expr.ty, note, ty]))
  | cond n c t f =>
      obtain ⟨-, -, -, scalar | void⟩ := rule
      · exact .inl (decayed_of_isScalar scalar)
      · exact .inl (by rw [Expr.ty, note, void]; exact ⟨rfl, rfl⟩)
  | cast n e =>
      rcases rule with void | ⟨scalar, -⟩
      · exact .inl (by rw [Expr.ty, note, void]; exact ⟨rfl, rfl⟩)
      · exact .inl (decayed_of_isScalar scalar)
  | addrOf n e =>
      rcases rule.2 with ty | ⟨_, _, _, ty⟩
      all_goals exact .inl (by rw [Expr.ty, note, ty]; exact ⟨rfl, rfl⟩)
  | call n name s args =>
      obtain ⟨wf, ty, -⟩ := rule
      exact .inl (by rw [Expr.ty, note, ty]; exact ⟨wf.1, wf.2.1⟩)
  | callPointer n s c args =>
      obtain ⟨ty, pointer, -⟩ := rule
      have wf : (CType.ofSignature s).WellFormed := by
        have callee := (h.part (.head _)).here.1
        rwa [pointer] at callee
      exact .inl (by rw [Expr.ty, note, ty]; exact ⟨wf.1, wf.2.1⟩)
  | comma n l r => exact .inl rule.2

/-! ### Decay -/

theorem rvalue_wellTyped (h : e.WellTyped Γ) : e.rvalue.WellTyped Γ := by
  have place := decayed_or_isPlace h
  unfold rvalue
  split
  case h_1 element length ty =>
    rw [ty] at place
    refine .one ?_ ⟨place.resolve_left nofun, .inr ⟨_, _, ty, rfl⟩⟩ rfl h
    have wf := h.wellFormed
    rwa [ty] at wf
  case h_2 ty =>
    rw [ty] at place
    exact .one h.wellFormed ⟨place.resolve_left nofun, .inl rfl⟩ rfl h
  case h_3 => exact h

theorem rvalue_decayed (e : Expr) : e.rvalue.ty.Decayed := by
  unfold rvalue
  split
  case h_1 | h_2 => exact ⟨rfl, rfl⟩
  case h_3 array function =>
    cases ty : e.ty with
    | array element length => exact absurd ty (array element length)
    | function ret params v u => exact absurd ty (function ret params v u)
    | void | int | double | pointer => exact ⟨rfl, rfl⟩

/-! ### Conversion to a type -/

@[simp] theorem ty_convert (e : Expr) (target : CType) : (e.convert target).ty = target := by
  unfold convert
  split
  case isTrue same => exact same
  case isFalse => split <;> rfl

theorem rule_cast (h : castable e.ty n.ty = true) : (cast n e).Rule Γ := by
  simp only [castable, Bool.or_eq_true, Bool.and_eq_true, Bool.not_eq_true',
    Bool.and_eq_false_iff] at h
  obtain void | ⟨⟨⟨target, source⟩, h₁⟩, h₂⟩ := h
  · refine .inl ?_
    cases ty : n.ty <;> first | rfl | (rw [ty] at void; cases void)
  · refine .inr ⟨target, source, ?_, ?_⟩
    · rintro ⟨double, pointer⟩
      simp [double, pointer] at h₁
    · rintro ⟨pointer, double⟩
      simp [double, pointer] at h₂

theorem convert_wellTyped (closed : Γ.Closed) (h : e.WellTyped Γ) (wf : ty.WellFormed)
    (cast : e.ty = ty ∨ castable e.ty ty = true) : (e.convert ty).WellTyped Γ := by
  unfold convert
  split
  case isTrue => exact h
  case isFalse other =>
    split
    case h_1 => exact .leaf wf (.inr ⟨_, rfl, closed _ _⟩) rfl
    case h_2 => exact .leaf wf (.inl rfl) rfl
    case h_3 => exact .leaf wf rfl rfl
    case h_4 => exact .leaf wf (.inr ⟨_, rfl, closed _ _⟩) rfl
    case h_5 => exact .one wf (rule_cast (cast.resolve_left other)) rfl h

/-- Conversion as if by assignment, which only scalar types allow. -/
theorem assignConvert_yields (closed : Γ.Closed) (h : e.WellTyped Γ) (wf : ty.WellFormed)
    (loc : Location) : (e.assignConvert ty loc).Yields fun r =>
      r.WellTyped Γ ∧ r.ty = ty ∧ ty.isScalar = true := by
  have value := rvalue_wellTyped h
  have converted (cast : castable e.rvalue.ty ty = true) (scalar : ty.isScalar = true) :
      (pure (e.rvalue.convert ty) : Typing Expr).Yields fun r =>
        r.WellTyped Γ ∧ r.ty = ty ∧ ty.isScalar = true :=
    .pure ⟨convert_wellTyped closed value wf (.inr cast), ty_convert _ _, scalar⟩
  unfold assignConvert
  generalize e.rvalue = e at *
  dsimp only
  split
  case isTrue =>
    split
    case h_1 hs _ =>
      have done := converted (castable_of_isPointer (by rw [hs]; rfl) rfl) rfl
      split
      · exact .skip fun _ => done
      · exact done
    case h_2 hs _ =>
      have done := converted (by rw [hs]; rfl) rfl
      split
      · exact .skip fun _ => done
      · exact done
    case h_3 hs _ => exact .skip fun _ => converted (by rw [hs]; rfl) rfl
    case h_4 => exact .bind (P := fun _ => False) nofun nofun
  case isFalse arithmetic =>
    simp only [Bool.not_eq_true, Bool.not_eq_false', Bool.and_eq_true] at arithmetic
    exact converted (castable_of_isArithmetic arithmetic.1 arithmetic.2)
      (isScalar_of_isArithmetic arithmetic.2)

/-! ### Comparisons and conditions -/

theorem constant_zero (closed : Γ.Closed) (t : IntType) : Γ.constant t 0 := by
  have zero : t.wrap 0 = 0 := by
    obtain ⟨w, s⟩ := t
    cases w <;> cases s <;> rfl
  exact zero ▸ closed t 0

theorem constant_ofBool (closed : Γ.Closed) (b : Bool) : Γ.constant .int (Word.ofBool b) := by
  cases b with
  | false => exact closed .int 0
  | true => exact closed .int 1

theorem isCondition_ofBool (n : Note) (b : Bool) : (int n (Word.ofBool b)).IsCondition := by
  cases b with
  | false => exact .inl rfl
  | true => exact .inr rfl

@[simp] theorem ty_zero (n : Note) : (zero n).ty = n.ty := by
  unfold zero
  split <;> rfl

theorem zero_wellTyped (closed : Γ.Closed) (wf : n.ty.WellFormed) (scalar : n.ty.isScalar = true) :
    (zero n).WellTyped Γ := by
  unfold zero
  split
  case h_1 double => exact .leaf wf double rfl
  case h_2 double =>
    refine .leaf wf ?_ rfl
    cases ty : n.ty with
    | int t => exact .inr ⟨t, ty, constant_zero closed t⟩
    | pointer => exact .inl (by rw [ty]; rfl)
    | double => exact absurd ty double
    | void | array | function => rw [ty] at scalar; cases scalar

theorem ofBool_controls (closed : Γ.Closed) (b : Bool) (loc : Location) :
    (int ⟨.int .int, loc⟩ (Word.ofBool b)).Controls Γ :=
  ⟨.leaf trivial (.inr ⟨_, rfl, constant_ofBool closed b⟩) rfl, isCondition_ofBool _ b⟩

theorem compareNode_controls (closed : Γ.Closed) (op : CompareOp) (hl : l.WellTyped Γ)
    (hr : r.WellTyped Γ)
    (types : l.ty = r.ty ∧ l.ty.isArithmetic = true ∨
      l.ty.isPointer = true ∧ r.ty.isPointer = true) (loc : Location) :
    (compareNode op l r loc).Controls Γ := by
  unfold compareNode
  dsimp only
  split
  case h_1 => exact ofBool_controls closed _ loc
  case h_2 => exact ⟨.two trivial ⟨rfl, types⟩ rfl hl hr, trivial⟩

/-- A scalar is compared with the zero of its type. -/
theorem compareZero_controls (closed : Γ.Closed) (op : CompareOp) (h : e.WellTyped Γ)
    (scalar : e.ty.isScalar = true) (zeroLoc loc : Location) :
    (compareNode op e (zero ⟨e.ty, zeroLoc⟩) loc).Controls Γ := by
  have zero : (zero ⟨e.ty, zeroLoc⟩).WellTyped Γ := zero_wellTyped closed h.wellFormed scalar
  refine compareNode_controls closed op h zero ?_ loc
  rw [ty_zero]
  cases ty : e.ty with
  | int | double => exact .inl ⟨rfl, rfl⟩
  | pointer => exact .inr ⟨rfl, rfl⟩
  | void | array | function => rw [ty] at scalar; cases scalar

theorem condition_yields (closed : Γ.Closed) (h : e.WellTyped Γ) :
    e.condition.Yields (Controls Γ) := by
  have value := rvalue_wellTyped h
  unfold condition
  generalize e.rvalue = e at *
  dsimp only
  split
  case isTrue => exact .fail
  case isFalse scalar =>
    simp only [Bool.not_eq_true, Bool.not_eq_false'] at scalar
    split
    case isTrue boolean =>
      refine .pure ⟨value, ?_⟩
      cases e <;> trivial
    case isFalse =>
      exact .pure (compareZero_controls closed .ne value scalar _ _)

end Expr
end LiveC
