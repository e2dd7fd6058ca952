import LiveC.Proofs.ExpressionDerivations
import LiveC.Proofs.NameResolution
import LiveC.Proofs.ValueTyping

/-!
What is assigned, stepped or addressed. Whether an expression designates an object is read off its
tree, and an operator that leaves its operand as it is leaves what the operand designates. So what
is assigned is an identifier, a subscript or an indirection, up to parentheses and such operators.
-/

namespace LiveC

/-- An object or, where texts count, a string literal. -/
def Expr.Designating (texts : Bool) (e : Expr) : Prop :=
  e.isLvalue = true ∨ texts = true ∧ ∃ n id, e = .str n id

namespace Expr.Designating

variable {texts : Bool} {e : Expr}

theorem isPlace (h : e.Designating texts) : e.isPlace = true := by
  obtain lvalue | ⟨-, n, id, rfl⟩ := h
  · exact isPlace_of_isLvalue lvalue
  · rfl

theorem of_withLoc {loc : Location} (h : (e.withLoc loc).Designating texts) :
    e.Designating texts := by
  obtain lvalue | ⟨counts, n, id, literal⟩ := h
  · exact .inl (isLvalue_withLoc e loc ▸ lvalue)
  · cases e with
    | str m id' => exact .inr ⟨counts, m, id', rfl⟩
    | _ => cases literal

end Expr.Designating

namespace SourceExpr

variable {texts : Bool} {w v : SourceExpr}

/-! ### What is left as it is -/

/-- An expression leaves a part of it as it is. -/
inductive Leaves : SourceExpr → SourceExpr → Prop where
  | parens {v : SourceExpr} : Leaves (.parens v) v
  /-- A sign in front of what has its promoted type. -/
  | plus {v : SourceExpr} : Leaves (.unary v.typed .plus v) v
  /-- A cast to the type that the operand has. -/
  | cast {type : List TokenKind} {loc : Location} {v : SourceExpr} :
      Leaves (.cast (v.typed.withLoc loc) type v) v
  /-- A conditional with a constant condition, where the arm that is chosen has the type of both. -/
  | conditional {c t f : SourceExpr} {k : Expr} {x : Word} : c.typed.condition.Gives k →
      k.intValue? = some x → Leaves (.conditional (if x != 0 then t else f).typed c t f)
        (if x != 0 then t else f)
  /-- The address of what a pointer points to: the pointer is left, with another type. -/
  | address {m n : Note} {p : Expr} {v : SourceExpr} : v.typed = .deref m p →
      Leaves (.unary (p.withNote n) .address v) v

/-- The forms that are in memory or may be functions by themselves. -/
def Primitive : SourceExpr → Prop
  | name .. | string .. | subscript .. | call .. | unary _ .indirection _ => True
  | _ => False

/-- All other forms come to values, or leave a part of them as it is. -/
theorem Node.value_or (h : Node w) : w.typed.IsValue ∨ w.Primitive ∨
    ∃ v ∈ w.parts, w.Leaves v ∧ (w = .parens v ∨ w.typed.ty.Decayed) := by
  cases w with
  | name | string | subscript | call => exact .inr (.inl trivial)
  | constant e kind =>
      obtain ⟨loc, comes⟩ := h
      cases kind <;> cases comes <;> exact .inl ⟨rfl, rfl, rfl⟩
  | parens v => exact .inr (.inr ⟨v, .head _, .parens, .inl rfl⟩)
  | stepped e increment target =>
      obtain ⟨-, loc, gives⟩ := h
      exact .inl (gives.has (Expr.stepNode_isValue _ _ _ _)).1
  | sizeOfType e type =>
      obtain ⟨ty, loc, gives⟩ := h
      exact .inl (gives.has (Expr.sizeOf_isValue _ _))
  | binary e op l r =>
      obtain ⟨-, -, loc, gives⟩ := h
      exact .inl (gives.has (op.apply_isValue _ _ _))
  | assign e op? target value =>
      obtain ⟨-, -, loc, -, gives⟩ := h
      exact .inl (gives.has (assignmentNode_isValue _ _ _ _))
  | comma e l r =>
      obtain ⟨-, loc, rfl⟩ := h
      exact .inl ⟨rfl, Expr.rvalue_decayed _⟩
  | cast e type v =>
      obtain ⟨-, ty, loc, gives⟩ := h
      obtain ⟨rfl, decayed⟩ | value := gives.has (Expr.castTo_keeps _ _ _)
      · refine .inr (.inr ⟨v, .head _, .cast, .inr ?_⟩)
        rwa [typed, Expr.withLoc, Expr.ty_withNote]
      · exact .inl value
  | conditional e c t f =>
      obtain ⟨-, -, loc, gives⟩ := h
      obtain ⟨⟨k, x, condition, constant, chosen⟩, decayed⟩ | value :=
        gives.has (Expr.conditional_keeps _ _ _ _)
      · obtain rfl : e = (if x != 0 then t else f).typed := by rw [chosen, apply_ite typed]
        refine .inr (.inr ⟨_, ?_, .conditional condition constant, .inr decayed⟩)
        split
        · exact .tail _ (.head _)
        · exact .tail _ (.tail _ (.head _))
      · exact .inl value
  | unary e op v =>
      obtain ⟨-, loc, gives⟩ := h
      cases op with
      | indirection => exact .inr (.inl trivial)
      | increment | decrement => exact .inl (gives.has (Expr.stepNode_isValue _ _ _ _)).1
      | size => exact .inl (gives.has (Expr.sizeOf_isValue _ _))
      | minus => exact .inl (gives.has (Expr.negation_isValue _ _))
      | complement => exact .inl (gives.has (Expr.complement_isValue _ _))
      | not => exact .inl (gives.has (Expr.logicalNot_isValue _ _))
      | plus =>
          obtain ⟨rfl, decayed⟩ | value := gives.has (Expr.plus_keeps _ _)
          · exact .inr (.inr ⟨v, .head _, .plus, .inr decayed⟩)
          · exact .inl value
      | address =>
          obtain ⟨decayed, notPlace | ⟨m, p, n, pointed, rfl⟩⟩ := gives.has (Expr.address_keeps _ _)
          · exact .inl ⟨notPlace, decayed⟩
          · exact .inr (.inr ⟨v, .head _, .address pointed, .inr decayed⟩)

/-- What is left designates something if what is made of it does. -/
theorem Leaves.designating (h : w.Leaves v) (designating : w.typed.Designating texts) :
    v.typed.Designating texts := by
  cases h with
  | parens | plus | conditional => exact designating
  | cast => exact .of_withLoc designating
  | address pointed =>
      rw [pointed]
      exact .inl rfl

/-! ### Operands -/

/-- An expression designates what it comes to: an identifier of an object, a subscript, an
indirection, a string literal where texts count, and what leaves one of these as it is. -/
inductive Designates (texts : Bool) : SourceExpr → Prop where
  | name {e : Expr} {x : String} : e.isLvalue = true → Designates texts (.name e x)
  | subscript {e : Expr} {base index : SourceExpr} : Designates texts (.subscript e base index)
  | indirection {e : Expr} {v : SourceExpr} : Designates texts (.unary e .indirection v)
  | string {e : Expr} {first : List UInt8} {more : List (List UInt8)} : texts = true →
      Designates texts (.string e first more)
  | left {w v : SourceExpr} : w.Leaves v → Designates texts v → Designates texts w

/-- Only what designates an object or a text comes to one. -/
theorem designates_of_designating (h : w.Derived) (designating : w.typed.Designating texts) :
    w.Designates texts := by
  induction h with
  | @node w here parts ih =>
      have isPlace := designating.isPlace
      obtain value | primitive | ⟨v, part, leaves, -⟩ := here.value_or
      · rw [value.notPlace] at isPlace
        cases isPlace
      · cases w with
        | name e x =>
            obtain lvalue | ⟨-, n, id, rfl⟩ := designating
            · exact .name lvalue
            · obtain ⟨_, _, absurd⟩ | ⟨_, _, absurd⟩ := here <;> cases absurd
        | string e first more =>
            obtain ⟨loc, id, rfl⟩ := here
            obtain lvalue | ⟨counts, -⟩ := designating
            · cases lvalue
            · exact .string counts
        | subscript => exact .subscript
        | call e callee args =>
            obtain ⟨-, -, loc, resolved, values, -, -, gives⟩ := here
            rw [typed, gives.has (Expr.callNode_isPlace _ _ _)] at isPlace
            cases isPlace
        | unary e op v =>
            cases op with
            | indirection => exact .indirection
            | _ => cases primitive
        | _ => cases primitive
      · exact .left leaves (ih v part (leaves.designating designating))

/-- A function designator: an identifier, an indirection or a call, which no C function is declared
for, up to parentheses. -/
def DesignatesFunction (w : SourceExpr) : Prop :=
  w.typed.ty.isFunction = true ∧ match w.inside with
    | name .. | call .. | unary _ .indirection _ => True
    | _ => False

theorem inside_ne_parens (w : SourceExpr) : w.inside ≠ .parens v := by
  induction w using SourceExpr.inside.induct with
  | case1 e ih => exact ih
  | case2 w other =>
      cases w with
      | parens e => exact absurd rfl (other e)
      | _ => rintro ⟨⟩

theorem designatesFunction_of_isFunction (h : w.Derived)
    (function : w.typed.ty.isFunction = true) : w.DesignatesFunction := by
  refine ⟨function, ?_⟩
  have here := h.inside.here
  have noParens (v : SourceExpr) : w.inside ≠ .parens v := inside_ne_parens w
  rw [← typed_inside] at function
  generalize w.inside = w at *
  have undecayed (decayed : w.typed.ty.Decayed) : False := by
    rw [decayed.2] at function
    cases function
  obtain value | primitive | ⟨v, -, -, parens | decayed⟩ := here.value_or
  · exact (undecayed value.decayed).elim
  · cases w with
    | name | call => trivial
    | string e first more =>
        obtain ⟨loc, id, rfl⟩ := here
        cases function
    | subscript e base index =>
        obtain ⟨-, loc, gives⟩ := here
        rw [typed, gives.has (Expr.subscript_isFunction _ _ _)] at function
        cases function
    | unary e op v =>
        cases op with
        | indirection => trivial
        | _ => cases primitive
    | _ => cases primitive
  · exact absurd parens (noParens v)
  · exact (undecayed decayed).elim

/-- What is assigned or stepped designates an object, and what has an address an object, a text or a
function. -/
def OperandsDesignate : SourceExpr → Prop
  | assign _ _ target _ | stepped _ _ target | unary _ .increment target
  | unary _ .decrement target => target.Designates false ∧ target.typed.isLvalue = true
  | unary _ .address operand => operand.Designates true ∨ operand.DesignatesFunction
  | _ => True

theorem Derived.operandsDesignate (h : w.Derived) : w.OperandsDesignate := by
  have object {v : SourceExpr} (part : v ∈ w.parts) (lvalue : v.typed.isLvalue = true) :
      v.Designates false ∧ v.typed.isLvalue = true :=
    ⟨designates_of_designating (h.part part) (.inl lvalue), lvalue⟩
  have here := h.here
  cases w with
  | assign e op? target value =>
      obtain ⟨-, -, loc, assignable, -⟩ := here
      exact object (.head _) (assignable.has (Expr.requireAssignable_yields _ _))
  | stepped e increment target =>
      obtain ⟨-, loc, gives⟩ := here
      exact object (.head _) (gives.has (Expr.stepNode_isValue _ _ _ _)).2.1
  | unary e op operand =>
      obtain ⟨-, loc, gives⟩ := here
      cases op with
      | increment | decrement =>
          exact object (.head _) (gives.has (Expr.stepNode_isValue _ _ _ _)).2.1
      | address =>
          have derived := h.part (.head _)
          obtain lvalue | function | ⟨n, id, literal⟩ := gives.has (Expr.address_addressable _ _)
          · exact .inl (designates_of_designating derived (.inl lvalue))
          · exact .inr (designatesFunction_of_isFunction derived function)
          · exact .inl (designates_of_designating derived (.inr ⟨rfl, n, id, literal⟩))
      | _ => trivial
  | _ => trivial

end SourceExpr

namespace Parser

/-- In every expression that is accepted, what is assigned or stepped designates an object, and what
has an address an object, a text or a function. -/
theorem operands_designate {n : Nat} {p : Parser Expr} (reads : ReadsExpression (productions n) p)
    {s t : ParserState} {e : Expr} (run : p s = .ok e t) :
    ∃ w : SourceExpr, s.kinds = w.kinds ++ t.kinds ∧ w.typed = e ∧ w.Derived ∧
      w.Everywhere SourceExpr.OperandsDesignate := by
  obtain ⟨w, tokens, typed, derived⟩ := exists_derived reads run
  exact ⟨w, tokens, typed, derived, derived.mono fun _ h => SourceExpr.Derived.operandsDesignate h⟩

/-- A sign leaves the variable that is assigned behind it. -/
theorem operands_designate_signed : ∃ (s t : ParserState) (e : Expr) (w : SourceExpr),
    s.kinds = [.punct .plus, .ident "x", .punct .assign, .int 3 false false true] ∧ t.kinds = [] ∧
      expression (productions 8) s = .ok e t ∧ s.kinds = w.kinds ++ t.kinds ∧ w.typed = e ∧
        w.Derived ∧ w.Everywhere SourceExpr.OperandsDesignate := by
  let s : ParserState :=
    { rest := [⟨.punct .plus, .start⟩, ⟨.ident "x", .start⟩, ⟨.punct .assign, .start⟩,
        ⟨.int 3 false false true, .start⟩]
      endLoc := .start
      scopes := { blocks := [[("x", .local 0)]] }
      locals := [⟨"x", .int .int⟩] }
  have accepts : acceptsAll (expression (productions 8)) s = true := by decide +kernel
  obtain ⟨e, t, run, atEnd⟩ := exists_of_acceptsAll accepts
  obtain ⟨w, tokens, typed, derived, operands⟩ := operands_designate .expression run
  exact ⟨s, t, e, w, rfl, atEnd, run, tokens, typed, derived, operands⟩

/-- Signs, casts, conditionals and addresses are assigned, stepped and addressed where they leave a
variable as it is, and not where they convert it. -/
theorem parseSource_of_assignedValues :
    (parseSource ("int f(void) \x7b int x = 1; int y = 2; int *p = &y; " ++
      "+x = 3; (int)x = 3; (1 ? x : y) = 3; &*p = &x; ++ +x; p = &+x; return x; \x7d") []).isOk =
        true ∧
    refusals ("int f(void) \x7b int x = 1; " ++
      "-x = 3; (long)x = 3; (1 ? x : 2L) = 3; return x; \x7d") =
        List.replicate 3 "expression is not assignable" := by
  rw [parseSource_of_bytes (Text.toByteChars_append_of
    (Text.toByteChars_of_all ?_) (Text.toByteChars_of_all ?_)), refusals_of_bytes
    (Text.toByteChars_append_of (Text.toByteChars_of_all ?_) (Text.toByteChars_of_all ?_))]
  · exact ⟨by decide +kernel, by decide +kernel⟩
  all_goals decide +kernel

end Parser

end LiveC
