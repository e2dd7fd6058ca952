import LiveC.Proofs.BareExpressions
import LiveC.Proofs.PrecedenceClimbing

/-!
Expressions as they are written, with the parentheses that stand in them, and as they are with all
parentheses. What either comes to does not depend on where the tokens stand, and parentheses change
nothing about it but how high an expression may become.
-/

namespace LiveC

/-! ### Operators -/

def Operator.punct : Operator → Punct
  | arith .mul => .star
  | arith .div => .slash
  | arith .rem => .percent
  | arith .add => .plus
  | arith .sub => .minus
  | arith .shl => .shl
  | arith .shr => .shr
  | compare .lt => .lt
  | compare .gt => .gt
  | compare .le => .le
  | compare .ge => .ge
  | compare .eq => .eq
  | compare .ne => .ne
  | arith .bitAnd => .amp
  | arith .bitXor => .caret
  | arith .bitOr => .bar
  | logic .and => .andAnd
  | logic .or => .orOr

theorem Operator.ofPunct?_punct (op : Operator) : ofPunct? op.punct = some op := by
  rcases op with op | op | op <;> cases op <;> rfl

/-- The operators in front of their operand. -/
inductive PrefixOperator where
  | increment | decrement | size | address | indirection | plus | minus | complement | not

namespace PrefixOperator

def kind : PrefixOperator → TokenKind
  | increment => .punct .increment
  | decrement => .punct .decrement
  | size => .keyword .sizeofKw
  | address => .punct .amp
  | indirection => .punct .star
  | plus => .punct .plus
  | minus => .punct .minus
  | complement => .punct .tilde
  | not => .punct .bang

def apply (op : PrefixOperator) (e : Expr) (loc : Location) : Typing Expr :=
  match op with
  | increment => e.stepNode true true loc
  | decrement => e.stepNode false true loc
  | size => Expr.sizeOf e.ty loc
  | address => e.address loc
  | indirection => e.indirection loc
  | plus => e.plus loc
  | minus => e.negation loc
  | complement => e.complement loc
  | not => e.logicalNot loc

end PrefixOperator

/-- The punctuator of an assignment, which may be combined with an operation. -/
def assignmentPunct : Option BinaryOp → Punct
  | none => .assign
  | some .add => .plusAssign
  | some .sub => .minusAssign
  | some .mul => .starAssign
  | some .div => .slashAssign
  | some .rem => .percentAssign
  | some .shl => .shlAssign
  | some .shr => .shrAssign
  | some .bitAnd => .ampAssign
  | some .bitOr => .barAssign
  | some .bitXor => .caretAssign

theorem assignmentOp?_assignmentPunct (op? : Option BinaryOp) :
    (assignmentPunct op?).assignmentOp? = some op? := by
  rcases op? with - | op
  · rfl
  · cases op <;> rfl

/-- The typed node of an assignment. -/
def assignmentNode (op? : Option BinaryOp) (target value : Expr) (loc : Location) : Typing Expr :=
  match op? with
  | none => target.assignment value loc
  | some op => Expr.opAssignment op target value loc

/-! ### Expressions -/

/-- An expression as it is written. -/
inductive WrittenExpr where
  | name (x : String)
  | int (value : Nat) (unsigned long decimal : Bool)
  | call (callee : WrittenExpr) (args : List WrittenExpr)
  | parens (e : WrittenExpr)
  | unary (op : PrefixOperator) (e : WrittenExpr)
  | binary (op : Operator) (l r : WrittenExpr)
  | conditional (c t f : WrittenExpr)
  | assign (op? : Option BinaryOp) (target value : WrittenExpr)

namespace WrittenExpr

/-- How loosely an expression binds. Those of level zero are the operands of binary operators. -/
def level : WrittenExpr → Nat
  | name _ | int .. | call .. | parens _ | unary .. => 0
  | binary op _ _ => op.level
  | conditional .. => 11
  | assign .. => 12

def isPostfix : WrittenExpr → Bool
  | name _ | int .. | call .. | parens _ => true
  | _ => false

theorem level_of_isPostfix {e : WrittenExpr} (post : e.isPostfix = true) : e.level = 0 := by
  cases e <;> first | rfl | cases post

mutual

def kinds : WrittenExpr → List TokenKind
  | name x => [.ident x]
  | int value unsigned long decimal => [.int value unsigned long decimal]
  | call callee args => kinds callee ++ .punct .lparen :: (kindsAll args ++ [.punct .rparen])
  | parens e => .punct .lparen :: (kinds e ++ [.punct .rparen])
  | unary op e => op.kind :: kinds e
  | binary op l r => kinds l ++ .punct op.punct :: kinds r
  | conditional c t f => kinds c ++ .punct .question :: (kinds t ++ .punct .colon :: kinds f)
  | assign op? target value => kinds target ++ .punct (assignmentPunct op?) :: kinds value

/-- Arguments with commas between them. -/
def kindsAll : List WrittenExpr → List TokenKind
  | [] => []
  | [e] => kinds e
  | e :: e' :: es => kinds e ++ .punct .comma :: kindsAll (e' :: es)

end

mutual

/-- The grammar of C derives an expression whose names are such: operators of a level associate to
the left, conditionals and assignments to the right, and the target of an assignment is a unary
expression. -/
def Derivable (P : String → Prop) : WrittenExpr → Prop
  | name x => P x
  | int .. => True
  | call callee args => callee.isPostfix = true ∧ Derivable P callee ∧ DerivableAll P args
  | parens e => Derivable P e
  | unary _ e => e.level = 0 ∧ Derivable P e
  | binary op l r => l.level ≤ op.level ∧ r.level < op.level ∧ Derivable P l ∧ Derivable P r
  | conditional c t f =>
    c.level < 11 ∧ f.level ≤ 11 ∧ Derivable P c ∧ Derivable P t ∧ Derivable P f
  | assign _ target value => target.level = 0 ∧ Derivable P target ∧ Derivable P value

def DerivableAll (P : String → Prop) : List WrittenExpr → Prop
  | [] => True
  | e :: es => Derivable P e ∧ DerivableAll P es

end

mutual

instance instDecidableDerivable (P : String → Prop) [DecidablePred P] :
    (e : WrittenExpr) → Decidable (Derivable P e)
  | name x => inferInstanceAs (Decidable (P x))
  | int .. => inferInstanceAs (Decidable True)
  | call callee args =>
    have := instDecidableDerivable P callee
    have := instDecidableDerivableAll P args
    inferInstanceAs (Decidable (_ ∧ Derivable P callee ∧ DerivableAll P args))
  | parens e => instDecidableDerivable P e
  | unary _ e =>
    have := instDecidableDerivable P e
    inferInstanceAs (Decidable (_ ∧ Derivable P e))
  | binary _ l r =>
    have := instDecidableDerivable P l
    have := instDecidableDerivable P r
    inferInstanceAs (Decidable (_ ∧ _ ∧ Derivable P l ∧ Derivable P r))
  | conditional c t f =>
    have := instDecidableDerivable P c
    have := instDecidableDerivable P t
    have := instDecidableDerivable P f
    inferInstanceAs (Decidable (_ ∧ _ ∧ Derivable P c ∧ Derivable P t ∧ Derivable P f))
  | assign _ target value =>
    have := instDecidableDerivable P target
    have := instDecidableDerivable P value
    inferInstanceAs (Decidable (_ ∧ Derivable P target ∧ Derivable P value))

instance instDecidableDerivableAll (P : String → Prop) [DecidablePred P] :
    (es : List WrittenExpr) → Decidable (DerivableAll P es)
  | [] => inferInstanceAs (Decidable True)
  | e :: es =>
    have := instDecidableDerivable P e
    have := instDecidableDerivableAll P es
    inferInstanceAs (Decidable (Derivable P e ∧ DerivableAll P es))

end

/-! ### All parentheses -/

def isApplied : WrittenExpr → Bool
  | unary .. | binary .. | conditional .. | assign .. => true
  | _ => false

/-- Parentheses around what is made of an expression, if the expression applies an operator. -/
def grouped (e inner : WrittenExpr) : WrittenExpr := if e.isApplied then parens inner else inner

mutual

/-- All parentheses around the parts of an expression. -/
def inner : WrittenExpr → WrittenExpr
  | name x => name x
  | int value unsigned long decimal => int value unsigned long decimal
  | call callee args => call (inner callee) (innerAll args)
  | parens e => parens (inner e)
  | unary op e => unary op (e.grouped (inner e))
  | binary op l r => binary op (l.grouped (inner l)) (r.grouped (inner r))
  | conditional c t f =>
    conditional (c.grouped (inner c)) (t.grouped (inner t)) (f.grouped (inner f))
  | assign op? target value =>
    assign op? (target.grouped (inner target)) (value.grouped (inner value))

def innerAll : List WrittenExpr → List WrittenExpr
  | [] => []
  | e :: es => e.grouped (inner e) :: innerAll es

end

/-- The expression with parentheses around each application of an operator. -/
def parenthesised (e : WrittenExpr) : WrittenExpr := e.grouped e.inner

/-! ### Typed trees -/

open LiveC.Parser

/-- What a name comes to, which a parenthesis may follow. -/
def typedName (called : Bool) (name : String) : Parser Expr := do
  match ← find? name with
  | some (.local id) =>
    match (← get).locals[id]? with
    | some v => return .var ⟨v.ty, .nowhere⟩ id
    | none => refuse .nowhere (.unknownSymbol name)
  | some (.global symbol) =>
    match ← findSymbol? symbol with
    | some s => return .global ⟨s.ty, .nowhere⟩ symbol
    | none => refuse .nowhere (.unknownSymbol name)
  | some (.typedef _) => fail .nowhere (.unexpectedTypeName name)
  | none =>
    if called then
      warn .nowhere (.implicitFunction name)
      let ty : CType := .function (.int .int) [] false true
      declareFunction name ty false .nowhere
      bindFile name (.global name)
      return .global ⟨ty, .nowhere⟩ name
    else refuse .nowhere (.undeclared name)

/-- What an integer constant comes to. -/
def typedInt (value : Nat) (unsigned long decimal : Bool) : Parser Expr := do
  let ty := IntType.ofLiteral value unsigned long decimal
  if !ty.fits value then warn .nowhere .constantTooLarge
  return .int ⟨.int ty, .nowhere⟩ (BitVec.ofNat 64 value)

/-- An operand of an operator that is not in front of it: the height of what binds as tightly as
that is checked. -/
def operand (e : WrittenExpr) (p : Parser Expr) : Parser Expr :=
  if e.level = 0 then p >>= bounded else p

mutual

/-- What an expression comes to, whatever stands around it but a parenthesis behind a name. -/
def typedTree (called : Bool) : WrittenExpr → Parser Expr
  | name x => typedName called x
  | int value unsigned long decimal => typedInt value unsigned long decimal
  | call callee args => do
    let callee ← typed ((← typedTree true callee).callee .nowhere)
    let args ← typedTrees args
    typed (Expr.callNode callee args .nowhere)
  | parens e => e.operand (typedTree false e)
  | unary op e => do typed (op.apply (← typedTree false e) .nowhere)
  | binary op l r => do
    let l ← l.operand (typedTree false l)
    let r ← r.operand (typedTree false r)
    bounded (← typed (op.apply l r .nowhere))
  | conditional c t f => do
    let c ← c.operand (typedTree false c)
    let t ← t.operand (typedTree false t)
    let f ← f.operand (typedTree false f)
    typed (Expr.conditional c t f .nowhere)
  | assign op? target value => do
    let target ← target.operand (typedTree false target)
    typed (target.requireAssignable .nowhere)
    let value ← value.operand (typedTree false value)
    typed (assignmentNode op? target value .nowhere)

def typedTrees : List WrittenExpr → Parser (List (Location × Expr))
  | [] => return []
  | e :: es => do
    let value ← e.operand (typedTree false e)
    return (.nowhere, value) :: (← typedTrees es)

end

theorem typedTree_parens (called : Bool) (e : WrittenExpr) :
    (parens e).typedTree called = e.operand (e.typedTree false) := rfl

/-- The tree of an expression that stands for itself. -/
def tree (e : WrittenExpr) : Parser Expr := e.operand (e.typedTree false)

theorem tree_binary (op : Operator) (l r : WrittenExpr) :
    (binary op l r).tree = (do bounded (← typed (op.apply (← l.tree) (← r.tree) .nowhere)))  := by
  rw [tree, operand, level, if_neg (Nat.ne_of_gt op.level_pos)]
  rfl

theorem tree_conditional (c t f : WrittenExpr) :
    (conditional c t f).tree =
      (do typed (Expr.conditional (← c.tree) (← t.tree) (← f.tree) .nowhere))  := by
  rw [tree, operand, level, if_neg (Nat.succ_ne_zero 10)]
  rfl

theorem tree_assign (op? : Option BinaryOp) (target value : WrittenExpr) :
    (assign op? target value).tree = (do
      let target ← target.tree
      typed (target.requireAssignable .nowhere)
      typed (assignmentNode op? target (← value.tree) .nowhere))  := by
  rw [tree, operand, level, if_neg (Nat.succ_ne_zero 11)]
  rfl

/-! ### More checks of the height -/

/-- A parser does what another one does, unless it finds an expression too high. -/
def Narrows {α : Type} (p q : Parser α) : Prop :=
  ∀ s, q s = p s ∨ ∃ loc t, q s = .error (.form loc .expressionTooDeep) t

namespace Narrows

variable {α β : Type} {p q r : Parser α} {f g : α → Parser β}

theorem refl (p : Parser α) : Narrows p p := fun _ => .inl rfl

theorem trans (h : Narrows p q) (k : Narrows q r) : Narrows p r := by
  intro s
  obtain same | deep := k s
  · rw [same]
    exact h s
  · exact .inr deep

theorem bind (h : Narrows p q) (k : ∀ a, Narrows (f a) (g a)) : Narrows (p >>= f) (q >>= g) := by
  intro s
  rw [bind_run, bind_run]
  obtain same | ⟨loc, t, deep⟩ := h s
  · rw [same]
    cases p s with
    | ok a t => exact k a t
    | error x t => exact .inl rfl
  · rw [deep]
    exact .inr ⟨loc, t, rfl⟩

theorem bounded (p : Parser Expr) : Narrows p (p >>= Parser.bounded) := by
  intro s
  rw [bind_run]
  cases p s with
  | error x t => exact .inl rfl
  | ok e t =>
      by_cases high : maxExprHeight < e.height
      · refine .inr ⟨e.loc, t, ?_⟩
        change Parser.bounded e t = _
        rw [Parser.bounded, if_pos high]
        rfl
      · refine .inl ?_
        change Parser.bounded e t = _
        rw [Parser.bounded, if_neg high]
        rfl

end Narrows

theorem level_inner (e : WrittenExpr) : e.inner.level = e.level := by
  cases e <;> rfl

theorem level_parenthesised (e : WrittenExpr) : e.parenthesised.level = 0 := by
  cases e <;> rfl

theorem level_parenthesised_le (e : WrittenExpr) (n : Nat) : e.parenthesised.level ≤ n := by
  rw [level_parenthesised]
  exact Nat.zero_le n

section

variable {e : WrittenExpr} (h : Narrows (e.typedTree false) (e.inner.typedTree false))
include h

theorem narrows_typedTree :
    Narrows (e.typedTree false) (e.parenthesised.typedTree false) := by
  unfold parenthesised grouped
  split
  · rw [typedTree_parens, operand]
    split
    · exact h.trans (.bounded _)
    · exact h
  · exact h

theorem narrows_tree : Narrows e.tree e.parenthesised.tree := by
  have inside := narrows_typedTree h
  rw [tree, tree, operand, operand, if_pos e.level_parenthesised]
  split
  · exact inside.bind fun _ => .refl _
  · exact inside.trans (.bounded _)

end

mutual

/-- Parentheses around the parts of an expression change nothing but what is too high. -/
theorem narrows_inner : (e : WrittenExpr) → (called : Bool) →
    Narrows (e.typedTree called) (e.inner.typedTree called)
  | name _, _ | int .., _ => by
    rw [inner]
    exact .refl _
  | call callee args, _ => by
    rw [inner, typedTree, typedTree]
    exact (narrows_inner callee true).bind fun _ => .bind (.refl _) fun _ =>
      (narrows_innerAll args).bind fun _ => .refl _
  | parens e, _ => by
    rw [inner, typedTree, typedTree, operand, operand, level_inner]
    split
    · exact (narrows_inner e false).bind fun _ => .refl _
    · exact narrows_inner e false
  | unary op e, _ => by
    rw [inner, typedTree, typedTree]
    exact (narrows_typedTree (narrows_inner e false)).bind fun _ => .refl _
  | binary op l r, _ => by
    rw [inner, typedTree, typedTree]
    exact (narrows_tree (narrows_inner l false)).bind fun _ =>
      (narrows_tree (narrows_inner r false)).bind fun _ => .refl _
  | conditional c t f, _ => by
    rw [inner, typedTree, typedTree]
    exact (narrows_tree (narrows_inner c false)).bind fun _ =>
      (narrows_tree (narrows_inner t false)).bind fun _ =>
        (narrows_tree (narrows_inner f false)).bind fun _ => .refl _
  | assign op? target value, _ => by
    rw [inner, typedTree, typedTree]
    exact (narrows_tree (narrows_inner target false)).bind fun _ => .bind (.refl _) fun _ =>
      (narrows_tree (narrows_inner value false)).bind fun _ => .refl _

theorem narrows_innerAll : (es : List WrittenExpr) →
    Narrows (typedTrees es) (typedTrees (innerAll es))
  | [] => .refl _
  | e :: es => by
    rw [innerAll, typedTrees, typedTrees]
    exact (narrows_tree (narrows_inner e false)).bind fun _ =>
      (narrows_innerAll es).bind fun _ => .refl _

end

/-- All parentheses change nothing but what is too high. -/
theorem narrows_parenthesised (e : WrittenExpr) : Narrows e.tree e.parenthesised.tree :=
  narrows_tree (e.narrows_inner false)

/-! ### Expressions with all parentheses -/

theorem isPostfix_inner (e : WrittenExpr) : e.inner.isPostfix = e.isPostfix := by
  cases e <;> simp only [inner, isPostfix]

theorem Derivable.grouped {P : String → Prop} {e inner : WrittenExpr} (h : Derivable P inner) :
    Derivable P (e.grouped inner) := by
  unfold WrittenExpr.grouped
  split
  · exact h
  · exact h

mutual

theorem Derivable.inner {P : String → Prop} : (e : WrittenExpr) → Derivable P e →
    Derivable P e.inner
  | name _, h | int .., h => h
  | call callee args, h =>
    ⟨(isPostfix_inner callee).trans h.1, Derivable.inner callee h.2.1,
      Derivable.innerAll args h.2.2⟩
  | parens e, h => Derivable.inner e h
  | unary _ e, h => ⟨e.level_parenthesised, (Derivable.inner e h.2).grouped⟩
  | binary op l r, ⟨_, _, hl, hr⟩ =>
    ⟨l.level_parenthesised_le _, Nat.lt_of_le_of_lt (r.level_parenthesised_le 0) op.level_pos,
      (Derivable.inner l hl).grouped, (Derivable.inner r hr).grouped⟩
  | conditional c t f, ⟨_, _, hc, ht, hf⟩ =>
    ⟨Nat.lt_succ_of_le (c.level_parenthesised_le _), f.level_parenthesised_le _,
      (Derivable.inner c hc).grouped, (Derivable.inner t ht).grouped,
      (Derivable.inner f hf).grouped⟩
  | assign _ target value, ⟨_, ht, hv⟩ =>
    ⟨target.level_parenthesised, (Derivable.inner target ht).grouped,
      (Derivable.inner value hv).grouped⟩

theorem Derivable.innerAll {P : String → Prop} : (es : List WrittenExpr) → DerivableAll P es →
    DerivableAll P (innerAll es)
  | [], h => h
  | e :: es, h => ⟨(Derivable.inner e h.1).grouped, Derivable.innerAll es h.2⟩

end

theorem Derivable.parenthesised {P : String → Prop} {e : WrittenExpr} (h : Derivable P e) :
    Derivable P e.parenthesised := (Derivable.inner e h).grouped

/-! ### Nesting -/

mutual

/-- How deep an expression nests. -/
def levels : WrittenExpr → Nat
  | name _ | int .. => 1
  | call callee args => max (levels callee) (levelsAll args)
  | parens e => levels e + 2
  | unary _ e => levels e + 1
  | binary _ l r => max (levels l) (levels r)
  | conditional c t f => max (levels c) (max (levels t) (levels f) + 1)
  | assign _ target value => max (levels target) (levels value + 1)

def levelsAll : List WrittenExpr → Nat
  | [] => 0
  | e :: es => max (levels e + 2) (levelsAll es)

end

theorem levels_le_of_mem {e : WrittenExpr} {es : List WrittenExpr} (member : e ∈ es) :
    e.levels + 2 ≤ levelsAll es := by
  induction es with
  | nil => cases member
  | cons e' es ih =>
      rw [levelsAll]
      rcases List.mem_cons.mp member with rfl | member
      · exact Nat.le_max_left ..
      · exact Nat.le_trans (ih member) (Nat.le_max_right ..)

theorem levels_pos : (e : WrittenExpr) → 0 < e.levels
  | name _ | int .. | parens _ | unary .. => Nat.succ_pos _
  | call callee _ => Nat.lt_of_lt_of_le callee.levels_pos (Nat.le_max_left ..)
  | binary _ l _ => Nat.lt_of_lt_of_le l.levels_pos (Nat.le_max_left ..)
  | conditional c _ _ => Nat.lt_of_lt_of_le c.levels_pos (Nat.le_max_left ..)
  | assign _ target _ => Nat.lt_of_lt_of_le target.levels_pos (Nat.le_max_left ..)

theorem levels_grouped (e inner : WrittenExpr) : inner.levels ≤ (e.grouped inner).levels := by
  unfold grouped
  split
  · exact Nat.le_add_right ..
  · exact Nat.le_refl _

mutual

/-- More parentheses nest deeper. -/
theorem levels_inner : (e : WrittenExpr) → e.levels ≤ e.inner.levels
  | name _ | int .. => Nat.le_refl _
  | call callee args => by
    have left := levels_inner callee
    have right := levels_innerAll args
    simp only [inner, levels]
    omega
  | parens e => by
    have inside := levels_inner e
    simp only [inner, levels]
    omega
  | unary op e => by
    have inside := Nat.le_trans (levels_inner e) (e.levels_grouped _)
    simp only [inner, levels]
    omega
  | binary op l r => by
    have left := Nat.le_trans (levels_inner l) (l.levels_grouped _)
    have right := Nat.le_trans (levels_inner r) (r.levels_grouped _)
    simp only [inner, levels]
    omega
  | conditional c t f => by
    have first := Nat.le_trans (levels_inner c) (c.levels_grouped _)
    have second := Nat.le_trans (levels_inner t) (t.levels_grouped _)
    have third := Nat.le_trans (levels_inner f) (f.levels_grouped _)
    simp only [inner, levels]
    omega
  | assign op? target value => by
    have left := Nat.le_trans (levels_inner target) (target.levels_grouped _)
    have right := Nat.le_trans (levels_inner value) (value.levels_grouped _)
    simp only [inner, levels]
    omega

theorem levels_innerAll : (es : List WrittenExpr) → levelsAll es ≤ levelsAll (innerAll es)
  | [] => Nat.le_refl _
  | e :: es => by
    have first := Nat.le_trans (levels_inner e) (e.levels_grouped _)
    have others := levels_innerAll es
    simp only [innerAll, levelsAll]
    omega

end

theorem levels_parenthesised (e : WrittenExpr) : e.levels ≤ e.parenthesised.levels :=
  Nat.le_trans e.levels_inner (e.levels_grouped _)

end WrittenExpr

end LiveC
