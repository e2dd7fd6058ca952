import LiveC.Proofs.ExpressionReading

/-!
Precedence and associativity. Each form of expression is read from its parts, and so every
expression is, with the parentheses that it is written with and with all parentheses.
-/

namespace LiveC

theorem Operator.apply_bare (op : Operator) (l r : Expr) (loc : Location) :
    Typing.Bare Expr.bare (op.apply l r loc) (op.apply l.bare r.bare .nowhere) := by
  cases op with
  | logic op => exact Expr.logical_bare ..
  | compare op =>
      unfold apply
      rw [← Expr.rvalue_bare, ← Expr.rvalue_bare]
      exact Expr.comparison_bare ..
  | arith op =>
      unfold apply
      rw [← Expr.rvalue_bare, ← Expr.rvalue_bare]
      exact Expr.arithmetic_bare ..

theorem PrefixOperator.apply_bare (op : PrefixOperator) (e : Expr) (loc : Location) :
    Typing.Bare Expr.bare (op.apply e loc) (op.apply e.bare .nowhere) := by
  cases op with
  | increment | decrement => exact Expr.stepNode_bare ..
  | size =>
      unfold apply
      rw [e.ty_bare]
      exact Expr.sizeOf_bare ..
  | address => exact Expr.address_bare ..
  | indirection => exact Expr.indirection_bare ..
  | plus => exact Expr.plus_bare ..
  | minus => exact Expr.negation_bare ..
  | complement => exact Expr.complement_bare ..
  | not => exact Expr.logicalNot_bare ..

theorem assignmentNode_bare (op? : Option BinaryOp) (target value : Expr) (loc : Location) :
    Typing.Bare Expr.bare (assignmentNode op? target value loc)
      (assignmentNode op? target.bare value.bare .nowhere) := by
  cases op? with
  | none => exact Expr.assignment_bare ..
  | some op => exact Expr.opAssignment_bare ..

namespace Parser

variable {P : String → Prop} {e l r c t f : WrittenExpr} {es : List WrittenExpr}

/-! ### Postfix expressions -/

theorem readsPostfix_name (x : String) : ReadsPostfix P (.name x) := by
  intro n ts tail _ kinds
  obtain ⟨loc, others, rfl, empty⟩ := exists_token kinds
  obtain rfl := List.map_eq_nil_iff.mp empty
  exact (Mirrors.tracks (identifier_mirrors x loc) _).step fun _ _ => rfl

theorem readsPostfix_int (value : Nat) (unsigned long decimal : Bool) :
    ReadsPostfix P (.int value unsigned long decimal) := by
  intro n ts tail _ kinds
  obtain ⟨loc, others, rfl, empty⟩ := exists_token kinds
  obtain rfl := List.map_eq_nil_iff.mp empty
  have number : Mirrors P Expr.bare (do
      let ty := IntType.ofLiteral value unsigned long decimal
      if !ty.fits value then warn loc .constantTooLarge
      return .int ⟨.int ty, loc⟩ (BitVec.ofNat 64 value))
      (WrittenExpr.typedInt value unsigned long decimal) [] tail :=
    .ite (fun _ => Mirrors.next (warn_mirrors ..) fun _ => Mirrors.pure rfl) fun _ =>
      Mirrors.pure rfl
  exact (Mirrors.tracks number _).step fun _ _ => rfl

/-- An expression in front of what is no comma. -/
theorem ReadsAssignment.expression (h : ReadsAssignment P e) {n : Nat} {ts tail : List Token}
    (low : e.levels + 1 ≤ n) (kinds : ts.map Token.kind = e.kinds) (ends : EndsExpression 13 tail) :
    Mirrors P Expr.bare (expression (productions n)) e.tree ts tail := by
  obtain ⟨n, rfl⟩ : ∃ k, n = k + 1 := ⟨n - 1, by omega⟩
  have read := h n ts tail (by omega) kinds (ends.mono (by omega))
  have stops (a : Expr) (s : ParserState) :
      commaStep (productions (n + 1)) a (s.before tail) = .ok (.done a) (s.before tail) :=
    (bind_ok (check_else (ends.front_ne rfl (Nat.le_refl _)))).trans rfl
  exact (Mirrors.tracks read _).then fun a s => iterate_done (stops a s)

theorem ReadsAssignment.parens (h : ReadsAssignment P e) : ReadsPostfix P (.parens e) := by
  intro n ts tail low kinds
  obtain ⟨opening, ts, rfl, inside⟩ := exists_token kinds
  obtain ⟨front, back, rfl, first, last⟩ := List.map_eq_append_iff.mp inside
  obtain ⟨closing, empty, rfl, none⟩ := exists_token last
  obtain rfl := List.map_eq_nil_iff.mp none
  have ends : EndsExpression 13 (⟨.punct .rparen, closing⟩ :: tail) := .cons rfl nofun
  have closed (a : Expr) (s : ParserState) :
      (do expect .rparen; return a : Parser Expr) (s.before (⟨.punct .rparen, closing⟩ :: tail)) =
        (pure a : Parser Expr) (s.before tail) := bind_ok (expect_here rfl)
  rw [WrittenExpr.levels] at low
  have read := h.expression (n := n) (by omega) first ends
  have inner : Mirrors P Expr.bare (primary (productions n)) e.tree
      (⟨.punct .lparen, opening⟩ :: (front ++ [⟨.punct .rparen, closing⟩])) tail :=
    ((Mirrors.tracks read _).passes closed).step fun _ _ => rfl
  exact Mirrors.tracks inner _

/-! ### Calls -/

/-- What stands behind an argument. -/
def argumentsBehind (g : Productions) (args : List (Location × Expr)) :
    Parser (List (Location × Expr)) := do
  if ← eat .comma then loop (argumentStep g) args
  else
    expect .rparen
    return args

theorem argumentsBehind_eq (g : Productions) (args : List (Location × Expr)) :
    argumentsBehind g args = ((do
      if ← eat .comma then return ForInStep.yield args
      else
        expect .rparen
        return ForInStep.done args) >>= again (argumentStep g)) := by
  rw [argumentsBehind, bind_assoc]
  congr
  funext more
  cases more with
  | true => rfl
  | false =>
      simp only [Bool.false_eq_true, if_false, bind_assoc, pure_bind]
      rfl

theorem loop_argument {g : Productions} (moving : g.Moving anywhere.toTransition)
    (args : List (Location × Expr)) (s : ParserState) :
    loop (argumentStep g) args s =
      (do argumentsBehind g (args ++ [(s.front.loc, ← g.assignment)])) s := by
  rw [loop_eq_step (argumentStep_spends moving args)]
  simp only [argumentsBehind_eq, ← bind_assoc]
  rfl

theorem argumentsBehind_rparen {g : Productions} (args : List (Location × Expr)) (s : ParserState)
    {close : Token} (closes : close.kind = .punct .rparen) (tail : List Token) :
    argumentsBehind g args (s.before (close :: tail)) = .ok args (s.before tail) := by
  obtain ⟨_, loc⟩ := close
  cases closes
  rfl

theorem argumentsBehind_comma {g : Productions} (args : List (Location × Expr)) (s : ParserState)
    (loc : Location) (ts : List Token) :
    argumentsBehind g args (s.before (⟨.punct .comma, loc⟩ :: ts)) =
      loop (argumentStep g) args (s.before ts) := rfl

/-- What arguments behind others come to. -/
def furtherTrees (args : List (Location × Expr)) (es : List WrittenExpr) :
    Parser (List (Location × Expr)) := do
  return args ++ (← WrittenExpr.typedTrees es)

theorem furtherTrees_nil (args : List (Location × Expr)) : furtherTrees args [] = pure args := by
  rw [furtherTrees, WrittenExpr.typedTrees, pure_bind, List.append_nil]

theorem furtherTrees_cons (args : List (Location × Expr)) (e : WrittenExpr)
    (es : List WrittenExpr) :
    furtherTrees args (e :: es) =
      (do furtherTrees (args ++ [(.nowhere, ← e.tree)]) es) := by
  simp only [furtherTrees, WrittenExpr.typedTrees, WrittenExpr.tree, bind_assoc, pure_bind,
    List.append_assoc, List.cons_append, List.nil_append]

/-- Reading an argument up to what stands behind it. -/
theorem ReadsAssignment.argument (h : ReadsAssignment P e) (derivable : e.Derivable P) {n : Nat}
    {ts tail : List Token} (low : e.levels ≤ n) (kinds : ts.map Token.kind = e.kinds)
    (ends : EndsExpression 12 tail) (args : List (Location × Expr)) : ∃ loc,
      Tracks P Expr.bare (loop (argumentStep (productions (n + 1))) args) e.tree
        (fun a => argumentsBehind (productions (n + 1)) (args ++ [(loc, a)])) ts tail := by
  obtain ⟨k, ks, first, -⟩ := e.exists_starts derivable
  obtain ⟨loc, others, rfl, -⟩ := exists_token (kinds.trans first)
  refine ⟨loc, (Mirrors.tracks (h n _ tail low kinds ends) _).step fun s _ => ?_⟩
  exact loop_argument (productions_moving (n + 1)) args _

theorem loop_arguments {n : Nat} (tail : List Token) {close : Token}
    (closes : close.kind = .punct .rparen) : (e : WrittenExpr) → (es : List WrittenExpr) →
    (∀ e' ∈ e :: es, e'.Derivable P ∧ e'.levels ≤ n ∧ ReadsAssignment P e') →
    (args : List (Location × Expr)) → (ts : List Token) →
    ts.map Token.kind = WrittenExpr.kindsAll (e :: es) →
    Mirrors P (List.map Expr.bareArgument) (loop (argumentStep (productions (n + 1))) args)
      (furtherTrees (args.map Expr.bareArgument) (e :: es)) (ts ++ [close]) tail
  | e, [], reads, args, ts, kinds => by
    obtain ⟨derivable, low, read⟩ := reads e (.head _)
    have ends : EndsExpression 12 (close :: tail) := .cons closes nofun
    obtain ⟨loc, read⟩ := read.argument derivable low kinds ends args
    have last : Tracks P Expr.bare (loop (argumentStep (productions (n + 1))) args) e.tree
        (fun a => pure (args ++ [(loc, a)])) (ts ++ [close]) tail :=
      read.passes fun a s => argumentsBehind_rparen _ s closes tail
    have values (a : Expr) : Mirrors P (List.map Expr.bareArgument) (pure (args ++ [(loc, a)]))
        (furtherTrees (args.map Expr.bareArgument ++ [(.nowhere, a.bare)]) []) [] tail := by
      rw [furtherTrees_nil]
      exact Mirrors.pure (by simp [Expr.bareArgument])
    rw [furtherTrees_cons, ← List.append_nil (ts ++ [close])]
    exact last.trans values
  | e, e' :: es, reads, args, ts, kinds => by
    obtain ⟨derivable, low, read⟩ := reads e (.head _)
    obtain ⟨front, back, rfl, first, second⟩ := List.map_eq_append_iff.mp kinds
    obtain ⟨place, back, rfl, third⟩ := exists_token second
    have ends : EndsExpression 12 (⟨.punct .comma, place⟩ :: (back ++ [close] ++ tail)) :=
      .cons rfl fun _ goes => by
        cases goes
        decide
    obtain ⟨loc, read⟩ := read.argument derivable low first ends args
    have more : Tracks P Expr.bare (loop (argumentStep (productions (n + 1))) args) e.tree
        (fun a => loop (argumentStep (productions (n + 1))) (args ++ [(loc, a)]))
        (front ++ [⟨.punct .comma, place⟩]) (back ++ [close] ++ tail) :=
      read.passes fun a s => argumentsBehind_comma ..
    have others (a : Expr) : Mirrors P (List.map Expr.bareArgument)
        (loop (argumentStep (productions (n + 1))) (args ++ [(loc, a)]))
        (furtherTrees (args.map Expr.bareArgument ++ [(.nowhere, a.bare)]) (e' :: es))
        (back ++ [close]) tail := by
      have others := loop_arguments tail closes e' es (fun e member => reads e (.tail _ member))
        (args ++ [(loc, a)]) back third
      rwa [List.map_append] at others
    have tokens : front ++ ⟨.punct .comma, place⟩ :: back ++ [close] =
        front ++ [⟨.punct .comma, place⟩] ++ (back ++ [close]) := by
      simp only [List.append_assoc, List.cons_append, List.nil_append]
    rw [furtherTrees_cons, tokens]
    exact more.trans others

theorem readsArguments
    (reads : ∀ e ∈ es, e.Derivable P ∧ ReadsAssignment P e) : ReadsArguments P es := by
  intro n ts tail close low kinds closes
  obtain ⟨_, closing⟩ := close
  cases closes
  cases es with
  | nil =>
      obtain rfl := List.map_eq_nil_iff.mp kinds
      have none : Mirrors P (List.map Expr.bareArgument) (pure []) (pure []) [] tail :=
        Mirrors.pure rfl
      exact none.step fun _ _ => rfl
  | cons e es =>
      have deep (e' : WrittenExpr) (member : e' ∈ e :: es) : e'.levels + 2 ≤ n + 1 :=
        Nat.le_trans (WrittenExpr.levels_le_of_mem member) low
      obtain ⟨n, rfl⟩ : ∃ k, n = k + 1 := ⟨n - 1, by have := deep e (.head _); omega⟩
      have each (e' : WrittenExpr) (member : e' ∈ e :: es) :
          e'.Derivable P ∧ e'.levels ≤ n ∧ ReadsAssignment P e' := by
        have ⟨derivable, read⟩ := reads e' member
        have low := deep e' member
        exact ⟨derivable, by omega, read⟩
      have closes : (⟨.punct .rparen, closing⟩ : Token).kind = .punct .rparen := rfl
      have all := loop_arguments tail closes e es each [] ts kinds
      have trees : furtherTrees [] (e :: es) = WrittenExpr.typedTrees (e :: es) := by
        simp [furtherTrees]
      rw [List.map_nil, trees] at all
      obtain ⟨k, ks, first, starts⟩ := e.exists_starts (reads e (.head _)).1
      obtain ⟨loc, others, rfl⟩ : ∃ loc others, ts = ⟨k, loc⟩ :: others := by
        cases es with
        | nil =>
            obtain ⟨loc, others, same, -⟩ := exists_token (kinds.trans first)
            exact ⟨loc, others, same⟩
        | cons e' es =>
            rw [WrittenExpr.kindsAll, first] at kinds
            obtain ⟨loc, others, same, -⟩ := exists_token kinds
            exact ⟨loc, others, same⟩
      exact all.step fun s _ => bind_ok
        (eat_else (s := s.before (⟨k, loc⟩ :: (others ++ [_] ++ tail))) starts.ne_rparen)

theorem ReadsPostfix.call (h : ReadsPostfix P e) (args : ReadsArguments P es) :
    ReadsPostfix P (.call e es) := by
  intro n ts tail low kinds
  obtain ⟨front, back, rfl, first, second⟩ := List.map_eq_append_iff.mp kinds
  obtain ⟨opening, back, rfl, third⟩ := exists_token second
  obtain ⟨inside, last, rfl, listed, closed⟩ := List.map_eq_append_iff.mp third
  obtain ⟨closing, empty, rfl, none⟩ := exists_token closed
  obtain rfl := List.map_eq_nil_iff.mp none
  have moving := productions_moving (T := anywhere.toTransition) n
  obtain ⟨left, right⟩ := Nat.max_le.mp low
  have callee := h n front
    (⟨.punct .lparen, opening⟩ :: (inside ++ [⟨.punct .rparen, closing⟩]) ++ tail) left first
  refine callee.trans fun a => ?_
  have arguments := args n inside tail ⟨.punct .rparen, closing⟩ right listed rfl
  have node : Mirrors P Expr.bare (Parser.call (productions n) a opening) (do
      let callee ← typed (a.bare.callee .nowhere)
      let args ← WrittenExpr.typedTrees es
      typed (Expr.callNode callee args .nowhere)) (inside ++ [⟨.punct .rparen, closing⟩]) tail :=
    Mirrors.first (Mirrors.typed (Expr.callee_bare ..)) fun c =>
      Mirrors.next arguments fun values => Mirrors.typed (Expr.callNode_bare ..)
  refine (Mirrors.tracks node _).step fun s _ => ?_
  refine loop_yielded rfl fun e u run => ?_
  exact Nat.lt_succ_of_le (Forward.length_le (call_moves moving a opening) run)

/-! ### Operators -/

theorem ReadsUnary.unary (h : ReadsUnary P e) (level : e.level = 0) (derivable : e.Derivable P)
    (op : PrefixOperator) : ReadsUnary P (.unary op e) := by
  intro n ts tail low kinds ends
  obtain ⟨loc, ts, rfl, behind⟩ := exists_token kinds
  rw [WrittenExpr.levels] at low
  obtain ⟨n, rfl⟩ : ∃ k, n = k + 1 := ⟨n - 1, by have := e.levels_pos; omega⟩
  have low : e.levels ≤ n + 1 := Nat.le_of_succ_le_succ low
  have node (p : Parser Expr) (read : Mirrors P Expr.bare p (e.typedTree false) ts tail) :
      Mirrors P Expr.bare (do typed (op.apply (← p) loc))
        ((WrittenExpr.unary op e).typedTree false) ts tail :=
    read.next fun a => Mirrors.typed (op.apply_bare a loc)
  have step := node _ (h n ts tail low behind ends)
  have cast := node _ (h.cast level derivable low behind ends)
  cases op with
  | increment | decrement => exact step.step fun _ _ => rfl
  | size =>
      -- a parenthesis behind the keyword is part of the operand
      exact step.step fun s untyped =>
        bind_ok (e.atTypeName_false level derivable untyped behind tail)
  | _ => exact cast.step fun _ _ => rfl

theorem ReadsBinary.binary (hl : ReadsBinary P l) (hr : ReadsBinary P r) {op : Operator}
    (left : l.level ≤ op.level) (right : r.level < op.level) :
    ReadsBinary P (.binary op l r) := by
  intro n m ts tail low le kinds ends
  obtain ⟨front, back, rfl, first, second⟩ := List.map_eq_append_iff.mp kinds
  obtain ⟨loc, back, rfl, third⟩ := exists_token second
  obtain ⟨lowl, lowr⟩ := Nat.max_le.mp low
  rw [WrittenExpr.level] at le ends
  have moving := productions_moving (T := anywhere.toTransition) n
  have positive := op.level_pos
  have endsLeft : EndsExpression (l.level - 1) (⟨.punct op.punct, loc⟩ :: back ++ tail) :=
    .cons rfl fun k goes => by
      cases op.continues?_punct.symm.trans goes
      omega
  have first := hl n m front _ lowl (by omega) first endsLeft
  rw [WrittenExpr.tree_binary]
  refine first.trans fun a => ?_
  have operand : Mirrors P Expr.bare (Parser.binary (productions n) (op.level - 1)) r.tree
      back tail :=
    (hr n (op.level - 1) back tail lowr (by omega) third (ends.mono (by omega))).then fun a s =>
      operators_blocked (ends.blocked s)
  have node : Mirrors P Expr.bare (do
      let r ← Parser.binary (productions n) (op.level - 1)
      bounded (← typed (op.apply a r loc))) (do
      let r ← r.tree
      bounded (← typed (op.apply a.bare r .nowhere))) back tail :=
    operand.next fun r => Mirrors.next (Mirrors.typed (op.apply_bare a r loc)) fun e =>
      Mirrors.bounded e
  refine (Mirrors.tracks node _).step fun s _ => ?_
  have seen : (s.before (⟨.punct op.punct, loc⟩ :: back ++ tail)).operator? = some op :=
    op.ofPunct?_punct
  rw [operators_operator moving seen (by omega)]
  rfl

/-! ### Conditionals and assignments -/

theorem ReadsBinary.choice (hc : ReadsBinary P c) (ht : ReadsAssignment P t)
    (hf : ReadsConditional P f) (level : c.level < 11) :
    ReadsConditional P (.conditional c t f) := by
  intro n ts tail low kinds ends
  obtain ⟨front, back, rfl, first, second⟩ := List.map_eq_append_iff.mp kinds
  obtain ⟨loc, back, rfl, behind⟩ := exists_token second
  obtain ⟨middle, last, rfl, third, fourth⟩ := List.map_eq_append_iff.mp behind
  obtain ⟨place, last, rfl, fifth⟩ := exists_token fourth
  rw [WrittenExpr.levels] at low
  obtain ⟨n, rfl⟩ : ∃ k, n = k + 1 := ⟨n - 1, by omega⟩
  have endsCondition : EndsExpression 10
      (⟨.punct .question, loc⟩ :: (middle ++ ⟨.punct .colon, place⟩ :: last) ++ tail) :=
    .cons rfl fun _ goes => by
      cases goes
      decide
  have condition := (hc (n + 1) 10 front _ (by omega) (by omega) first
    (endsCondition.mono (by omega))).then fun a s => operators_blocked (endsCondition.blocked s)
  have endsChosen : EndsExpression 13 (⟨.punct .colon, place⟩ :: (last ++ tail)) := .cons rfl nofun
  have chosen := ht.expression (n := n + 1) (by omega) third endsChosen
  have other := hf n last tail (by omega) fifth ends
  have node (a : Expr) : Mirrors P Expr.bare (do
      let t ← expression (productions (n + 1))
      expect .colon
      let f ← Parser.conditional (productions n)
      typed (Expr.conditional a t f loc)) (do
      let t ← t.tree
      let f ← f.tree
      typed (Expr.conditional a.bare t f .nowhere))
      (middle ++ [⟨.punct .colon, place⟩] ++ last) tail := by
    refine ((Mirrors.tracks chosen _).passes (fun b s => bind_ok (expect_here rfl))).trans
      fun b => ?_
    exact Mirrors.next other fun d => Mirrors.typed (Expr.conditional_bare ..)
  rw [WrittenExpr.tree_conditional]
  refine Mirrors.bind condition fun a => ?_
  refine (node a).step fun s _ => ?_
  rw [List.append_assoc middle]
  rfl

theorem ReadsConditional.assign (ht : ReadsConditional P t) (hv : ReadsAssignment P e)
    (op? : Option BinaryOp) : ReadsAssignment P (.assign op? t e) := by
  intro n ts tail low kinds ends
  obtain ⟨front, back, rfl, first, second⟩ := List.map_eq_append_iff.mp kinds
  obtain ⟨loc, back, rfl, behind⟩ := exists_token second
  rw [WrittenExpr.levels] at low
  obtain ⟨n, rfl⟩ : ∃ k, n = k + 1 := ⟨n - 1, by omega⟩
  have endsTarget : EndsExpression 11 (⟨.punct (assignmentPunct op?), loc⟩ :: back ++ tail) :=
    .cons rfl fun _ goes => by
      cases (continues?_assignmentPunct op?).symm.trans goes
      decide
  have target := ht (n + 1) front _ (by omega) first endsTarget
  have value := hv n back tail (by omega) behind ends
  have node (a : Expr) : Mirrors P Expr.bare (do
      typed (a.requireAssignable loc)
      let value ← Parser.assignment (productions n)
      typed (assignmentNode op? a value loc)) (do
      typed (a.bare.requireAssignable .nowhere)
      let value ← e.tree
      typed (assignmentNode op? a.bare value .nowhere)) back tail :=
    Mirrors.first (Mirrors.typed (Expr.requireAssignable_bare ..)) fun _ =>
      Mirrors.next value fun b => Mirrors.typed (assignmentNode_bare ..)
  rw [WrittenExpr.tree_assign]
  refine Mirrors.bind target fun a => ?_
  refine (node a).step fun s _ => ?_
  refine (bind_ok (peekPunct?_run _)).trans ?_
  have seen : (s.before (⟨.punct (assignmentPunct op?), loc⟩ :: back ++ tail)).punct?.bind
      Punct.assignmentOp? = some op? := assignmentOp?_assignmentPunct op?
  rw [seen]
  cases op? <;> rfl

/-! ### All expressions -/

/-- An expression is read wherever its level allows it to stand. -/
structure ReadsAll (P : String → Prop) (e : WrittenExpr) : Prop where
  post : e.isPostfix = true → ReadsPostfix P e
  unary : e.level = 0 → ReadsUnary P e
  binary : e.level ≤ 10 → ReadsBinary P e
  conditional : e.level ≤ 11 → ReadsConditional P e
  assignment : ReadsAssignment P e

namespace ReadsAll

theorem of_isPostfix (derivable : e.Derivable P) (post : e.isPostfix = true)
    (h : ReadsPostfix P e) : ReadsAll P e := by
  have level := WrittenExpr.level_of_isPostfix post
  have unary := h.unary post derivable
  have binary := unary.binary level derivable
  have conditional := binary.conditional (by omega)
  exact ⟨fun _ => h, fun _ => unary, fun _ => binary, fun _ => conditional, conditional.assignment⟩

theorem of_unary {op : PrefixOperator} (derivable : (WrittenExpr.unary op e).Derivable P)
    (h : ReadsUnary P (.unary op e)) : ReadsAll P (.unary op e) := by
  have binary := h.binary rfl derivable
  have conditional := binary.conditional (Nat.zero_le _)
  exact ⟨nofun, fun _ => h, fun _ => binary, fun _ => conditional, conditional.assignment⟩

theorem of_binary {op : Operator} (h : ReadsBinary P (.binary op l r)) :
    ReadsAll P (.binary op l r) := by
  have conditional := h.conditional op.level_le
  refine ⟨nofun, fun level => ?_, fun _ => h, fun _ => conditional, conditional.assignment⟩
  exact absurd level (Nat.ne_of_gt op.level_pos)

theorem of_conditional (h : ReadsConditional P (.conditional c t f)) :
    ReadsAll P (.conditional c t f) :=
  ⟨nofun, nofun, fun level => absurd level (Nat.not_succ_le_self 10), fun _ => h, h.assignment⟩

theorem of_assign {op? : Option BinaryOp} (h : ReadsAssignment P (.assign op? t e)) :
    ReadsAll P (.assign op? t e) :=
  ⟨nofun, nofun, fun level => absurd (Nat.le_succ_of_le level) (Nat.not_succ_le_self 11),
    fun level => absurd level (Nat.not_succ_le_self 11), h⟩

end ReadsAll

mutual

/-- Every expression that the grammar derives is read. -/
theorem readsAll : (e : WrittenExpr) → e.Derivable P → ReadsAll P e
  | .name x, derivable => .of_isPostfix derivable rfl (readsPostfix_name x)
  | .int value unsigned long decimal, derivable =>
    .of_isPostfix derivable rfl (readsPostfix_int value unsigned long decimal)
  | .call callee args, derivable =>
    have ⟨post, left, right⟩ := derivable
    .of_isPostfix derivable rfl
      (((readsAll callee left).post post).call (readsArguments (readsAll_of_mem args right)))
  | .parens e, derivable => .of_isPostfix derivable rfl (readsAll e derivable).assignment.parens
  | .unary op e, derivable =>
    have ⟨level, inside⟩ := derivable
    .of_unary derivable (((readsAll e inside).unary level).unary level inside op)
  | .binary op l r, ⟨left, right, hl, hr⟩ =>
    have bound := op.level_le
    .of_binary (((readsAll l hl).binary (Nat.le_trans left bound)).binary
      ((readsAll r hr).binary (Nat.le_trans (Nat.le_of_lt right) bound)) left right)
  | .conditional _ t f, ⟨condition, other, hc, ht, hf⟩ =>
    .of_conditional (((readsAll _ hc).binary (Nat.le_of_lt_succ condition)).choice
      (readsAll t ht).assignment ((readsAll f hf).conditional other) condition)
  | .assign op? target value, ⟨level, ht, hv⟩ =>
    .of_assign (((readsAll target ht).conditional (by omega)).assign
      (readsAll value hv).assignment op?)

theorem readsAll_of_mem : (es : List WrittenExpr) → WrittenExpr.DerivableAll P es →
    ∀ e ∈ es, e.Derivable P ∧ ReadsAssignment P e
  | [], _ => List.forall_mem_nil _
  | e :: es, ⟨first, others⟩ =>
    List.forall_mem_cons.mpr ⟨⟨first, (readsAll e first).assignment⟩, readsAll_of_mem es others⟩

end

/-! ### Runs -/

abbrev ExprResult := EStateM.Result SourceFault ParserState Expr

/-- A run comes to a typed tree and stands in front of some tokens, or it refuses for a reason. The
tree, the state and the reason are given without places. -/
inductive ComesTo (tail : List Token) : (without result : ExprResult) → Prop
  | ok (e : Expr) (t : ParserState) : ComesTo tail (.ok e.bare t.bare) (.ok e (t.before tail))
  | error (x : SourceFault) (t u : ParserState) : ComesTo tail (.error x.bare u) (.error x t)

/-- Two runs come to the same tree in the same state, each in front of its tokens, or refuse for the
same reason. Only places differ. -/
inductive Alike (tail tail' : List Token) : (one other : ExprResult) → Prop
  | ok {a b : Expr} {t u : ParserState} (tree : a.bare = b.bare) (state : t.bare = u.bare) :
      Alike tail tail' (.ok a (t.before tail)) (.ok b (u.before tail'))
  | error {x y : SourceFault} (t u : ParserState) (reason : x.bare = y.bare) :
      Alike tail tail' (.error x t) (.error y u)

/-- A run that finds an expression too high. -/
def FindsTooDeep (r : ExprResult) : Prop := ∃ loc t, r = .error (.form loc .expressionTooDeep) t

/-- A run that comes to something. -/
def Succeeds (r : ExprResult) : Bool := r matches .ok ..

theorem Mirrors.comesTo {p b : Parser Expr} {ts tail : List Token}
    (h : Mirrors P Expr.bare p b ts tail) {s : ParserState} (untyped : s.Untyped P) :
    ComesTo tail (b s.bare) (p (s.before (ts ++ tail))) := by
  have read := h.run s untyped
  cases run : b s.bare with
  | ok v u =>
      rw [run] at read
      obtain ⟨a, t, rfl, rfl, -, read⟩ := read
      rw [read]
      exact .ok a t
  | error y u =>
      rw [run] at read
      obtain ⟨x, t, rfl, failed⟩ := read
      rw [failed]
      exact .error x t u

section

variable {tail tail' : List Token} {v r r' : ExprResult}

theorem ComesTo.succeeds (h : ComesTo tail v r) : Succeeds r = Succeeds v := by
  cases h <;> rfl

theorem ComesTo.alike (h : ComesTo tail v r) (h' : ComesTo tail' v r') : Alike tail tail' r r' := by
  generalize same : v = w at h'
  cases h with
  | ok e t =>
      cases h' with
      | ok e' t' =>
          obtain ⟨tree, state⟩ := EStateM.Result.ok.inj same
          exact .ok tree state
      | error x' t' u' => cases same
  | error x t u =>
      cases h' with
      | ok e' t' => cases same
      | error x' t' u' => exact .error t t' (EStateM.Result.error.inj same).1

/-- A run finds an expression too high where the one without places does. -/
theorem ComesTo.findsTooDeep (h : ComesTo tail v r) (deep : FindsTooDeep v) : FindsTooDeep r := by
  obtain ⟨loc, t, same⟩ := deep
  cases h with
  | ok e t => cases same
  | error x t u =>
      cases x with
      | form place e =>
          cases same
          exact ⟨place, t, rfl⟩
      | meaning f => cases same

end

theorem not_findsTooDeep {r : ExprResult} (h : Succeeds r = true) : ¬FindsTooDeep r := by
  rintro ⟨loc, t, rfl⟩
  cases h

theorem expression_mirrors (derivable : e.Derivable P) {n : Nat} {ts tail : List Token}
    (low : e.levels + 1 ≤ n) (kinds : ts.map Token.kind = e.kinds)
    (ends : EndsExpression 13 tail) :
    Mirrors P Expr.bare (expression (productions n)) e.tree ts tail :=
  (readsAll e derivable).assignment.expression low kinds ends

end Parser

namespace WrittenExpr

open LiveC.Parser

/-- Operators bind and associate as the grammar has it. An expression that the grammar derives and
whose names are no types comes to the tree of its derivation, and to what it comes to with
parentheses around each part: the same tree in the same state, or the same refusal, but for places.
The one with all parentheses nests deepest and has its height checked most often, so it is the one
that has to stay within the limits. Precedence climbing reads the operands that the grammar's levels
read. -/
theorem alike_parenthesised (e : WrittenExpr) (s : ParserState) (n : Nat)
    (derivable : e.Derivable fun x => (s.scopes.find? x).any Binding.isTypedef = false)
    (nesting : e.parenthesised.levels + 1 ≤ n) {ts us tail tail' : List Token}
    (written : ts.map Token.kind = e.kinds) (grouped : us.map Token.kind = e.parenthesised.kinds)
    (ends : EndsExpression 13 tail) (ends' : EndsExpression 13 tail')
    (low : ¬FindsTooDeep (expression (productions n) (s.before (us ++ tail')))) :
    ComesTo tail (e.tree s.bare) (expression (productions n) (s.before (ts ++ tail))) ∧
      Alike tail tail' (expression (productions n) (s.before (ts ++ tail)))
        (expression (productions n) (s.before (us ++ tail'))) ∧
      ∀ k, climb (productions n) k = Parser.binary (productions n) k := by
  have low' : e.levels + 1 ≤ n := Nat.le_trans (Nat.succ_le_succ e.levels_parenthesised) nesting
  have plain := expression_mirrors derivable low' written ends
  have full := expression_mirrors derivable.parenthesised nesting grouped ends'
  have untyped : s.Untyped fun x => (s.scopes.find? x).any Binding.isTypedef = false :=
    fun _ among => among
  have read := plain.comesTo untyped
  have grouped := full.comesTo untyped
  refine ⟨read, ?_, climb_eq_binary (productions_moving n)⟩
  obtain same | ⟨loc, t, deep⟩ := e.narrows_parenthesised s.bare
  · rw [same] at grouped
    exact read.alike grouped
  · rw [deep] at grouped
    exact absurd (grouped.findsTooDeep ⟨loc, t, rfl⟩) low

/-- It is `x = y -= x - y - x * y < ~x ? f(y) : x & -y`. -/
def chained : WrittenExpr :=
  let x := name "x"
  let y := name "y"
  let difference := binary (.arith .sub) (binary (.arith .sub) x y) (binary (.arith .mul) x y)
  assign none x (assign (some .sub) y (conditional
    (binary (.compare .lt) difference (unary .complement x)) (call (name "f") [y])
    (binary (.arith .bitAnd) x (unary .minus y))))

/-- Two integers are declared, and no function is. -/
def declared : ParserState :=
  { rest := [], endLoc := ⟨1, 1⟩, scopes := ⟨[], [[("x", .local 0), ("y", .local 1)]]⟩,
    locals := [⟨"x", .int .int⟩, ⟨"y", .int .int⟩] }

theorem alike_parenthesised_chained :
    let ts := chained.kinds.map fun k => (⟨k, ⟨1, 1⟩⟩ : Token)
    let us := chained.parenthesised.kinds.map fun k => (⟨k, ⟨2, 1⟩⟩ : Token)
    let tail := [(⟨.punct .semicolon, ⟨3, 1⟩⟩ : Token)]
    Succeeds (expression (productions maxNesting) (declared.before (us ++ tail))) = true ∧
      Alike tail tail (expression (productions maxNesting) (declared.before (ts ++ tail)))
        (expression (productions maxNesting) (declared.before (us ++ tail))) := by
  intro ts us tail
  have derivable :
      chained.Derivable fun x => (declared.scopes.find? x).any Binding.isTypedef = false := by
    decide
  have nesting : chained.parenthesised.levels + 1 ≤ maxNesting := by decide
  have ends : EndsExpression 13 tail := .cons rfl nofun
  have kinds (ks : List TokenKind) (loc : Location) :
      (ks.map fun k => (⟨k, loc⟩ : Token)).map Token.kind = ks := by
    rw [List.map_map]
    exact List.map_id ks
  have tree : Succeeds (chained.parenthesised.tree declared.bare) = true := by decide +kernel
  have untyped : declared.Untyped fun x =>
      (declared.scopes.find? x).any Binding.isTypedef = false := fun _ among => among
  have read := expression_mirrors derivable.parenthesised nesting (kinds _ ⟨2, 1⟩) ends
  have accepted := (read.comesTo untyped).succeeds
  rw [tree] at accepted
  exact ⟨accepted, (alike_parenthesised chained declared maxNesting derivable nesting (kinds _ _)
    (kinds _ _) ends ends (not_findsTooDeep accepted)).2.1⟩

end WrittenExpr

end LiveC
