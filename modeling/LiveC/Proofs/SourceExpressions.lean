import LiveC.Proofs.ExpressionSyntax

/-!
Expressions as they are read: the forms that the grammar knows, with the tree that each part comes
to. An expression is derived where its parts bind as tightly as the grammar says, and what it comes
to is what the typing step of its form gives for what its parts come to.
-/

namespace LiveC

/-- A typing step may give a value. -/
def Typing.Gives {α : Type} (x : Typing α) (a : α) : Prop := ∃ ws ws', x.run ws = .ok (a, ws')

theorem Typing.Gives.has {α : Type} {x : Typing α} {Q : α → Prop} {a : α} (gives : x.Gives a)
    (h : x.Yields Q) : Q a :=
  have ⟨ws, ws', run⟩ := gives
  h ws a ws' run

theorem Typing.yields_gives {α : Type} (x : Typing α) : x.Yields x.Gives :=
  fun ws _ ws' run => ⟨ws, ws', run⟩

theorem Typing.gives_pure {α : Type} {a b : α} : (pure a : Typing α).Gives b ↔ b = a := by
  constructor
  · rintro ⟨ws, _, ⟨⟩⟩
    rfl
  · rintro rfl
    exact ⟨[], [], rfl⟩

/-- What a constant of one token comes to. -/
def TokenKind.constant? (kind : TokenKind) (loc : Location) : Option Expr :=
  match kind with
  | .int value unsigned long decimal =>
    some (.int ⟨.int (IntType.ofLiteral value unsigned long decimal), loc⟩ (BitVec.ofNat 64 value))
  | .float value => some (.float ⟨.double, loc⟩ value)
  | .char value => some (.int ⟨.int .int, loc⟩ (BitVec.ofInt 64 value))
  | _ => none

/-- How loosely the operand of a prefix operator may bind: a cast may follow most of them. -/
def PrefixOperator.operandRank : PrefixOperator → Nat
  | increment | decrement | size => 1
  | address | indirection | plus | minus | complement | not => 2

/-- An expression as it is read. Each form but parentheses has the tree that it comes to. -/
inductive SourceExpr where
  | name (e : Expr) (x : String)
  | constant (e : Expr) (kind : TokenKind)
  /-- Adjacent string literals. -/
  | string (e : Expr) (first : List UInt8) (more : List (List UInt8))
  | parens (inner : SourceExpr)
  | subscript (e : Expr) (base index : SourceExpr)
  | call (e : Expr) (callee : SourceExpr) (args : List SourceExpr)
  /-- A step behind its operand. -/
  | stepped (e : Expr) (increment : Bool) (target : SourceExpr)
  | unary (e : Expr) (op : PrefixOperator) (operand : SourceExpr)
  /-- The size of a type, of which the tokens are given. -/
  | sizeOfType (e : Expr) (type : List TokenKind)
  | cast (e : Expr) (type : List TokenKind) (operand : SourceExpr)
  | binary (e : Expr) (op : Operator) (l r : SourceExpr)
  | conditional (e : Expr) (c t f : SourceExpr)
  | assign (e : Expr) (op? : Option BinaryOp) (target value : SourceExpr)
  | comma (e : Expr) (l r : SourceExpr)

namespace SourceExpr

/-- What an expression comes to. -/
def typed : SourceExpr → Expr
  | parens inner => inner.typed
  | name e _ | constant e _ | string e _ _ | subscript e _ _ | call e _ _ | stepped e _ _
  | unary e _ _ | sizeOfType e _ | cast e _ _ | binary e _ _ _ | conditional e _ _ _
  | assign e _ _ _ | comma e _ _ => e

/-- What stands in the parentheses around an expression. -/
def inside : SourceExpr → SourceExpr
  | parens inner => inner.inside
  | e => e

/-- How loosely an expression binds: postfix expressions, prefix operators, casts, the levels of
binary operators, conditionals, assignments, commas. -/
def rank : SourceExpr → Nat
  | name .. | constant .. | string .. | parens .. | subscript .. | call .. | stepped .. => 0
  | unary .. | sizeOfType .. => 1
  | cast .. => 2
  | binary _ op _ _ => op.level + 2
  | conditional .. => 13
  | assign .. => 14
  | comma .. => 15

/-- The direct subexpressions. -/
def parts : SourceExpr → List SourceExpr
  | name .. | constant .. | string .. | sizeOfType .. => []
  | parens e | stepped _ _ e | unary _ _ e | cast _ _ e => [e]
  | subscript _ l r | binary _ _ l r | assign _ _ l r | comma _ l r => [l, r]
  | call _ callee args => callee :: args
  | conditional _ c t f => [c, t, f]

mutual

/-- The tokens of an expression. -/
def kinds : SourceExpr → List TokenKind
  | name _ x => [.ident x]
  | constant _ kind => [kind]
  | string _ first more => .str first :: more.map .str
  | parens e => .punct .lparen :: (kinds e ++ [.punct .rparen])
  | subscript _ base index =>
    kinds base ++ .punct .lbracket :: (kinds index ++ [.punct .rbracket])
  | call _ callee args => kinds callee ++ .punct .lparen :: (kindsAll args ++ [.punct .rparen])
  | stepped _ increment target =>
    kinds target ++ [.punct (if increment then .increment else .decrement)]
  | unary _ op operand => op.kind :: kinds operand
  | sizeOfType _ type =>
    .keyword .sizeofKw :: .punct .lparen :: (type ++ [.punct .rparen])
  | cast _ type operand => .punct .lparen :: (type ++ .punct .rparen :: kinds operand)
  | binary _ op l r => kinds l ++ .punct op.punct :: kinds r
  | conditional _ c t f =>
    kinds c ++ .punct .question :: (kinds t ++ .punct .colon :: kinds f)
  | assign _ op? target value => kinds target ++ .punct (assignmentPunct op?) :: kinds value
  | comma _ l r => kinds l ++ .punct .comma :: kinds r

/-- Arguments with commas between them. -/
def kindsAll : List SourceExpr → List TokenKind
  | [] => []
  | [e] => kinds e
  | e :: e' :: es => kinds e ++ .punct .comma :: kindsAll (e' :: es)

end

/-- The tokens of arguments that a comma follows each. -/
def kindsEach (args : List SourceExpr) : List TokenKind :=
  args.flatMap fun e => e.kinds ++ [.punct .comma]

theorem kindsAll_append_singleton (args : List SourceExpr) (e : SourceExpr) :
    kindsAll (args ++ [e]) = kindsEach args ++ e.kinds := by
  induction args with
  | nil => rfl
  | cons first args ih =>
      rw [kindsEach, List.flatMap_cons, ← kindsEach, List.append_assoc, ← ih]
      cases args <;> simp [kindsAll]

/-! ### Derivations -/

/-- A property of an expression and of every part of it. -/
inductive Everywhere (p : SourceExpr → Prop) : SourceExpr → Prop where
  | node {w : SourceExpr} (here : p w) (parts : ∀ part ∈ w.parts, Everywhere p part) :
      Everywhere p w

section

variable {p q : SourceExpr → Prop} {w : SourceExpr}

theorem Everywhere.here (h : w.Everywhere p) : p w := by
  cases h with
  | node here parts => exact here

theorem Everywhere.part {a : SourceExpr} (h : w.Everywhere p) (member : a ∈ w.parts) :
    a.Everywhere p := by
  cases h with
  | node here parts => exact parts a member

/-- A property that expressions have where another one holds of all of them. -/
theorem Everywhere.mono (hpq : ∀ w : SourceExpr, w.Everywhere p → q w) (h : w.Everywhere p) :
    w.Everywhere q := by
  induction h with
  | node here parts ih => exact .node (hpq _ (.node here parts)) ih

end

/-- How an expression is put together from its parts: how loosely they may bind, and the typing step
that gives what it comes to. -/
def Node : SourceExpr → Prop
  | name e _ => (∃ n id, e = .var n id) ∨ ∃ n symbol, e = .global n symbol
  | constant e kind => ∃ loc, kind.constant? loc = some e
  | string e first more => ∃ loc id,
    e = .str ⟨.array (.int .char) (some (first ++ more.flatten ++ [0]).length), loc⟩ id
  | parens _ => True
  | subscript e base index => base.rank = 0 ∧ ∃ loc, (base.typed.subscript index.typed loc).Gives e
  | call e callee args => callee.rank = 0 ∧ (∀ arg ∈ args, arg.rank ≤ 14) ∧
    ∃ loc resolved values, (callee.typed.callee loc).Gives resolved ∧
      values.map Prod.snd = args.map typed ∧ (Expr.callNode resolved values loc).Gives e
  | stepped e increment target => target.rank = 0 ∧
    ∃ loc, (target.typed.stepNode increment false loc).Gives e
  | unary e op operand => operand.rank ≤ op.operandRank ∧
    ∃ loc, (op.apply operand.typed loc).Gives e
  | sizeOfType e _ => ∃ ty loc, (Expr.sizeOf ty loc).Gives e
  | cast e _ operand => operand.rank ≤ 2 ∧ ∃ ty loc, (operand.typed.castTo ty loc).Gives e
  | binary e op l r => l.rank ≤ op.level + 2 ∧ r.rank < op.level + 2 ∧
    ∃ loc, (op.apply l.typed r.typed loc).Gives e
  | conditional e c t f => c.rank < 13 ∧ f.rank ≤ 13 ∧
    ∃ loc, (Expr.conditional c.typed t.typed f.typed loc).Gives e
  | assign e op? target value => target.rank ≤ 13 ∧ value.rank ≤ 14 ∧
    ∃ loc, (target.typed.requireAssignable loc).Gives () ∧
      (assignmentNode op? target.typed value.typed loc).Gives e
  | comma e l r => r.rank ≤ 14 ∧
    ∃ loc, e = .comma ⟨r.typed.rvalue.ty, loc⟩ l.typed r.typed.rvalue

/-- The grammar and the typing rules derive an expression. -/
def Derived (w : SourceExpr) : Prop := w.Everywhere Node

section

variable {w a b c : SourceExpr} (here : Node w)
include here

theorem Derived.leaf (parts : w.parts = []) : Derived w := .node here (by simp [parts])

theorem Derived.one (parts : w.parts = [a]) (ha : a.Derived) : Derived w :=
  .node here fun part member => by
    rw [parts] at member
    exact List.mem_singleton.mp member ▸ ha

theorem Derived.two (parts : w.parts = [a, b]) (ha : a.Derived) (hb : b.Derived) : Derived w :=
  .node here (by
    rw [parts]
    exact List.forall_mem_cons.mpr ⟨ha, List.forall_mem_singleton.mpr hb⟩)

theorem Derived.three (parts : w.parts = [a, b, c]) (ha : a.Derived) (hb : b.Derived)
    (hc : c.Derived) : Derived w :=
  .node here (by
    rw [parts]
    exact List.forall_mem_cons.mpr ⟨ha, List.forall_mem_cons.mpr
      ⟨hb, List.forall_mem_singleton.mpr hc⟩⟩)

end

theorem Derived.inside {w : SourceExpr} (h : w.Derived) : w.inside.Derived := by
  induction h with
  | @node w here parts ih =>
      cases w with
      | parens e => exact ih e (.head _)
      | _ => exact .node here parts

theorem typed_inside (w : SourceExpr) : w.inside.typed = w.typed := by
  induction w using SourceExpr.inside.induct with
  | case1 e ih => exact ih
  | case2 w other => cases w <;> first | rfl | exact absurd rfl (other _)

/-- Some derived expression of these tokens comes to a tree and binds tightly enough. -/
def Forms (r : Nat) (ks : List TokenKind) (e : Expr) : Prop :=
  ∃ w : SourceExpr, w.kinds = ks ∧ w.typed = e ∧ w.rank ≤ r ∧ w.Derived

theorem Forms.mono {r r' : Nat} {ks : List TokenKind} {e : Expr} (h : Forms r ks e)
    (le : r ≤ r') : Forms r' ks e :=
  have ⟨w, kinds, typed, low, derived⟩ := h
  ⟨w, kinds, typed, Nat.le_trans low le, derived⟩

namespace Forms

variable {ks ks' ks'' type : List TokenKind} {l r e f : Expr} {n : Nat} {loc : Location}

theorem parens (h : Forms n ks e) : Forms 0 (.punct .lparen :: (ks ++ [.punct .rparen])) e := by
  obtain ⟨w, rfl, rfl, -, derived⟩ := h
  exact ⟨.parens w, by rw [kinds], rfl, Nat.le_refl _, .one trivial rfl derived⟩

theorem subscript (hl : Forms 0 ks l) (hr : Forms n ks' r) (gives : (l.subscript r loc).Gives e) :
    Forms 0 (ks ++ .punct .lbracket :: (ks' ++ [.punct .rbracket])) e := by
  obtain ⟨w, rfl, rfl, low, derived⟩ := hl
  obtain ⟨v, rfl, rfl, -, derived'⟩ := hr
  exact ⟨.subscript e w v, by rw [kinds], rfl, Nat.le_refl _,
    .two ⟨Nat.le_zero.mp low, loc, gives⟩ rfl derived derived'⟩

theorem stepped (h : Forms 0 ks l) (increment : Bool)
    (gives : (l.stepNode increment false loc).Gives e) :
    Forms 0 (ks ++ [.punct (if increment then .increment else .decrement)]) e := by
  obtain ⟨w, rfl, rfl, low, derived⟩ := h
  exact ⟨.stepped e increment w, by rw [kinds], rfl, Nat.le_refl _,
    .one ⟨Nat.le_zero.mp low, loc, gives⟩ rfl derived⟩

theorem unary {op : PrefixOperator} (h : Forms op.operandRank ks l)
    (gives : (op.apply l loc).Gives e) : Forms 1 (op.kind :: ks) e := by
  obtain ⟨w, rfl, rfl, low, derived⟩ := h
  exact ⟨.unary e op w, by rw [kinds], rfl, Nat.le_refl _, .one ⟨low, loc, gives⟩ rfl derived⟩

theorem sizeOfType {ty : CType} (gives : (Expr.sizeOf ty loc).Gives e) :
    Forms 1 (.keyword .sizeofKw :: .punct .lparen :: (type ++ [.punct .rparen])) e :=
  ⟨.sizeOfType e type, by rw [kinds], rfl, Nat.le_refl _, .leaf ⟨ty, loc, gives⟩ rfl⟩

theorem cast {ty : CType} (h : Forms 2 ks l) (gives : (l.castTo ty loc).Gives e) :
    Forms 2 (.punct .lparen :: (type ++ .punct .rparen :: ks)) e := by
  obtain ⟨w, rfl, rfl, low, derived⟩ := h
  exact ⟨.cast e type w, by rw [kinds], rfl, Nat.le_refl _,
    .one ⟨low, ty, loc, gives⟩ rfl derived⟩

theorem binary {op : Operator} (hl : Forms (op.level + 2) ks l) (hr : Forms (op.level + 1) ks' r)
    (gives : (op.apply l r loc).Gives e) :
    Forms (op.level + 2) (ks ++ .punct op.punct :: ks') e := by
  obtain ⟨w, rfl, rfl, low, derived⟩ := hl
  obtain ⟨v, rfl, rfl, low', derived'⟩ := hr
  exact ⟨.binary e op w v, by rw [kinds], rfl, Nat.le_refl _,
    .two ⟨low, Nat.lt_succ_of_le low', loc, gives⟩ rfl derived derived'⟩

theorem conditional (hl : Forms 12 ks e) (hr : Forms n ks' l) (hf : Forms 13 ks'' r)
    (gives : (Expr.conditional e l r loc).Gives f) :
    Forms 13 (ks ++ .punct .question :: (ks' ++ .punct .colon :: ks'')) f := by
  obtain ⟨w, rfl, rfl, low, derived⟩ := hl
  obtain ⟨v, rfl, rfl, -, derived'⟩ := hr
  obtain ⟨u, rfl, rfl, low', derived''⟩ := hf
  exact ⟨.conditional f w v u, by rw [kinds], rfl, Nat.le_refl _,
    .three ⟨Nat.lt_succ_of_le low, low', loc, gives⟩ rfl derived derived' derived''⟩

theorem assign {op? : Option BinaryOp} (hl : Forms 13 ks l) (hr : Forms 14 ks' r)
    (assignable : (l.requireAssignable loc).Gives ())
    (gives : (assignmentNode op? l r loc).Gives e) :
    Forms 14 (ks ++ .punct (assignmentPunct op?) :: ks') e := by
  obtain ⟨w, rfl, rfl, low, derived⟩ := hl
  obtain ⟨v, rfl, rfl, low', derived'⟩ := hr
  exact ⟨.assign e op? w v, by rw [kinds], rfl, Nat.le_refl _,
    .two ⟨low, low', loc, assignable, gives⟩ rfl derived derived'⟩

theorem comma (hl : Forms 15 ks l) (hr : Forms 14 ks' r) (loc : Location) :
    Forms 15 (ks ++ .punct .comma :: ks') (.comma ⟨r.rvalue.ty, loc⟩ l r.rvalue) := by
  obtain ⟨w, rfl, rfl, low, derived⟩ := hl
  obtain ⟨v, rfl, rfl, low', derived'⟩ := hr
  exact ⟨.comma _ w v, by rw [kinds], rfl, Nat.le_refl _,
    .two ⟨low', loc, rfl⟩ rfl derived derived'⟩

end Forms

/-- The arguments of a call, each with its place, are of some tokens. -/
def FormsAll (ks : List TokenKind) (values : List (Location × Expr)) (joined : List SourceExpr →
    List TokenKind) : Prop :=
  ∃ args : List SourceExpr, joined args = ks ∧ args.map typed = values.map Prod.snd ∧
    ∀ arg ∈ args, arg.rank ≤ 14 ∧ arg.Derived

theorem Forms.call {ks ks' : List TokenKind} {l e : Expr} {resolved : Expr.Callee}
    {values : List (Location × Expr)} {loc : Location} (hl : Forms 0 ks l)
    (hr : FormsAll ks' values kindsAll) (callee : (l.callee loc).Gives resolved)
    (gives : (Expr.callNode resolved values loc).Gives e) :
    Forms 0 (ks ++ .punct .lparen :: (ks' ++ [.punct .rparen])) e := by
  obtain ⟨w, rfl, rfl, low, derived⟩ := hl
  obtain ⟨args, rfl, same, each⟩ := hr
  refine ⟨.call e w args, by rw [kinds], rfl, Nat.le_refl _, .node ?_ ?_⟩
  · exact ⟨Nat.le_zero.mp low, fun arg member => (each arg member).1, loc, resolved, values, callee,
      same.symm, gives⟩
  · exact List.forall_mem_cons.mpr ⟨derived, fun arg member => (each arg member).2⟩

/-- One more argument. -/
theorem FormsAll.append {ks ks' : List TokenKind} {values : List (Location × Expr)} {e : Expr}
    (h : FormsAll ks values kindsEach) (last : Forms 14 ks' e) (loc : Location) :
    FormsAll (ks ++ ks') (values ++ [(loc, e)]) kindsAll ∧
      FormsAll (ks ++ (ks' ++ [.punct .comma])) (values ++ [(loc, e)]) kindsEach := by
  obtain ⟨args, rfl, same, each⟩ := h
  obtain ⟨w, rfl, rfl, low, derived⟩ := last
  have types : (args ++ [w]).map typed = (values ++ [(loc, w.typed)]).map Prod.snd := by
    simp [same]
  have each : ∀ arg ∈ args ++ [w], arg.rank ≤ 14 ∧ arg.Derived :=
    List.forall_mem_append.mpr ⟨each, List.forall_mem_singleton.mpr ⟨low, derived⟩⟩
  exact ⟨⟨args ++ [w], kindsAll_append_singleton args w, types, each⟩,
    ⟨args ++ [w], by simp [kindsEach], types, each⟩⟩

end SourceExpr

end LiveC
