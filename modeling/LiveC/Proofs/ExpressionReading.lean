import LiveC.Proofs.ExpressionSyntax

/-!
Reading expressions. Wherever the tokens of an expression stand in front of what ends it, the parser
comes to its typed tree, which is that of the expression with all parentheses.
-/

namespace LiveC

def SourceFault.bare : SourceFault → SourceFault
  | form _ e => .form .nowhere e
  | meaning f => .meaning f.bare

/-- The state without places and tokens. -/
def ParserState.bare (s : ParserState) : ParserState :=
  { s with rest := [], warnings := s.warnings.map SemanticNotice.bare }

/-- None of some names is that of a type. -/
def ParserState.Untyped (P : String → Prop) (s : ParserState) : Prop :=
  ∀ x, P x → (s.scopes.find? x).any Binding.isTypedef = false

namespace Parser

/-! ### Parsers and steps without places -/

/-- In front of some tokens a parser does what a step without places does, and comes in front of
those behind them to what goes on there. -/
structure Tracks (P : String → Prop) {α β γ : Type} (f : α → β) (p : Parser γ) (b : Parser β)
    (k : α → Parser γ) (ts tail : List Token) : Prop where
  run : ∀ s : ParserState, s.Untyped P → match b s.bare with
    | .ok a' t' => ∃ a, ∃ t : ParserState, f a = a' ∧ t.bare = t' ∧ t.Untyped P ∧
        p (s.before (ts ++ tail)) = k a (t.before tail)
    | .error x' _ => ∃ x : SourceFault, ∃ t, x.bare = x' ∧
        p (s.before (ts ++ tail)) = .error x t

/-- In front of some tokens a parser does what a step without places does. -/
abbrev Mirrors (P : String → Prop) {α β : Type} (f : α → β) (p : Parser α) (b : Parser β)
    (ts tail : List Token) : Prop := Tracks P f p b pure ts tail

section

variable {P : String → Prop} {α β γ δ ε : Type} {f : α → β} {g : γ → δ} {p : Parser ε}
  {b : Parser β} {k : α → Parser ε} {ts ts' tail : List Token}

theorem Tracks.trans (h : Tracks P f p b k ts (ts' ++ tail)) {c : β → Parser δ} {k' : γ → Parser ε}
    (behind : ∀ a, Tracks P g (k a) (c (f a)) k' ts' tail) :
    Tracks P g p (b >>= c) k' (ts ++ ts') tail := by
  refine ⟨fun s untyped => ?_⟩
  have first := h.run s untyped
  rw [bind_run, List.append_assoc]
  cases run : b s.bare with
  | error x' t' =>
      rw [run] at first
      exact first
  | ok a' t' =>
      rw [run] at first
      obtain ⟨a, t, rfl, rfl, untyped, first⟩ := first
      rw [first]
      exact (behind a).run t untyped

/-- What is the same in front of other tokens. -/
theorem Tracks.step {q : Parser ε} {us : List Token} (h : Tracks P f q b k ts tail)
    (run : ∀ s : ParserState, s.Untyped P → p (s.before (us ++ tail)) = q (s.before (ts ++ tail))) :
    Tracks P f p b k us tail := by
  refine ⟨fun s untyped => ?_⟩
  rw [run s untyped]
  exact h.run s untyped

/-- What looks at the tokens behind. -/
theorem Tracks.looks {q : Parser ε} (h : Tracks P f q b k [] tail)
    (run : ∀ s : ParserState, p (s.before tail) = q (s.before tail)) :
    Tracks P f p b k [] tail := h.step fun s _ => run s

theorem Tracks.then {k' : α → Parser ε} (h : Tracks P f p b k ts tail)
    (same : ∀ a (s : ParserState), k a (s.before tail) = k' a (s.before tail)) :
    Tracks P f p b k' ts tail := by
  refine ⟨fun s untyped => ?_⟩
  have first := h.run s untyped
  cases run : b s.bare with
  | error x' t' =>
      rw [run] at first
      exact first
  | ok a' t' =>
      rw [run] at first
      obtain ⟨a, t, same', bare, untyped, first⟩ := first
      exact ⟨a, t, same', bare, untyped, first.trans (same a t)⟩

/-- Goes on behind a token that is passed. -/
theorem Tracks.passes {k' : α → Parser ε} {t : Token} (h : Tracks P f p b k ts (t :: tail))
    (passed : ∀ a (s : ParserState), k a (s.before (t :: tail)) = k' a (s.before tail)) :
    Tracks P f p b k' (ts ++ [t]) tail := by
  refine ⟨fun s untyped => ?_⟩
  have first := h.run s untyped
  rw [List.append_assoc]
  cases run : b s.bare with
  | error x' t' =>
      rw [run] at first
      exact first
  | ok a' t' =>
      rw [run] at first
      obtain ⟨a, u, same, bare, untyped, first⟩ := first
      exact ⟨a, u, same, bare, untyped, first.trans (passed a u)⟩

theorem Mirrors.tracks {p : Parser α} (h : Mirrors P f p b ts tail) (k : α → Parser ε) :
    Tracks P f (p >>= k) b k ts tail := by
  refine ⟨fun s untyped => ?_⟩
  have first := h.run s untyped
  rw [bind_run]
  cases run : b s.bare with
  | error x' t' =>
      rw [run] at first
      obtain ⟨x, t, bare, failed⟩ := first
      rw [failed]
      exact ⟨x, t, bare, rfl⟩
  | ok a' t' =>
      rw [run] at first
      obtain ⟨a, t, same, bare, untyped, read⟩ := first
      rw [read]
      exact ⟨a, t, same, bare, untyped, rfl⟩

theorem Mirrors.bind {p : Parser α} (h : Mirrors P f p b ts (ts' ++ tail)) {q : α → Parser ε}
    {c : β → Parser δ} {k : γ → Parser ε}
    (behind : ∀ a, Tracks P g (q a) (c (f a)) k ts' tail) :
    Tracks P g (p >>= q) (b >>= c) k (ts ++ ts') tail :=
  (Mirrors.tracks h q).trans behind

theorem Mirrors.next {p : Parser α} (h : Mirrors P f p b ts tail) {q : α → Parser ε}
    {c : β → Parser δ} {k : γ → Parser ε} (behind : ∀ a, Tracks P g (q a) (c (f a)) k [] tail) :
    Tracks P g (p >>= q) (b >>= c) k ts tail := by
  have all : Tracks P g (p >>= q) (b >>= c) k (ts ++ []) tail := Mirrors.bind h behind
  rwa [List.append_nil] at all

theorem Mirrors.first {p : Parser α} (h : Mirrors P f p b [] (ts ++ tail)) {q : α → Parser ε}
    {c : β → Parser δ} {k : γ → Parser ε} (behind : ∀ a, Tracks P g (q a) (c (f a)) k ts tail) :
    Tracks P g (p >>= q) (b >>= c) k ts tail :=
  (Mirrors.bind h behind : Tracks P g (p >>= q) (b >>= c) k ([] ++ ts) tail)

theorem Tracks.pure {a : α} {a' : β} (h : f a = a') :
    Tracks P f (k a) (Pure.pure a') k [] tail :=
  ⟨fun s untyped => ⟨a, s, h, rfl, untyped, rfl⟩⟩

theorem Mirrors.pure {a : α} {a' : β} (h : f a = a') :
    Mirrors P f (Pure.pure a) (Pure.pure a') [] tail := Tracks.pure h

theorem typed_run {x : Typing α} {s : ParserState} {a : α} {warnings : List SemanticNotice}
    (h : x.run s.warnings = .ok (a, warnings)) : typed x s = .ok a { s with warnings } := by
  rw [typed, h]

theorem typed_fault {x : Typing α} {s : ParserState} {e : SemanticFault}
    (h : x.run s.warnings = .error e) : typed x s = .error (.meaning e) s := by
  rw [typed, h]

theorem Mirrors.typed {x : Typing α} {y : Typing β} (h : Typing.Bare f x y) :
    Mirrors P f (typed x) (typed y) [] tail := by
  refine ⟨fun s untyped => ?_⟩
  have bare := h.run s.warnings
  cases run : x.run s.warnings with
  | error e =>
      rw [run] at bare
      have failed : Parser.typed y s.bare = _ := typed_fault bare
      have failed' : Parser.typed x (s.before tail) = _ := typed_fault run
      rw [failed]
      exact ⟨_, _, rfl, failed'⟩
  | ok r =>
      rw [run] at bare
      have read : Parser.typed y s.bare = _ := typed_run bare
      have read' : Parser.typed x (s.before tail) = _ := typed_run run
      rw [read]
      exact ⟨r.1, { s with warnings := r.2 }, rfl, rfl, untyped, read'⟩

theorem Mirrors.bounded (e : Expr) :
    Mirrors P Expr.bare (bounded e) (Parser.bounded e.bare) [] tail := by
  refine ⟨fun s untyped => ?_⟩
  by_cases high : maxExprHeight < e.height
  · have deep (e : Expr) (t : ParserState) (high : maxExprHeight < e.height) :
        Parser.bounded e t = .error (.form e.loc .expressionTooDeep) t := by
      rw [Parser.bounded, if_pos high]
      rfl
    rw [deep _ _ (e.height_bare.symm ▸ high)]
    exact ⟨_, _, by rw [e.loc_bare]; rfl, deep _ _ high⟩
  · have low (e : Expr) (t : ParserState) (low : ¬maxExprHeight < e.height) :
        Parser.bounded e t = .ok e t := by
      rw [Parser.bounded, if_neg low]
      rfl
    rw [low _ _ (e.height_bare.symm ▸ high)]
    exact ⟨e, s, rfl, rfl, untyped, low _ _ high⟩

end

/-! ### Names -/

section

variable {P : String → Prop} {α β γ : Type} {f : α → β} {k : α → Parser γ} {tail : List Token}

theorem Tracks.refuse (loc : Location) (e : SemanticError) :
    Tracks P f (refuse loc e) (Parser.refuse .nowhere e) k [] tail :=
  ⟨fun s _ => ⟨.meaning ⟨loc, e⟩, s.before tail, rfl, rfl⟩⟩

theorem Tracks.refused {δ ε : Type} (loc : Location) (e : SemanticError) {q : δ → Parser γ}
    {c : ε → Parser β} :
    Tracks P f (Parser.refuse loc e >>= q) (Parser.refuse .nowhere e >>= c) k [] tail :=
  ⟨fun s _ => ⟨.meaning ⟨loc, e⟩, s.before tail, rfl, rfl⟩⟩

theorem Tracks.fail (loc : Location) (e : SyntaxError) :
    Tracks P f (fail loc e) (Parser.fail .nowhere e) k [] tail :=
  ⟨fun s _ => ⟨.form loc e, s.before tail, rfl, rfl⟩⟩

theorem Tracks.ite {c : Prop} {_ : Decidable c} {p q : Parser γ} {b d : Parser β}
    (h : c → Tracks P f p b k [] tail) (h' : ¬c → Tracks P f q d k [] tail) :
    Tracks P f (if c then p else q) (if c then b else d) k [] tail := by
  split
  case isTrue holds => exact h holds
  case isFalse fails => exact h' fails

theorem warn_mirrors (loc : Location) (w : SemanticWarning) :
    Mirrors P id (warn loc w) (warn .nowhere w) [] tail := by
  refine ⟨fun s untyped => ⟨(), { s with warnings := s.warnings ++ [⟨loc, w⟩] }, rfl, ?_, untyped,
    rfl⟩⟩
  simp only [ParserState.bare, List.map_append, List.map_cons, List.map_nil, SemanticNotice.bare]

theorem findSymbol?_mirrors (name : String) :
    Mirrors P id (findSymbol? name) (findSymbol? name) [] tail :=
  ⟨fun s untyped => ⟨s.unit.symbols.find? name, s, rfl, rfl, untyped, rfl⟩⟩

theorem setSymbol_mirrors (name : String) (symbol : GlobalSymbol) :
    Mirrors P id (setSymbol name symbol) (setSymbol name symbol) [] tail :=
  ⟨fun s untyped => ⟨(), { s with unit := { s.unit with
    symbols := s.unit.symbols.insert name symbol } }, rfl, rfl, untyped, rfl⟩⟩

theorem declareFunction_mirrors (name : String) (ty : CType) (isStatic : Bool) (loc : Location) :
    Mirrors P id (declareFunction name ty isStatic loc) (declareFunction name ty isStatic .nowhere)
      [] tail := by
  refine Mirrors.next (findSymbol?_mirrors name) fun old => ?_
  cases old with
  | none => exact setSymbol_mirrors ..
  | some old =>
      dsimp only [id]
      split
      · refine .ite (fun _ => ?_) fun _ => ?_
        · exact .refused ..
        · exact .ite (fun _ => setSymbol_mirrors ..) fun _ => .pure rfl
      · exact .refuse ..
      · exact .refuse ..

theorem Untyped.bindFile {s : ParserState} (h : s.Untyped P) (name symbol : String) :
    { s with scopes := s.scopes.bindFile name (.global symbol) }.Untyped P := by
  intro x among
  have before := h x among
  simp only [ScopeStack.find?, ScopeStack.bindFile, List.findSome?_append] at before ⊢
  cases inner : s.scopes.blocks.findSome? fun scope => scope.lookup x with
  | some b => simpa [inner] using before
  | none =>
      rw [inner] at before
      by_cases same : x = name
      · subst same
        simp [Binding.isTypedef]
      · simpa [List.lookup_cons, beq_eq_false_iff_ne.mpr same] using before

theorem bindFile_mirrors (name symbol : String) :
    Mirrors P id (bindFile name (.global symbol)) (bindFile name (.global symbol)) [] tail :=
  ⟨fun s untyped => ⟨(), { s with scopes := s.scopes.bindFile name (.global symbol) }, rfl, rfl,
    Untyped.bindFile untyped name symbol, rfl⟩⟩

/-- Whether an argument list starts here. -/
def opens (ts : List Token) : Bool := ts.head?.any (·.kind == .punct .lparen)

theorem check_opens (s : ParserState) (ts : List Token) :
    check .lparen (s.before ts) = .ok (opens ts) (s.before ts) := by
  cases ts <;> rfl

theorem identifier_mirrors (name : String) (loc : Location) :
    Mirrors P Expr.bare (identifier name loc) (WrittenExpr.typedName (opens tail) name) []
      tail := by
  have found : Mirrors P id (find? name) (find? name) [] tail :=
    ⟨fun s untyped => ⟨s.scopes.find? name, s, rfl, rfl, untyped, rfl⟩⟩
  refine Mirrors.next found fun b => ?_
  dsimp only [id]
  split
  · rename_i id
    have state : Mirrors P ParserState.bare get get [] tail :=
      ⟨fun s untyped => ⟨s.before tail, s, rfl, rfl, untyped, rfl⟩⟩
    refine Mirrors.next state fun s => ?_
    have locals : s.bare.locals = s.locals := rfl
    rw [locals]
    cases s.locals[id]? with
    | none => exact .refuse ..
    | some v => exact Mirrors.pure rfl
  · refine Mirrors.next (findSymbol?_mirrors _) fun old => ?_
    cases old with
    | none => exact .refuse ..
    | some s => exact Mirrors.pure rfl
  · exact .fail ..
  · refine .looks (.ite (fun _ => ?_) fun _ => ?_) fun s => bind_ok (check_opens s tail)
    · refine Mirrors.next (warn_mirrors ..) fun _ => ?_
      refine Mirrors.next (declareFunction_mirrors ..) fun _ => ?_
      exact Mirrors.next (bindFile_mirrors ..) fun _ => Mirrors.pure rfl
    · exact .refuse ..

end

end Parser

/-! ### What ends an expression -/

/-- How loosely an expression may bind that a punctuator behind it goes on. -/
def Punct.continues? (p : Punct) : Option Nat :=
  match p with
  | .lbracket | .lparen | .increment | .decrement | .dot | .arrow => some 0
  | .question => some 11
  | .comma => some 13
  | p =>
    match Operator.ofPunct? p with
    | some op => some op.level
    | none => p.assignmentOp?.map fun _ => 12

/-- Nothing goes on an expression of some level. -/
def EndsExpression (n : Nat) (ts : List Token) : Prop :=
  ∀ t ∈ ts.head?, ∀ p, t.kind = .punct p → ∀ k ∈ p.continues?, n < k

theorem Operator.continues?_punct (op : Operator) : op.punct.continues? = some op.level := by
  rcases op with op | op | op <;> cases op <;> rfl

theorem continues?_assignmentPunct (op? : Option BinaryOp) :
    (assignmentPunct op?).continues? = some 12 := by
  rcases op? with - | op
  · rfl
  · cases op <;> rfl

theorem Punct.continues?_of_operator {p : Punct} {op : Operator}
    (h : Operator.ofPunct? p = some op) : p.continues? = some op.level := by
  cases p <;> cases h <;> rfl

theorem Punct.continues?_of_assignment {p : Punct} {op? : Option BinaryOp}
    (h : p.assignmentOp? = some op?) : p.continues? = some 12 := by
  cases p <;> cases h <;> rfl

namespace EndsExpression

variable {n m : Nat} {ts : List Token} {t : Token} {p : Punct}

theorem mono (h : EndsExpression m ts) (le : n ≤ m) : EndsExpression n ts :=
  fun t first p kind k goes => Nat.lt_of_le_of_lt le (h t first p kind k goes)

theorem cons (kind : t.kind = .punct p) (h : ∀ k ∈ p.continues?, n < k) :
    EndsExpression n (t :: ts) := by
  intro u first q same k goes
  cases first
  cases kind.symm.trans same
  exact h k goes

/-- The punctuator at the front does not go on an expression. -/
theorem front (h : EndsExpression n ts) {s : ParserState} {p : Punct}
    (kind : (s.before ts).front.kind = .punct p) : ∀ k ∈ p.continues?, n < k := by
  cases ts with
  | nil => cases kind
  | cons t ts => exact h t rfl p kind

theorem front_ne (h : EndsExpression n ts) {s : ParserState} {k : Nat}
    (goes : p.continues? = some k) (le : k ≤ n) : (s.before ts).front.kind ≠ .punct p :=
  fun kind => Nat.not_le.mpr (h.front kind k goes) le

theorem punct? (h : EndsExpression n ts) {s : ParserState} {p : Punct}
    (seen : (s.before ts).punct? = some p) : ∀ k ∈ p.continues?, n < k := by
  unfold ParserState.punct? at seen
  split at seen
  case h_1 kind =>
    cases seen
    exact h.front kind
  case h_2 => cases seen

theorem blocked (h : EndsExpression n ts) (s : ParserState) : (s.before ts).Blocked n := by
  intro op seen
  obtain ⟨p, front, found⟩ := Option.bind_eq_some_iff.mp seen
  exact h.punct? front op.level (Punct.continues?_of_operator found)

theorem assignmentOp? (h : EndsExpression 12 ts) (s : ParserState) :
    (s.before ts).punct?.bind Punct.assignmentOp? = none := by
  cases seen : (s.before ts).punct?.bind Punct.assignmentOp? with
  | none => rfl
  | some op? =>
      obtain ⟨p, front, found⟩ := Option.bind_eq_some_iff.mp seen
      exact absurd (h.punct? front 12 (Punct.continues?_of_assignment found)) (Nat.lt_irrefl 12)

theorem opens (h : EndsExpression n ts) : Parser.opens ts = false := by
  cases ts with
  | nil => rfl
  | cons t ts =>
      refine beq_eq_false_iff_ne.mpr fun kind => ?_
      exact Nat.not_lt_zero n (h t rfl .lparen kind 0 rfl)

end EndsExpression

namespace Parser

variable {P : String → Prop} {g : Productions} {n : Nat} {ts tail : List Token}

theorem postfixStep_ends (ends : EndsExpression n tail) (e : Expr) (s : ParserState) :
    postfixStep g e (s.before tail) = .ok (.done e) (s.before tail) := by
  have other (p : Punct) (goes : p.continues? = some 0) : (s.before tail).front.kind ≠ .punct p :=
    ends.front_ne goes (Nat.zero_le n)
  rw [postfixStep, peek_run]
  generalize (s.before tail).front = t at other
  obtain ⟨kind, loc⟩ := t
  cases kind with
  | punct p => cases p <;> first | rfl | exact absurd rfl (other _ rfl)
  | _ => rfl

/-! ### What starts an expression -/

/-- What an expression starts with that no operator is in front of. -/
inductive StartsPostfix (P : String → Prop) : TokenKind → Prop
  | name {x : String} : P x → StartsPostfix P (.ident x)
  | int (value : Nat) (unsigned long decimal : Bool) :
      StartsPostfix P (.int value unsigned long decimal)
  | lparen : StartsPostfix P (.punct .lparen)

/-- What an expression starts with. -/
def StartsExpr (P : String → Prop) (k : TokenKind) : Prop :=
  StartsPostfix P k ∨ ∃ op : PrefixOperator, k = op.kind

theorem StartsExpr.ne_rparen {k : TokenKind} (starts : StartsExpr P k) : k ≠ .punct .rparen := by
  obtain (_ | _ | _) | ⟨op, rfl⟩ := starts
  · exact fun same => by cases same
  · exact fun same => by cases same
  · exact fun same => by cases same
  · exact fun same => by cases op <;> cases same

theorem startsType_expr {k : TokenKind} (starts : StartsExpr P k) {s : ParserState}
    (untyped : s.Untyped P) (loc : Location) : startsType ⟨k, loc⟩ s = .ok false s := by
  obtain (@⟨x, among⟩ | _ | _) | ⟨op, rfl⟩ := starts
  · have read : find? x s = .ok (s.scopes.find? x) s := rfl
    refine (bind_ok read).trans ?_
    rw [untyped x among]
    rfl
  · rfl
  · rfl
  · cases op <;> rfl

theorem unary_of_startsPostfix {k : TokenKind} (starts : StartsPostfix P k) {loc : Location}
    {s : ParserState} :
    unary g (s.before (⟨k, loc⟩ :: ts)) = postfixed g (s.before (⟨k, loc⟩ :: ts)) := by
  cases starts <;> rfl

end Parser

namespace WrittenExpr

open LiveC.Parser

variable {P : String → Prop}

theorem exists_startsPostfix : (e : WrittenExpr) → e.isPostfix = true → e.Derivable P →
    ∃ k ks, e.kinds = k :: ks ∧ StartsPostfix P k
  | name x, _, h => ⟨_, _, rfl, .name h⟩
  | int .., _, _ => ⟨_, _, rfl, .int ..⟩
  | parens _, _, _ => ⟨_, _, rfl, .lparen⟩
  | call callee args, _, h => by
    obtain ⟨k, ks, kinds, starts⟩ := callee.exists_startsPostfix h.1 h.2.1
    exact ⟨k, _, by rw [WrittenExpr.kinds, kinds, List.cons_append], starts⟩

theorem exists_starts : (e : WrittenExpr) → e.Derivable P →
    ∃ k ks, e.kinds = k :: ks ∧ StartsExpr P k
  | name _, h => ⟨_, _, rfl, .inl (.name h)⟩
  | int .., _ => ⟨_, _, rfl, .inl (.int ..)⟩
  | parens _, _ => ⟨_, _, rfl, .inl .lparen⟩
  | unary op _, _ => ⟨_, _, rfl, .inr ⟨op, rfl⟩⟩
  | call callee args, h => by
    obtain ⟨k, ks, kinds, starts⟩ := callee.exists_starts h.2.1
    exact ⟨k, _, by rw [WrittenExpr.kinds, kinds, List.cons_append], starts⟩
  | binary op l r, h => by
    obtain ⟨k, ks, kinds, starts⟩ := l.exists_starts h.2.2.1
    exact ⟨k, _, by rw [WrittenExpr.kinds, kinds, List.cons_append], starts⟩
  | conditional c t f, h => by
    obtain ⟨k, ks, kinds, starts⟩ := c.exists_starts h.2.2.1
    exact ⟨k, _, by rw [WrittenExpr.kinds, kinds, List.cons_append], starts⟩
  | assign op? target value, h => by
    obtain ⟨k, ks, kinds, starts⟩ := target.exists_starts h.2.1
    exact ⟨k, _, by rw [WrittenExpr.kinds, kinds, List.cons_append], starts⟩

/-- A parenthesis that an operand starts with opens no type's name. -/
theorem atTypeName_false : (e : WrittenExpr) → e.level = 0 → e.Derivable P → {s : ParserState} →
    s.Untyped P → {ts : List Token} → ts.map Token.kind = e.kinds → (tail : List Token) →
    atTypeName (s.before (ts ++ tail)) = .ok false (s.before (ts ++ tail))
  | name _, _, _, _, _, _, kinds, _ | int .., _, _, _, _, _, kinds, _ => by
    obtain ⟨loc, others, rfl, -⟩ := exists_token kinds
    exact atTypeName_else nofun
  | unary op _, _, _, _, _, _, kinds, _ => by
    obtain ⟨loc, others, rfl, -⟩ := exists_token kinds
    cases op <;> exact atTypeName_else nofun
  | parens e, _, derivable, s, untyped, _, kinds, tail => by
    obtain ⟨opening, others, rfl, inside⟩ := exists_token kinds
    obtain ⟨k, ks, first, starts⟩ := e.exists_starts derivable
    rw [first] at inside
    obtain ⟨loc, others, rfl, -⟩ := exists_token inside
    have untyped (ts : List Token) : (s.before ts).Untyped P := untyped
    exact startsType_expr starts (untyped _) loc
  | call callee args, _, ⟨post, derivable, _⟩, _, untyped, _, kinds, tail => by
    obtain ⟨front, back, rfl, first, -⟩ := List.map_eq_append_iff.mp kinds
    rw [List.append_assoc]
    exact callee.atTypeName_false (level_of_isPostfix post) derivable untyped first (back ++ tail)

end WrittenExpr

namespace Parser

variable {P : String → Prop} {g : Productions} {n : Nat} {ts tail : List Token}

/-! ### Operands -/

/-- The expressions behind which arguments can stand are read up to what is there. -/
def ReadsPostfix (P : String → Prop) (e : WrittenExpr) : Prop :=
  ∀ (n : Nat) (ts tail : List Token), e.levels ≤ n + 1 → ts.map Token.kind = e.kinds →
    Tracks P Expr.bare (postfixed (productions n)) (e.typedTree (opens tail))
      (loop (postfixStep (productions n))) ts tail

/-- The operands of binary operators are read. -/
def ReadsUnary (P : String → Prop) (e : WrittenExpr) : Prop :=
  ∀ (n : Nat) (ts tail : List Token), e.levels ≤ n + 1 → ts.map Token.kind = e.kinds →
    EndsExpression 0 tail → Mirrors P Expr.bare (unary (productions n)) (e.typedTree false) ts tail

/-- Operands that are joined by the operators of some levels are read up to what is behind them. -/
def ReadsBinary (P : String → Prop) (e : WrittenExpr) : Prop :=
  ∀ (n m : Nat) (ts tail : List Token), e.levels ≤ n → e.level ≤ m →
    ts.map Token.kind = e.kinds → EndsExpression (e.level - 1) tail →
      Tracks P Expr.bare (binary (productions n) m) e.tree (operators (productions n) m) ts tail

def ReadsConditional (P : String → Prop) (e : WrittenExpr) : Prop :=
  ∀ (n : Nat) (ts tail : List Token), e.levels ≤ n → ts.map Token.kind = e.kinds →
    EndsExpression 11 tail → Mirrors P Expr.bare (conditional (productions n)) e.tree ts tail

def ReadsAssignment (P : String → Prop) (e : WrittenExpr) : Prop :=
  ∀ (n : Nat) (ts tail : List Token), e.levels ≤ n → ts.map Token.kind = e.kinds →
    EndsExpression 12 tail → Mirrors P Expr.bare (assignment (productions n)) e.tree ts tail

/-- Arguments are read up to the closing parenthesis. -/
def ReadsArguments (P : String → Prop) (es : List WrittenExpr) : Prop :=
  ∀ (n : Nat) (ts tail : List Token) (close : Token), WrittenExpr.levelsAll es ≤ n + 1 →
    ts.map Token.kind = WrittenExpr.kindsAll es → close.kind = .punct .rparen →
      Mirrors P (List.map Expr.bareArgument) (arguments (productions n))
        (WrittenExpr.typedTrees es) (ts ++ [close]) tail

section

variable {e l r : WrittenExpr}

theorem ReadsPostfix.unary (h : ReadsPostfix P e) (post : e.isPostfix = true)
    (derivable : e.Derivable P) : ReadsUnary P e := by
  intro n ts tail low kinds ends
  have read := (h n ts tail low kinds).then fun a s =>
    (iterate_done (postfixStep_ends ends a s) : loop _ a _ = _)
  rw [ends.opens] at read
  obtain ⟨k, ks, first, starts⟩ := e.exists_startsPostfix post derivable
  obtain ⟨loc, others, rfl, -⟩ := exists_token (kinds.trans first)
  exact read.step fun s _ => unary_of_startsPostfix starts

/-- What is no type's name in parentheses is read by the same production. -/
theorem ReadsUnary.cast (h : ReadsUnary P e) (level : e.level = 0) (derivable : e.Derivable P)
    {n : Nat} {ts tail : List Token} (low : e.levels ≤ n + 1)
    (kinds : ts.map Token.kind = e.kinds) (ends : EndsExpression 0 tail) :
    Mirrors P Expr.bare (Parser.cast (productions n)) (e.typedTree false) ts tail :=
  (h n ts tail low kinds ends).step fun _ untyped =>
    cast_of_other (e.atTypeName_false level derivable untyped kinds tail)

theorem ReadsUnary.binary (h : ReadsUnary P e) (level : e.level = 0) (derivable : e.Derivable P) :
    ReadsBinary P e := by
  intro n m ts tail low _ kinds ends
  obtain ⟨n, rfl⟩ : ∃ k, n = k + 1 := ⟨n - 1, by have := e.levels_pos; omega⟩
  rw [level] at ends
  rw [binary_eq (productions_moving (n + 1)), WrittenExpr.tree, WrittenExpr.operand, if_pos level]
  have operand := (h.cast level derivable low kinds ends).next fun a => Mirrors.bounded a
  exact Mirrors.tracks operand _

theorem ReadsBinary.conditional (h : ReadsBinary P e) (level : e.level ≤ 10) :
    ReadsConditional P e := by
  intro n ts tail low kinds ends
  have read := (h n 10 ts tail low level kinds (ends.mono (by omega))).then fun a s =>
    operators_blocked ((ends.mono (by omega)).blocked s)
  have stops (a : Expr) (s : ParserState) : check .question (s.before tail) = .ok false _ :=
    check_else (ends.front_ne rfl (Nat.le_refl _))
  exact (Mirrors.tracks read _).then fun a s => (bind_ok (stops a s)).trans rfl

theorem ReadsConditional.assignment (h : ReadsConditional P e) : ReadsAssignment P e := by
  intro n ts tail low kinds ends
  have read := h n ts tail low kinds (ends.mono (by omega))
  refine (Mirrors.tracks read _).then fun a s => ?_
  refine (bind_ok (peekPunct?_run _)).trans ?_
  rw [ends.assignmentOp? s]

end

end Parser

end LiveC
