import LiveC.Proofs.ConversionTyping
import LiveC.Proofs.ParserProgress

/-!
Constants as they are written in initialisers: numbers and characters, with signs and parentheses,
and null pointers. Wherever its tokens are read in front of the end of an initialiser, a constant
comes to the literal that it denotes.
-/

namespace LiveC

/-! ### Literals -/

namespace Expr

/-- Numbers of a scalar type. -/
inductive IsLiteral : Expr → Prop where
  | int {n : Note} {v : Word} : n.ty.isInteger = true ∨ n.ty.isPointer = true → IsLiteral (int n v)
  | float {n : Note} {v : Double} : n.ty = .double → IsLiteral (float n v)

/-- An expression is a literal, wherever the literal stands. -/
structure Is (e literal : Expr) : Prop where
  isLiteral : literal.IsLiteral
  same : e = literal.withLoc e.loc

end Expr

/-- The signs of constants. -/
inductive Sign where
  | plus | minus | complement

namespace Sign

def punct : Sign → Punct
  | plus => .plus
  | minus => .minus
  | complement => .tilde

def apply : Sign → Expr → Location → Typing Expr
  | plus => Expr.plus
  | minus => Expr.negation
  | complement => Expr.complement

/-- What a sign makes of a literal. -/
def value (sign : Sign) (e : Expr) : Expr :=
  (((sign.apply e .start).run []).toOption.map Prod.fst).getD e

theorem value_eq {sign : Sign} {e r : Expr} {ws : List SemanticNotice}
    (run : (sign.apply e .start).run [] = .ok (r, ws)) : sign.value e = r := by
  rw [value, run]
  rfl

end Sign

/-- A constant as it is written. -/
inductive Constant where
  | int (value : Nat) (unsigned long decimal : Bool)
  | float (value : Double)
  | char (value : Int)
  | signed (sign : Sign) (c : Constant)
  | parens (c : Constant)
  /-- A constant that is cast to `void *`. -/
  | pointer (c : Constant)

namespace Constant

def kinds : Constant → List TokenKind
  | int value unsigned long decimal => [.int value unsigned long decimal]
  | float value => [.float value]
  | char value => [.char value]
  | signed sign c => .punct sign.punct :: c.kinds
  | parens c => .punct .lparen :: (c.kinds ++ [.punct .rparen])
  | pointer c =>
      .punct .lparen :: .keyword .voidKw :: .punct .star :: .punct .rparen :: c.kinds

/-- The literal that a constant denotes, at the start of a source. -/
def literal : Constant → Expr
  | int value unsigned long decimal =>
      .int ⟨.int (IntType.ofLiteral value unsigned long decimal), .start⟩ (BitVec.ofNat 64 value)
  | float value => .float ⟨.double, .start⟩ value
  | char value => .int ⟨.int .int, .start⟩ (BitVec.ofInt 64 value)
  | signed sign c => sign.value c.literal
  | parens c => c.literal
  | pointer c => c.literal.convert (.pointer .void)

end Constant

namespace Expr

variable {e v : Expr} {ty : CType} {loc place : Location} {ws : List SemanticNotice}
  {r : Expr × List SemanticNotice}

theorem Is.int {x : Word} (scalar : ty.isInteger = true ∨ ty.isPointer = true) :
    (int ⟨ty, loc⟩ x).Is (int ⟨ty, place⟩ x) := ⟨.int scalar, rfl⟩

theorem Is.float {x : Double} : (Expr.float ⟨.double, loc⟩ x).Is (.float ⟨.double, place⟩ x) :=
  ⟨.float rfl, rfl⟩

theorem Is.cases (h : e.Is v) :
    (∃ ty loc place x, (ty.isInteger = true ∨ ty.isPointer = true) ∧ e = .int ⟨ty, loc⟩ x ∧
      v = .int ⟨ty, place⟩ x) ∨
    ∃ loc place x, e = .float ⟨.double, loc⟩ x ∧ v = .float ⟨.double, place⟩ x := by
  obtain ⟨literal, same⟩ := h
  cases literal with
  | @int n x scalar => exact .inl ⟨n.ty, _, n.loc, x, scalar, same, rfl⟩
  | @float n x double =>
      obtain ⟨_, place⟩ := n
      cases double
      exact .inr ⟨_, place, x, same, rfl⟩

theorem exists_promote (t : IntType) : ∃ u, (CType.int t).promote = .int u := by
  unfold CType.promote
  split
  case h_1 => split <;> exact ⟨_, rfl⟩
  case h_2 other => exact absurd rfl (other t)

/-- An integer literal as another integer type holds it. -/
theorem convert_int {t u : IntType} {x : Word} :
    (Expr.int ⟨.int t, loc⟩ x).convert (.int u) =
      .int ⟨.int u, loc⟩ (if CType.int t = .int u then x else u.wrap x) := by
  unfold convert
  split
  case isTrue same =>
    cases same
    exact (congrArg _ (if_pos rfl)).symm
  case isFalse other => exact congrArg _ (if_neg other).symm

/-- An integer literal or a pointer as another pointer type holds it. -/
theorem convert_pointer {p : CType} {x : Word} (scalar : ty.isInteger = true ∨ ty.isPointer = true) :
    (Expr.int ⟨ty, loc⟩ x).convert (.pointer p) = .int ⟨.pointer p, loc⟩ x := by
  unfold convert
  split
  case isTrue same =>
    cases same
    rfl
  case isFalse => rfl

/-- A sign in front of an integer. -/
theorem sign_int (sign : Sign) (t : IntType) (x : Word) :
    ∃ u y, ∀ loc place ws, ∃ place', (sign.apply (int ⟨.int t, loc⟩ x) place).run ws =
      .ok (int ⟨.int u, place'⟩ y, ws) := by
  obtain ⟨u, promoted⟩ := exists_promote t
  have convert (loc : Location) := @convert_int loc t u x
  generalize (if CType.int t = .int u then x else u.wrap x) = y at convert
  cases sign with
  | plus =>
      refine ⟨u, y, fun loc place ws => ⟨loc, ?_⟩⟩
      simp only [Sign.apply, plus, promotedOperand, rvalue, ty, note, CType.isArithmetic,
        promoted, convert]
      rfl
  | minus =>
      refine ⟨u, u.wrap (-y), fun loc place ws => ⟨place, ?_⟩⟩
      simp only [Sign.apply, negation, promotedOperand, rvalue, ty, note, CType.isArithmetic,
        promoted, convert]
      rfl
  | complement =>
      refine ⟨u, u.wrap (~~~y), fun loc place ws => ⟨place, ?_⟩⟩
      simp only [Sign.apply, complement, promotedOperand, rvalue, ty, note, CType.isInteger,
        promoted, convert]
      rfl

/-- A sign in front of a double. -/
theorem sign_float (sign : Sign) (x : Double) :
    (∃ y, ∀ loc place ws, ∃ place', (sign.apply (Expr.float ⟨.double, loc⟩ x) place).run ws =
      .ok (.float ⟨.double, place'⟩ y, ws)) ∨
    ∀ loc place ws, ∃ e, (sign.apply (Expr.float ⟨.double, loc⟩ x) place).run ws = .error e := by
  cases sign with
  | plus => exact .inl ⟨x, fun loc _ _ => ⟨loc, rfl⟩⟩
  | minus => exact .inl ⟨x.neg, fun _ place _ => ⟨place, rfl⟩⟩
  | complement => exact .inr fun _ _ _ => ⟨_, rfl⟩

theorem sign_pointer (sign : Sign) (p : CType) (x : Word) (place : Location) :
    ∃ e, (sign.apply (int ⟨.pointer p, loc⟩ x) place).run ws = .error e := by
  cases sign <;> exact ⟨_, rfl⟩

/-- A sign makes a literal of a literal, wherever that stands. -/
theorem Is.sign (h : e.Is v) (sign : Sign) (place : Location) :
    (sign.apply e place).Yields fun r => r.Is (sign.value v) := by
  intro ws r ws' run
  obtain ⟨ty, first, second, x, scalar, rfl, rfl⟩ | ⟨first, second, x, rfl, rfl⟩ := h.cases
  · cases ty with
    | int t =>
        obtain ⟨u, y, always⟩ := sign_int sign t x
        obtain ⟨_, here⟩ := always first place ws
        obtain ⟨_, there⟩ := always second .start []
        cases run.symm.trans here
        rw [Sign.value_eq there]
        exact .int (.inl rfl)
    | pointer p =>
        obtain ⟨e, failed⟩ := sign_pointer sign p x place
        cases run.symm.trans failed
    | void | double | array | function => simp [CType.isInteger, CType.isPointer] at scalar
  · obtain ⟨y, always⟩ | never := sign_float sign x
    · obtain ⟨_, here⟩ := always first place ws
      obtain ⟨_, there⟩ := always second .start []
      cases run.symm.trans here
      rw [Sign.value_eq there]
      exact .float
    · obtain ⟨e, failed⟩ := never first place ws
      cases run.symm.trans failed

theorem Is.withLoc (h : e.Is v) (loc : Location) : (e.withLoc loc).Is v := by
  obtain ⟨ty, first, second, x, scalar, rfl, rfl⟩ | ⟨first, second, x, rfl, rfl⟩ := h.cases
  · exact .int scalar
  · exact .float

theorem Is.rvalue (h : e.Is v) : e.rvalue = e := by
  obtain ⟨ty, first, second, x, scalar, rfl, rfl⟩ | ⟨first, second, x, rfl, rfl⟩ := h.cases
  · cases ty with
    | int | pointer => rfl
    | void | double | array | function => simp [CType.isInteger, CType.isPointer] at scalar
  · rfl

/-- Conversion to a scalar type makes a literal of a literal, wherever that stands. -/
theorem Is.convert (h : e.Is v) {target : CType} (scalar : target.isScalar = true)
    (cast : castable e.ty target = true) : (e.convert target).Is (v.convert target) := by
  obtain ⟨ty, first, second, x, source, rfl, rfl⟩ | ⟨first, second, x, rfl, rfl⟩ := h.cases
  · cases target with
    | int u =>
        cases ty with
        | int t =>
            rw [convert_int, convert_int]
            exact .int (.inl rfl)
        | pointer p => exact .int (.inl rfl)
        | void | double | array | function => simp [CType.isInteger, CType.isPointer] at source
    | pointer q =>
        rw [convert_pointer source, convert_pointer source]
        exact .int (.inr rfl)
    | double =>
        cases ty with
        | int t => exact .float
        | pointer p => cases cast
        | void | double | array | function => simp [CType.isInteger, CType.isPointer] at source
    | void | array | function => cases scalar
  · cases target with
    | int u => exact .int (.inl rfl)
    | double => exact .float
    | pointer q => cases cast
    | void | array | function => cases scalar

/-- A cast gives the converted value at its place. -/
theorem castTo_converts (e : Expr) (target : CType) (loc : Location) :
    (e.castTo target loc).Yields fun r =>
      r = (e.rvalue.convert target).withLoc loc ∧ castable e.rvalue.ty target = true :=
  .ite (fun cast => .pure ⟨rfl, cast⟩) fun _ => .fail

/-- Conversion as if by assignment gives the converted value. -/
theorem assignConvert_converts (e : Expr) (target : CType) (loc : Location) :
    (e.assignConvert target loc).Yields fun r =>
      r = e.rvalue.convert target ∧ castable e.rvalue.ty target = true ∧ target.isScalar = true := by
  have converted (cast : castable e.rvalue.ty target = true) (scalar : target.isScalar = true) :
      (pure (e.rvalue.convert target) : Typing Expr).Yields fun r =>
        r = e.rvalue.convert target ∧ castable e.rvalue.ty target = true ∧ target.isScalar = true :=
    .pure ⟨rfl, cast, scalar⟩
  unfold assignConvert
  generalize e.rvalue = e at *
  dsimp only
  split
  case isTrue =>
    split
    case h_1 hs _ =>
      have done := converted (by rw [hs]; rfl) rfl
      exact .ite (fun _ => .skip fun _ => done) fun _ => done
    case h_2 hs _ =>
      have done := converted (by rw [hs]; rfl) rfl
      exact .ite (fun _ => .skip fun _ => done) fun _ => done
    case h_3 hs _ => exact .skip fun _ => converted (by rw [hs]; rfl) rfl
    case h_4 => exact .bind (P := fun _ => False) nofun nofun
  case isFalse arithmetic =>
    simp only [Bool.not_eq_true, Bool.not_eq_false', Bool.and_eq_true] at arithmetic
    exact converted (CType.castable_of_isArithmetic arithmetic.1 arithmetic.2)
      (CType.isScalar_of_isArithmetic arithmetic.2)

end Expr

/-- The kinds of the tokens that are left. -/
def ParserState.kinds (s : ParserState) : List TokenKind := s.rest.map Token.kind

/-- The same state in front of other tokens. -/
def ParserState.before (s : ParserState) (ts : List Token) : ParserState := { s with rest := ts }

/-- The first of tokens of these kinds. -/
theorem exists_token {ts : List Token} {k : TokenKind} {ks : List TokenKind}
    (kinds : ts.map Token.kind = k :: ks) :
    ∃ loc others, ts = ⟨k, loc⟩ :: others ∧ others.map Token.kind = ks := by
  obtain ⟨⟨_, loc⟩, others, rfl, rfl, behind⟩ := List.map_eq_cons_iff.mp kinds
  exact ⟨loc, others, rfl, behind⟩

namespace Parser

variable {α β : Type} {g : Productions} {s t : ParserState} {e : Expr} {k k' : TokenKind}
  {ks more : List TokenKind} {n : Nat}

/-! ### Tokens -/

theorem front_of_kinds (h : s.kinds = k :: ks) : s.front.kind = k := by
  cases rest : s.rest with
  | nil => simp [ParserState.kinds, rest] at h
  | cons token tokens =>
      rw [ParserState.kinds, rest] at h
      rw [ParserState.front, rest]
      exact (List.cons.inj h).1

theorem second_of_kinds (h : s.kinds = k :: k' :: ks) :
    (s.rest.tail.head?.getD ⟨.eof, s.endLoc⟩).kind = k' := by
  obtain ⟨first, others, rest, rfl, behind⟩ := List.map_eq_cons_iff.mp h
  obtain ⟨second, tokens, rfl, rfl, -⟩ := List.map_eq_cons_iff.mp behind
  rw [rest]
  rfl

/-- Passing a token. -/
theorem next_run (f : Token → Parser α) (s : ParserState) :
    (next >>= f) s = f s.front { s with rest := s.rest.tail } := rfl

theorem kinds_tail (h : s.kinds = k :: ks) : { s with rest := s.rest.tail }.kinds = ks := by
  obtain ⟨first, others, rest, -, rfl⟩ := List.map_eq_cons_iff.mp h
  rw [ParserState.kinds, rest]
  rfl

theorem check_eq {p : Punct} (h : s.kinds = k :: ks) :
    check p s = .ok (k == .punct p) s := by
  have run : check p s = .ok (s.front.kind == .punct p) s := rfl
  rw [run, front_of_kinds h]

theorem check_else {p : Punct} (h : s.front.kind ≠ .punct p) : check p s = .ok false s := by
  have run : check p s = .ok (s.front.kind == .punct p) s := rfl
  rw [run, beq_eq_false_iff_ne.mpr h]

theorem eat_else {p : Punct} (h : s.front.kind ≠ .punct p) : eat p s = .ok false s :=
  (bind_ok (check_else h)).trans rfl

theorem atTypeName_else (h : s.front.kind ≠ .punct .lparen) : atTypeName s = .ok false s :=
  (bind_ok (check_else h)).trans rfl

theorem front_ne {ts : List Token} {k : TokenKind} (h : (ts.map Token.kind).head? ≠ some k)
    (notEnd : k ≠ .eof) : (s.before ts).front.kind ≠ k := by
  cases ts with
  | nil => exact notEnd.symm
  | cons t ts => exact fun kind => h (congrArg some kind)

theorem expect_ok {p : Punct} (h : s.kinds = k :: ks) (run : expect p s = .ok () t) :
    k = .punct p ∧ t.kinds = ks := by
  obtain ⟨found, u, seen, last⟩ := bind_eq_ok run
  obtain ⟨here, v, checked, passed⟩ := bind_eq_ok seen
  cases (check_eq h).symm.trans checked
  cases isNext : k == .punct p with
  | true =>
      rw [isNext] at passed
      cases passed
      cases last
      exact ⟨beq_iff_eq.mp isNext, kinds_tail h⟩
  | false =>
      rw [isNext] at passed
      cases passed
      cases last

theorem typed_ok {a : α} {x : Typing α} {Q : α → Prop} (h : x.Yields Q)
    (run : typed x s = .ok a t) : Q a ∧ t.kinds = s.kinds := by
  unfold typed at run
  cases read : x.run s.warnings with
  | error e =>
      rw [read] at run
      cases run
  | ok r =>
      rw [read] at run
      cases run
      exact ⟨h _ _ _ read, rfl⟩

/-! ### Ends -/

/-- What is behind an initialiser or a part of one. -/
def Ending (kinds : List TokenKind) : Prop :=
  ∃ p ks, kinds = .punct p :: ks ∧ (p = .comma ∨ p = .semicolon ∨ p = .rbrace ∨ p = .rparen)

/-- A production goes on where another one has read something, unless that is the end. -/
def Extends (p q : Parser Expr) : Prop :=
  ∀ ⦃s e t⦄, p s = .ok e t → ∃ e' t', q s = .ok e' t' ∧ (Ending t'.kinds → e = e' ∧ t = t')

theorem Extends.trans {p q r : Parser Expr} (h : Extends p q) (k : Extends q r) : Extends p r := by
  intro s e t run
  obtain ⟨e', t', run', same⟩ := h run
  obtain ⟨e'', t'', run'', same'⟩ := k run'
  refine ⟨e'', t'', run'', fun ending => ?_⟩
  obtain ⟨rfl, rfl⟩ := same' ending
  exact same ending

theorem iterate_done {step : β → Parser (ForInStep β)} {b c : β}
    (run : step b s = .ok (.done c) t) : iterate step b s = .ok c t := by
  rw [iterate, run]

theorem extends_bounded {p : Parser Expr} : Extends (do bounded (← p)) p := by
  intro s e t run
  obtain ⟨e', t', read, last⟩ := bind_eq_ok run
  refine ⟨e', t', read, fun _ => ?_⟩
  unfold bounded at last
  split at last
  · cases last
  · cases last
    exact ⟨rfl, rfl⟩

/-- A loop behind a production that is done at an end. -/
theorem extends_iterate {p : Parser Expr} {step : Expr → Parser (ForInStep Expr)}
    (h : ∀ e s, Ending s.kinds → step e s = .ok (.done e) s) :
    Extends (do iterate step (← p)) p := by
  intro s e t run
  obtain ⟨e', t', read, last⟩ := bind_eq_ok run
  refine ⟨e', t', read, fun ending => ?_⟩
  cases (iterate_done (h e' t' ending)).symm.trans last
  exact ⟨rfl, rfl⟩

/-- Looking at a token. -/
theorem peek_run (f : Token → Parser α) (s : ParserState) : (peek >>= f) s = f s.front s := rfl

theorem postfixStep_ending (e : Expr) (ending : Ending s.kinds) :
    postfixStep g e s = .ok (.done e) s := by
  obtain ⟨p, ks, kinds, ends⟩ := ending
  rw [postfixStep, peek_run, front_of_kinds kinds]
  obtain rfl | rfl | rfl | rfl := ends <;> rfl

theorem peekPunct?_of_kinds {p : Punct} (h : s.kinds = .punct p :: ks) :
    peekPunct? s = .ok (some p) s := by
  rw [peekPunct?, peek_run, front_of_kinds h]
  rfl

theorem binaryStep_ending (n : Nat) (e : Expr) (ending : Ending s.kinds) :
    binaryStep g n e s = .ok (.done e) s := by
  obtain ⟨p, ks, kinds, ends⟩ := ending
  refine (bind_ok (peekPunct?_of_kinds kinds)).trans ?_
  obtain rfl | rfl | rfl | rfl := ends <;> rfl

theorem extends_binary (n : Nat) : Extends (binary g n) g.cast := by
  induction n with
  | zero => exact extends_bounded
  | succ n ih =>
      have step : Extends (binary g (n + 1)) (binary g n) :=
        extends_iterate fun e _ => binaryStep_ending n e
      exact step.trans ih

theorem extends_conditional : Extends (conditional g) g.cast := by
  have behind : Extends (conditional g) (binary g Operator.maxLevel) := by
    intro s e t run
    obtain ⟨e', t', read, last⟩ := bind_eq_ok run
    refine ⟨e', t', read, fun ending => ?_⟩
    obtain ⟨p, ks, kinds, ends⟩ := ending
    rw [bind_ok (check_eq kinds)] at last
    obtain rfl | rfl | rfl | rfl := ends <;>
    · cases last
      exact ⟨rfl, rfl⟩
  exact behind.trans (extends_binary _)

theorem extends_assignment : Extends (assignment g) g.cast := by
  have behind : Extends (assignment g) (conditional g) := by
    intro s e t run
    obtain ⟨e', t', read, last⟩ := bind_eq_ok run
    refine ⟨e', t', read, fun ending => ?_⟩
    obtain ⟨p, ks, kinds, ends⟩ := ending
    rw [bind_ok (peekPunct?_of_kinds kinds)] at last
    obtain rfl | rfl | rfl | rfl := ends <;>
    · cases last
      exact ⟨rfl, rfl⟩
  exact behind.trans extends_conditional

theorem extends_postfixed : Extends (postfixed g) (primary g) :=
  extends_iterate fun e _ => postfixStep_ending e

/-! ### Constants -/

/-- A production reads tokens of kinds that an end is behind. -/
def Reads (p : Parser Expr) (ks : List TokenKind) (Q : Expr → ParserState → Prop) : Prop :=
  ∀ ⦃s e t more⦄, s.kinds = ks ++ more → Ending more → p s = .ok e t → t.kinds = more ∧ Q e t

theorem Extends.reads {p q : Parser Expr} {Q : Expr → ParserState → Prop} (h : Extends p q)
    (reads : Reads q ks Q) : Reads p ks Q := by
  intro s e t more kinds ending run
  obtain ⟨e', t', run', same⟩ := h run
  obtain ⟨left, value⟩ := reads kinds ending run'
  obtain ⟨rfl, rfl⟩ := same (left.symm ▸ ending)
  exact ⟨left, value⟩

/-- The first tokens of constants and string literals. -/
inductive StartsValue : TokenKind → Prop where
  | int (value : Nat) (unsigned long decimal : Bool) : StartsValue (.int value unsigned long decimal)
  | float (value : Double) : StartsValue (.float value)
  | char (value : Int) : StartsValue (.char value)
  | str (bytes : List UInt8) : StartsValue (.str bytes)
  | sign (sign : Sign) : StartsValue (.punct sign.punct)
  | lparen : StartsValue (.punct .lparen)

theorem exists_kinds (c : Constant) : ∃ k ks, c.kinds = k :: ks ∧ StartsValue k := by
  cases c with
  | int => exact ⟨_, _, rfl, .int ..⟩
  | float => exact ⟨_, _, rfl, .float _⟩
  | char => exact ⟨_, _, rfl, .char _⟩
  | signed sign => exact ⟨_, _, rfl, .sign sign⟩
  | parens | pointer => exact ⟨_, _, rfl, .lparen⟩

theorem startsType_value {token : Token} (h : StartsValue token.kind) :
    startsType token s = .ok false s := by
  obtain ⟨kind, loc⟩ := token
  cases h <;> rfl

theorem atTypeName_other (h : s.kinds = k :: ks) (other : k ≠ .punct .lparen) :
    atTypeName s = .ok false s := by
  refine (bind_ok (check_eq h)).trans ?_
  rw [beq_eq_false_iff_ne.mpr other]
  rfl

theorem atTypeName_lparen (h : s.kinds = .punct .lparen :: ks) :
    atTypeName s = startsType (s.rest.tail.head?.getD ⟨.eof, s.endLoc⟩) s :=
  bind_ok (check_eq h)

theorem atTypeName_value (h : s.kinds = .punct .lparen :: k :: ks) (value : StartsValue k) :
    atTypeName s = .ok false s :=
  (atTypeName_lparen h).trans (startsType_value ((second_of_kinds h).symm ▸ value))

theorem atTypeName_keyword {kw : Keyword} (h : s.kinds = .punct .lparen :: .keyword kw :: ks) :
    atTypeName s = .ok kw.startsType s := by
  rw [atTypeName_lparen h, startsType, second_of_kinds h]
  rfl

theorem cast_of_other (h : atTypeName s = .ok false s) : cast g s = unary g s := bind_ok h

/-- Operands that no prefix operator is in front of. -/
theorem unary_of_other (h : s.kinds = k :: ks) (value : StartsValue k)
    (other : ∀ sign : Sign, k ≠ .punct sign.punct) : unary g s = postfixed g s := by
  rw [unary, peek_run, front_of_kinds h]
  cases value with
  | sign sign => exact absurd rfl (other sign)
  | int | float | char | str | lparen => rfl

/-- An operand that is a single token. -/
theorem reads_cast {Q : Expr → ParserState → Prop} (value : StartsValue k)
    (other : ∀ p, k ≠ .punct p) (reads : Reads (primary g) (k :: ks) Q) :
    Reads (cast g) (k :: ks) Q := by
  intro s e t more kinds ending run
  rw [cast_of_other (atTypeName_other kinds (other _)),
    unary_of_other kinds value fun sign => other _] at run
  exact extends_postfixed.reads reads kinds ending run

theorem primary_int (value : Nat) (unsigned long decimal : Bool) :
    Reads (primary g) (Constant.int value unsigned long decimal).kinds fun e _ =>
      e.Is (Constant.int value unsigned long decimal).literal := by
  intro s e t more kinds ending run
  rw [primary, next_run, front_of_kinds kinds] at run
  have tail : { s with rest := s.rest.tail }.kinds = more := kinds_tail kinds
  dsimp only at run
  split at run
  all_goals
    cases run
    exact ⟨tail, .int (.inl rfl)⟩

theorem primary_float (value : Double) : Reads (primary g) (Constant.float value).kinds fun e _ =>
    e.Is (Constant.float value).literal := by
  intro s e t more kinds ending run
  rw [primary, next_run, front_of_kinds kinds] at run
  cases run
  exact ⟨kinds_tail kinds, .float⟩

theorem primary_char (value : Int) : Reads (primary g) (Constant.char value).kinds fun e _ =>
    e.Is (Constant.char value).literal := by
  intro s e t more kinds ending run
  rw [primary, next_run, front_of_kinds kinds] at run
  cases run
  exact ⟨kinds_tail kinds, .int (.inl rfl)⟩

variable {c : Constant}

theorem unary_sign (sign : Sign) (h : s.kinds = .punct sign.punct :: ks) :
    unary g s = (do
      let _ ← next
      let e ← g.cast
      typed (sign.apply e s.front.loc)) s := by
  rw [unary, peek_run, front_of_kinds h]
  cases sign <;> rfl

theorem cast_signed (reads : Reads g.cast c.kinds fun e _ => e.Is c.literal) (sign : Sign) :
    Reads (cast g) (Constant.signed sign c).kinds fun e _ =>
      e.Is (Constant.signed sign c).literal := by
  intro s e t more kinds ending run
  have other : TokenKind.punct sign.punct ≠ .punct .lparen := by cases sign <;> decide
  rw [cast_of_other (atTypeName_other kinds other), unary_sign sign kinds, next_run] at run
  obtain ⟨operand, u, read, last⟩ := bind_eq_ok run
  obtain ⟨left, literal⟩ := reads (kinds_tail kinds) ending read
  obtain ⟨value, same⟩ := typed_ok (literal.sign sign s.front.loc) last
  exact ⟨same.trans left, value⟩

theorem primary_parens (reads : Reads g.assignment c.kinds fun e _ => e.Is c.literal) :
    Reads (primary g) (Constant.parens c).kinds fun e _ => e.Is (Constant.parens c).literal := by
  intro s e t more kinds ending run
  rw [primary, next_run, front_of_kinds kinds] at run
  obtain ⟨inner, u, read, last⟩ := bind_eq_ok run
  obtain ⟨_, v, closed, done⟩ := bind_eq_ok last
  cases done
  have front : s.kinds = .punct .lparen :: (c.kinds ++ .punct .rparen :: more) :=
    kinds.trans (by simp [Constant.kinds])
  have inside : { s with rest := s.rest.tail }.kinds = c.kinds ++ (.punct .rparen :: more) :=
    kinds_tail front
  obtain ⟨first, w, operand, repeats⟩ := bind_eq_ok read
  obtain ⟨left, literal⟩ := reads inside ⟨_, _, rfl, .inr (.inr (.inr rfl))⟩ operand
  have stops : iterate (commaStep g) first w = .ok first w :=
    iterate_done (bind_ok (check_eq left))
  cases stops.symm.trans repeats
  exact ⟨(expect_ok left closed).2, literal⟩

theorem cast_parens (reads : Reads g.assignment c.kinds fun e _ => e.Is c.literal) :
    Reads (cast g) (Constant.parens c).kinds fun e _ => e.Is (Constant.parens c).literal := by
  intro s e t more kinds ending run
  obtain ⟨k, ks, inner, value⟩ := exists_kinds c
  have front : s.kinds = .punct .lparen :: k :: (ks ++ .punct .rparen :: more) := by
    rw [kinds, Constant.kinds, inner]
    simp
  rw [cast_of_other (atTypeName_value front value),
    unary_of_other front .lparen fun sign => by cases sign <;> decide] at run
  exact extends_postfixed.reads (primary_parens reads) kinds ending run

/-! ### Null pointers -/

theorem iterate_yield {step : β → Parser (ForInStep β)} {b c : β}
    (run : step b s = .ok (.yield c) t) (spent : t.rest.length < s.rest.length) :
    iterate step b s = iterate step c t := by
  rw [iterate, run]
  exact if_pos spent

theorem length_tail_lt (h : s.kinds = k :: ks) : s.rest.tail.length < s.rest.length := by
  obtain ⟨first, others, rest, -, -⟩ := List.map_eq_cons_iff.mp h
  rw [rest]
  exact Nat.lt_succ_self _

theorem declSpecifiers_void (h : s.kinds = .keyword .voidKw :: .punct .star :: ks) :
    declSpecifiers s = .ok ⟨.void, none, false⟩ { s with rest := s.rest.tail } := by
  have word : specifier {} s =
      .ok (.yield { words := [.void], any := true }) { s with rest := s.rest.tail } := by
    rw [specifier, peek_run, front_of_kinds h]
    rfl
  have done : specifier { words := [.void], any := true } { s with rest := s.rest.tail } =
      .ok (.done { words := [.void], any := true }) { s with rest := s.rest.tail } := by
    rw [specifier, peek_run, front_of_kinds (kinds_tail h)]
    rfl
  have all : iterate specifier {} s =
      .ok { words := [.void], any := true } { s with rest := s.rest.tail } :=
    (iterate_yield word (length_tail_lt h)).trans (iterate_done done)
  exact (bind_ok (f := fun specifiers => _) all).trans rfl

theorem eat_other {p : Punct} (h : s.kinds = k :: ks) (other : k ≠ .punct p) :
    eat p s = .ok false s := by
  refine (bind_ok (check_eq h)).trans ?_
  rw [beq_eq_false_iff_ne.mpr other]
  rfl

theorem eat_here {p : Punct} (h : s.kinds = .punct p :: ks) :
    eat p s = .ok true { s with rest := s.rest.tail } := by
  refine (bind_ok (check_eq h)).trans ?_
  rw [beq_self_eq_true]
  rfl

theorem expect_here {p : Punct} (h : s.kinds = .punct p :: ks) :
    expect p s = .ok () { s with rest := s.rest.tail } := (bind_ok (eat_here h)).trans rfl

theorem eatKeyword_punct {kw : Keyword} {p : Punct} (h : s.kinds = .punct p :: ks) :
    eatKeyword kw s = .ok false s := by
  rw [eatKeyword, peek_run, front_of_kinds h]
  rfl

theorem qualifiers_punct {p : Punct} (h : s.kinds = .punct p :: ks) :
    pointerQualifiers s = .ok () s := by
  have no (kw : Keyword) : eatKeyword kw s = .ok false s := eatKeyword_punct h
  have last : (eatKeyword .restrictKw <||> eatKeyword .restrictGnuKw) s = .ok false s :=
    (bind_ok (no _)).trans (no _)
  have any : (eatKeyword .constKw <||> eatKeyword .volatileKw <||> eatKeyword .restrictKw <||>
      eatKeyword .restrictGnuKw) s = .ok false s :=
    (bind_ok (no _)).trans ((bind_ok (no _)).trans last)
  exact iterate_done ((bind_ok any).trans rfl)

theorem attributes_punct {p : Punct} (h : s.kinds = .punct p :: ks) :
    skipAttributes s = .ok () s := by
  have no (kw : Keyword) : eatKeyword kw s = .ok false s := eatKeyword_punct h
  have any : (eatKeyword .attributeKw <||> eatKeyword .declspecKw) s = .ok false s :=
    (bind_ok (no _)).trans (no _)
  exact iterate_done ((bind_ok any).trans rfl)

theorem suffixes_rparen (base : CType) (h : s.kinds = .punct .rparen :: ks) :
    suffixes g base s = .ok (base, none) s := by
  refine (bind_ok (f := fun _ => _) (rfl : loc s = .ok s.front.loc s)).trans ?_
  refine (bind_ok (eat_other h (by decide))).trans ?_
  exact (bind_ok (eat_other h (by decide))).trans rfl

theorem pointers_star (base : CType) (h : s.kinds = .punct .star :: .punct .rparen :: ks) :
    pointers base s = .ok (.pointer base) { s with rest := s.rest.tail } := by
  have tail := kinds_tail h
  have star : pointerStep base s = .ok (.yield (.pointer base)) { s with rest := s.rest.tail } := by
    refine (bind_ok (eat_here h)).trans ?_
    refine (bind_ok (qualifiers_punct tail)).trans ?_
    exact (bind_ok (attributes_punct tail)).trans rfl
  have done : pointerStep (.pointer base) { s with rest := s.rest.tail } =
      .ok (.done (.pointer base)) { s with rest := s.rest.tail } :=
    (bind_ok (eat_other tail (by decide))).trans rfl
  exact (iterate_yield star (length_tail_lt h)).trans (iterate_done done)

theorem declarator_star (base : CType) (h : s.kinds = .punct .star :: .punct .rparen :: ks)
    {d : Declarator} (run : (productions n).declarator base true s = .ok d t) :
    d = ⟨none, .pointer base, none⟩ ∧ t = { s with rest := s.rest.tail } := by
  have tail := kinds_tail h
  cases n with
  | zero => cases run
  | succ n =>
      change declarator (productions n) base true s = .ok d t at run
      have plain : atNestedDeclarator { s with rest := s.rest.tail } =
          .ok false { s with rest := s.rest.tail } := (bind_ok (check_eq tail)).trans rfl
      rw [declarator, bind_ok (pointers_star base h), bind_ok (attributes_punct tail),
        bind_ok plain, if_neg Bool.false_ne_true, peek_run, front_of_kinds tail] at run
      cases n with
      | zero => cases run
      | succ n =>
          obtain ⟨_, _, absent, run⟩ := bind_eq_ok run
          cases absent
          obtain ⟨r, u, read, last⟩ := bind_eq_ok run
          cases (suffixes_rparen (.pointer base) tail).symm.trans read
          cases last
          exact ⟨rfl, rfl⟩

theorem typeName_void {ty : CType}
    (h : s.kinds = .keyword .voidKw :: .punct .star :: .punct .rparen :: ks)
    (run : typeName (productions n) s = .ok ty t) :
    ty = .pointer .void ∧ t.kinds = .punct .rparen :: ks := by
  rw [typeName, bind_ok (rfl : loc s = .ok s.front.loc s), bind_ok (declSpecifiers_void h)] at run
  obtain ⟨d, u, read, last⟩ := bind_eq_ok run
  obtain ⟨rfl, rfl⟩ := declarator_star .void (kinds_tail h) read
  cases last
  exact ⟨rfl, kinds_tail (kinds_tail h)⟩

theorem cast_pointer (reads : Reads (productions n).cast c.kinds fun e _ => e.Is c.literal) :
    Reads (cast (productions n)) (Constant.pointer c).kinds fun e _ =>
      e.Is (Constant.pointer c).literal := by
  intro s e t more kinds ending run
  have isType : Keyword.voidKw.startsType = true := by decide
  rw [cast, bind_ok (atTypeName_keyword kinds), if_pos isType, next_run] at run
  obtain ⟨ty, u, named, last⟩ := bind_eq_ok run
  obtain ⟨rfl, behind⟩ := typeName_void (kinds_tail kinds) named
  obtain ⟨_, v, closed, last⟩ := bind_eq_ok last
  obtain ⟨operand, w, read, last⟩ := bind_eq_ok last
  obtain ⟨left, literal⟩ := reads (expect_ok behind closed).2 ending read
  obtain ⟨⟨rfl, castable⟩, same⟩ := typed_ok (Expr.castTo_converts _ _ _) last
  rw [literal.rvalue] at castable ⊢
  exact ⟨same.trans left, (literal.convert rfl castable).withLoc _⟩

/-- Every constant comes to its literal, at whatever depth of nesting it is accepted. -/
theorem reads_constant (n : Nat) (c : Constant) :
    Reads (productions n).assignment c.kinds (fun e _ => e.Is c.literal) ∧
      Reads (productions n).cast c.kinds (fun e _ => e.Is c.literal) := by
  induction n generalizing c with
  | zero =>
      constructor <;>
      · intro s e t more kinds ending run
        cases run
  | succ n ih =>
      refine ⟨extends_assignment.reads (ih c).2, ?_⟩
      cases c with
      | int value unsigned long decimal =>
          exact reads_cast (.int ..) (by simp) (primary_int value unsigned long decimal)
      | float value => exact reads_cast (.float _) (by simp) (primary_float value)
      | char value => exact reads_cast (.char _) (by simp) (primary_char value)
      | signed sign c => exact cast_signed (ih c).2 sign
      | parens c => exact cast_parens (ih c).1
      | pointer c => exact cast_pointer (ih c).2

end Parser

end LiveC
