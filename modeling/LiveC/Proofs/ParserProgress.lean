import LiveC.Proofs.FileTransitions

/-!
Where a run of the parser consumes tokens. A round of a loop that is not the last one does, so
the loops end by themselves: that `iterate` goes on only while tokens are consumed never ends one.
-/

namespace LiveC

/-- The token at the front; behind the last one it is the end of input. -/
def ParserState.front (s : ParserState) : Token := s.rest.head?.getD ⟨.eof, s.endLoc⟩

namespace Parser

/-- The rounds of a loop that nothing but its step ends. Each round but the last consumes
tokens. -/
inductive Repeats {β : Type} (step : β → Parser (ForInStep β)) :
    β → ParserState → EStateM.Result SourceFault ParserState β → Prop where
  | failed {b : β} {s t : ParserState} {e : SourceFault} :
      step b s = .error e t → Repeats step b s (.error e t)
  | done {b c : β} {s t : ParserState} : step b s = .ok (.done c) t → Repeats step b s (.ok c t)
  | again {b c : β} {s t : ParserState} {r : EStateM.Result SourceFault ParserState β} :
      step b s = .ok (.yield c) t → t.rest.length < s.rest.length → Repeats step c t r →
        Repeats step b s r

/-- A loop gets from one value and state to others. -/
inductive Rounds {β : Type} (step : β → Parser (ForInStep β)) :
    β → ParserState → β → ParserState → Prop where
  | start (b : β) (s : ParserState) : Rounds step b s b s
  | again {b c d : β} {s t u : ParserState} :
      step b s = .ok (.yield c) t → Rounds step c t d u → Rounds step b s d u

/-- A run from a state consumes tokens if it gives what has a property. -/
def Spends {α : Type} (Q : α → Prop) (p : Parser α) (s : ParserState) : Prop :=
  ∀ a t, p s = .ok a t → Q a → t.rest.length < s.rest.length

/-- A loop goes on. -/
def GoesOn {β : Type} : ForInStep β → Prop
  | .yield _ => True
  | .done _ => False

/-- Nothing but the tokens matters. -/
theorem anywhere : UnitTransition fun _ _ => True where
  refl _ := trivial
  trans _ _ := trivial
  rest _ _ := trivial
  warnings _ _ := trivial
  errors _ _ := trivial
  bind _ _ _ := trivial
  bindFile _ _ _ := trivial
  symbol _ _ _ _ := trivial
  strings _ _ := trivial
  locals _ _ := trivial
  staticLocals _ _ := trivial
  global _ _ _ := trivial
  block _ := trivial
  loop _ := trivial
  place _ _ _ _ := trivial
  functions _ _ := trivial
  forget _ _ := trivial

/-- A parser never goes back. -/
abbrev Forward {α : Type} (p : Parser α) : Prop := Moves anywhere.toTransition p

section

variable {α β : Type} {p : Parser α} {f : α → Parser β} {P : α → Prop} {Q : β → Prop}
  {s t : ParserState}

theorem Forward.suffix (h : Forward p) {a : α} (run : p s = .ok a t) : t.rest <:+ s.rest := by
  have moved := h s
  rw [run] at moved
  exact moved.1.1

theorem Forward.length_le (h : Forward p) {a : α} (run : p s = .ok a t) :
    t.rest.length ≤ s.rest.length := (h.suffix run).length_le

theorem Forward.suffix_of_error (h : Forward p) {e : SourceFault} (run : p s = .error e t) :
    t.rest <:+ s.rest := by
  have moved := h s
  rw [run] at moved
  exact moved.1.1

namespace Spends

theorem pure {b : β} (h : ¬Q b) : Spends Q (Pure.pure b) s := by
  rintro _ _ ⟨⟩ q
  exact absurd q h

theorem throw {e : SourceFault} : Spends Q (MonadExcept.throw e : Parser β) s := nofun

/-- Tokens are consumed behind a first step. -/
theorem skip (h : Forward p) (hf : ∀ a t, p s = .ok a t → Spends Q (f a) t) :
    Spends Q (p >>= f) s := by
  intro b u run q
  obtain ⟨a, t, first, second⟩ := bind_eq_ok run
  exact Nat.lt_of_lt_of_le (hf a t first b u second q) (h.length_le first)

/-- Tokens are consumed by a first step, or behind it. -/
theorem bind (h : Spends P p s) (spent : ∀ a, P a → Forward (f a))
    (rest : ∀ a t, p s = .ok a t → ¬P a → t.rest.length ≤ s.rest.length ∧ Spends Q (f a) t) :
    Spends Q (p >>= f) s := by
  intro b u run q
  obtain ⟨a, t, first, second⟩ := bind_eq_ok run
  by_cases holds : P a
  · exact Nat.lt_of_le_of_lt ((spent a holds).length_le second) (h a t first holds)
  · obtain ⟨le, after⟩ := rest a t first holds
    exact Nat.lt_of_lt_of_le (after b u second q) le

/-- Tokens are consumed by a first step. -/
theorem first (h : Spends (fun _ => True) p s) (hf : ∀ a, Forward (f a)) : Spends Q (p >>= f) s :=
  bind h (fun a _ => hf a) fun _ _ _ absurd => absurd.elim trivial

theorem ite {c : Prop} [Decidable c] {p q : Parser β} (hp : c → Spends Q p s)
    (hq : ¬c → Spends Q q s) : Spends Q (if c then p else q) s := by
  by_cases hc : c
  · rw [if_pos hc]
    exact hp hc
  · rw [if_neg hc]
    exact hq hc

/-- What is behind a test that refuses. -/
theorem guard {c : Prop} [Decidable c] {loc : Location} {e : SemanticError} {k : Parser β}
    {f : α → Parser β} (h : ¬c → Spends Q k s) :
    Spends Q (if c then refuse loc e >>= f else k) s :=
  ite (fun _ => nofun) h

end Spends

/-- A loop whose rounds consume tokens ends by itself. -/
theorem repeats_iterate {step : β → Parser (ForInStep β)} (h : ∀ b s, Spends GoesOn (step b) s)
    (b : β) (s : ParserState) : Repeats step b s (iterate step b s) := by
  fun_induction iterate step b s with
  | case1 b s e t run => exact .failed run
  | case2 b s c t run => exact .done run
  | case3 b s c t run spent ih => exact .again run spent ih
  | case4 b s c t run stuck => exact absurd (h b s _ t run trivial) stuck

/-- What a round keeps holds behind any number of them. -/
theorem Rounds.keep {step : β → Parser (ForInStep β)} {I : ParserState → Prop}
    (h : ∀ b s r t, I s → step b s = .ok r t → I t) {b c : β} (rounds : Rounds step b s c t)
    (start : I s) : I t := by
  induction rounds with
  | start => exact start
  | again round _ ih => exact ih (h _ _ _ _ start round)

/-! ### Tokens -/

/-- What is behind a look at the token at the front. -/
theorem Spends.peek {f : Token → Parser β} (h : Spends Q (f s.front) s) :
    Spends Q (Parser.peek >>= f) s := h

theorem next_spends (h : s.rest ≠ []) : Spends (fun _ => True) next s := by
  rintro _ _ ⟨⟩ -
  rw [List.length_tail]
  exact Nat.sub_one_lt (Nat.ne_of_gt (List.length_pos_iff.mpr h))

/-- The token at the front is not the end of input. -/
theorem rest_ne_nil {kind : TokenKind} (h : s.front.kind = kind) (real : kind ≠ .eof) :
    s.rest ≠ [] := by
  intro empty
  rw [ParserState.front, empty] at h
  exact real h.symm

/-- Passes a token that was seen. -/
theorem Spends.next {f : Token → Parser β} {kind : TokenKind} (seen : s.front.kind = kind)
    (real : kind ≠ .eof) (hf : ∀ t, Forward (f t)) : Spends Q (next >>= f) s :=
  .first (next_spends (rest_ne_nil seen real)) hf

theorem eat_spends (p : Punct) : Spends (· = true) (eat p) s := by
  change Spends _ (if s.front.kind == .punct p then _ else _) s
  refine .ite (fun isNext => ?_) fun _ => .pure nofun
  exact .next (beq_iff_eq.mp isNext) nofun fun _ => .done

theorem eatKeyword_spends (kw : Keyword) : Spends (· = true) (eatKeyword kw) s := by
  change Spends _ (if s.front.kind == .keyword kw then _ else _) s
  refine .ite (fun isNext => ?_) fun _ => .pure nofun
  exact .next (beq_iff_eq.mp isNext) nofun fun _ => .done

/-- A punctuator that is passed, or what there is without it. -/
theorem Spends.eat {p : Punct} {f : Bool → Parser β} (yes : Forward (f true))
    (no : ∀ t, Spends Q (f false) t) : Spends Q (eat p >>= f) s :=
  .bind (eat_spends p) (fun _ isNext => isNext ▸ yes) fun eaten t run missing => by
    obtain rfl : eaten = false := Bool.eq_false_iff.mpr missing
    exact ⟨Forward.length_le (eat_moves p) run, no t⟩

theorem Spends.or {p q : Parser Bool} (moves : Forward p) (hp : Spends (· = true) p s)
    (hq : ∀ t, Spends (· = true) q t) : Spends (· = true) (p <||> q) s := by
  refine .bind hp (fun first isTrue => ?_) fun first t run isFalse => ⟨moves.length_le run, ?_⟩
  · rw [isTrue]
    exact .done
  · obtain rfl : first = false := Bool.eq_false_iff.mpr isFalse
    exact hq t

theorem expect_spends (p : Punct) : Spends (fun _ => True) (expect p) s :=
  .eat .done fun _ => .skip peek_moves fun _ _ _ => .throw

/-- The end of a list: behind a comma it goes on, and otherwise it is closed. -/
theorem Spends.comma {b c : β} {close : Punct} :
    Spends GoesOn (do
      if ← Parser.eat .comma then return .yield b
      else
        expect close
        return .done c) s :=
  .eat .done fun _ => .skip (expect_moves close) fun _ _ _ => .pure nofun

end

variable {g : Productions} {s : ParserState}

/-! ### Attributes and specifiers -/

/-- One more attribute. -/
def attributeStep (_ : Unit) : Parser (ForInStep Unit) := do
  if ← eatKeyword .attributeKw <||> eatKeyword .declspecKw then
    skipAttribute
    return .yield ()
  else return .done ()

theorem attributeStep_spends (u : Unit) : Spends GoesOn (attributeStep u) s := by
  refine .bind (.or (eatKeyword_moves _) (eatKeyword_spends _) fun _ => eatKeyword_spends _)
    (fun _ isNext => ?_) fun eaten t run missing => ⟨Forward.length_le
      (.or (eatKeyword_moves _) (eatKeyword_moves _)) run, ?_⟩
  · exact .ite (fun _ => skipAttribute_moves.skip fun _ => .done) fun _ => .done
  · exact .ite (fun isNext => absurd isNext missing) fun _ => .pure nofun

/-- One more qualifier behind a star. -/
def qualifierStep (_ : Unit) : Parser (ForInStep Unit) := do
  if ← eatKeyword .constKw <||> eatKeyword .volatileKw <||> eatKeyword .restrictKw
      <||> eatKeyword .restrictGnuKw then
    return .yield ()
  else return .done ()

theorem qualifierStep_spends (u : Unit) : Spends GoesOn (qualifierStep u) s := by
  have passed {t : ParserState} : Spends (· = true) (eatKeyword .restrictKw <||>
      eatKeyword .restrictGnuKw) t :=
    .or (eatKeyword_moves _) (eatKeyword_spends _) fun _ => eatKeyword_spends _
  refine .bind (.or (eatKeyword_moves _) (eatKeyword_spends _) fun _ => .or (eatKeyword_moves _)
    (eatKeyword_spends _) fun _ => passed) (fun _ _ => .ite (fun _ => .done) fun _ => .done)
    fun eaten t run missing => ⟨Forward.length_le (.or (eatKeyword_moves _) (.or
      (eatKeyword_moves _) (.or (eatKeyword_moves _) (eatKeyword_moves _)))) run, ?_⟩
  exact .ite (fun isNext => absurd isNext missing) fun _ => .pure nofun

/-- One more star. -/
def pointerStep (ty : CType) : Parser (ForInStep CType) := do
  if ← eat .star then
    pointerQualifiers
    skipAttributes
    return .yield (.pointer ty)
  else return .done ty

theorem pointerStep_spends (ty : CType) : Spends GoesOn (pointerStep ty) s :=
  .eat (pointerQualifiers_moves.skip fun _ => skipAttributes_moves.skip fun _ => .done)
    fun _ => .pure nofun

/-- Reading no specifier changes nothing. -/
theorem specifier_spends (read : Specifiers) : Spends (· ≠ .done read) (specifier read) s := by
  have same {t : ParserState} : Spends (· ≠ .done read)
      (pure (ForInStep.done read) : Parser (ForInStep Specifiers)) t :=
    .pure fun other => other rfl
  refine .peek ?_
  split
  case h_1 name seen =>
    refine .skip (find?_moves name) fun b t run => ?_
    obtain rfl : s = t := by cases run; rfl
    split
    · exact .ite (fun _ => .next seen nofun fun _ => .done) fun _ => same
    · exact same
  case h_2 kw seen =>
    split
    · exact same
    · exact .throw
    · exact .guard fun _ => .next seen nofun fun _ => .done
    · exact .next seen nofun fun _ => skipAttribute_moves.skip fun _ => .done
    · exact .next seen nofun fun _ => .done
    · exact .next seen nofun fun _ => .done
    · exact .next seen nofun fun _ => .done
  case h_3 => exact same

theorem specifiers_spends : Spends (fun read => read.any = true) (iterate specifier {}) s := by
  intro read t run any
  have rounds := iterate_invariant (I := fun (read : Specifiers) u =>
    u.rest.length ≤ s.rest.length ∧ (read.any = true → u.rest.length < s.rest.length))
    (fun read u r v before round => ?_) {} s ⟨Nat.le_refl _, nofun⟩ run
  · exact rounds.2 any
  · have le := Forward.length_le (specifier_moves read) round
    by_cases same : r = .done read
    · subst same
      exact ⟨Nat.le_trans le before.1, fun any => Nat.lt_of_le_of_lt le (before.2 any)⟩
    · have spent := specifier_spends read r v round same
      exact ⟨Nat.le_trans le before.1, fun _ => Nat.lt_of_lt_of_le spent before.1⟩

theorem declSpecifiers_spends : Spends (fun _ => True) declSpecifiers s := by
  refine .skip loc_moves fun start t _ => .bind specifiers_spends (fun read any => ?_)
    fun read u run none => ⟨Forward.length_le (Moves.iterate specifier_moves {}) run, ?_⟩
  · refine .ite (fun _ => peek_moves.skip fun _ => .throw_bind) fun _ => ?_
    exact (specifiedType_moves read start).skip fun _ => .done
  · refine .ite (fun _ => .skip peek_moves fun _ _ _ => nofun) fun any => ?_
    simp [none] at any

/-! ### Expressions -/

/-- One more expression behind a comma. -/
def commaStep (g : Productions) (l : Expr) : Parser (ForInStep Expr) := do
  if ← check .comma then
    let loc := (← next).loc
    let r := (← g.assignment).rvalue
    return .yield (← bounded (.comma ⟨r.ty, loc⟩ l r))
  else return .done l

/-- One more operator of a level with its right operand. -/
def binaryStep (g : Productions) (n : Nat) (l : Expr) : Parser (ForInStep Expr) := do
  match (← peekPunct?).bind Operator.ofPunct? with
  | some op =>
    if op.level = n + 1 then
      let loc := (← next).loc
      let r ← binary g n
      return .yield (← bounded (← typed (op.apply l r loc)))
    else return .done l
  | none => return .done l

theorem front_of_peekPunct? {p : Punct} {t : ParserState} (run : peekPunct? s = .ok (some p) t) :
    t = s ∧ s.front.kind = .punct p := by
  obtain ⟨token, u, seen, run⟩ := bind_eq_ok run
  cases seen
  cases kind : s.front.kind with
  | punct q =>
      rw [ParserState.front] at kind
      rw [kind] at run
      cases run
      exact ⟨rfl, rfl⟩
  | _ =>
      rw [ParserState.front] at kind
      rw [kind] at run
      cases run

theorem stringStep_spends (bytes : List UInt8) : Spends GoesOn (stringStep bytes) s := by
  refine .peek ?_
  split
  case h_1 more seen => exact .next seen nofun fun _ => .done
  case h_2 => exact .pure nofun

/-- One more argument. -/
def argumentStep (g : Productions) (args : List (Location × Expr)) :
    Parser (ForInStep (List (Location × Expr))) := do
  let loc ← loc
  let args := args ++ [(loc, ← g.assignment)]
  if ← eat .comma then return .yield args
  else
    expect .rparen
    return .done args

/-- One more subscript, call or step. -/
def postfixStep (g : Productions) (e : Expr) : Parser (ForInStep Expr) := do
  let t ← peek
  match t.kind with
  | .punct .lbracket =>
    let _ ← next
    let index ← expression g
    expect .rbracket
    return .yield (← typed (e.subscript index t.loc))
  | .punct .lparen =>
    let _ ← next
    return .yield (← call g e t.loc)
  | .punct .increment =>
    let _ ← next
    return .yield (← typed (e.stepNode true false t.loc))
  | .punct .decrement =>
    let _ ← next
    return .yield (← typed (e.stepNode false false t.loc))
  | .punct .dot | .punct .arrow => refuse t.loc .memberAccess
  | _ => return .done e

section Productions

variable (moving : g.Moving anywhere.toTransition)
include moving

theorem commaStep_spends (l : Expr) : Spends GoesOn (commaStep g l) s := by
  change Spends _ (if s.front.kind == .punct .comma then _ else _) s
  refine .ite (fun isNext => .next (beq_iff_eq.mp isNext) nofun fun t => ?_) fun _ => .pure nofun
  exact moving.assignment.skip fun r => (bounded_moves _).skip fun _ => .done

theorem binaryStep_spends (n : Nat) (l : Expr) : Spends GoesOn (binaryStep g n l) s := by
  refine .skip peekPunct?_moves fun p? t seen => ?_
  split
  case h_1 op found =>
    obtain ⟨p, rfl, -⟩ := Option.bind_eq_some_iff.mp found
    obtain ⟨rfl, kind⟩ := front_of_peekPunct? seen
    refine .ite (fun _ => .next kind nofun fun t => ?_) fun _ => .pure nofun
    exact (binary_moves moving n).skip fun r => (typed_moves _).skip fun e =>
      (bounded_moves e).skip fun _ => .done
  case h_2 => exact .pure nofun

theorem argumentStep_spends (args : List (Location × Expr)) :
    Spends GoesOn (argumentStep g args) s :=
  .skip loc_moves fun _ _ _ => .skip moving.assignment fun _ _ _ => .comma

theorem postfixStep_spends (e : Expr) : Spends GoesOn (postfixStep g e) s := by
  refine .peek ?_
  split
  case h_1 seen =>
    refine .next seen nofun fun _ => (expression_moves moving).skip fun index => ?_
    exact (expect_moves _).skip fun _ => (typed_moves _).skip fun _ => .done
  case h_2 seen => exact .next seen nofun fun _ => (call_moves moving _ _).skip fun _ => .done
  case h_3 seen | h_4 seen => exact .next seen nofun fun _ => (typed_moves _).skip fun _ => .done
  case h_5 | h_6 => exact .throw
  case h_7 => exact .pure nofun

/-! ### Declarations -/

theorem parameter_spends (l : ParamList) : Spends GoesOn (parameter g l) s := by
  refine .eat ((expect_moves _).skip fun _ => .done) fun _ => .skip peek_moves fun t _ _ => ?_
  refine .skip (startsType_moves t) fun _ _ _ => .ite (fun _ => ?_) fun _ => nofun
  refine .skip declSpecifiers_moves fun spec _ _ => .skip (moving.declarator _ true) fun d _ _ => ?_
  exact .skip (ofDeclarator_moves d t.loc) fun _ _ _ => .comma

omit moving in
theorem elementStep_spends {ι : Type} {element : Nat → Parser (List ι)}
    (h : ∀ i, Forward (element i)) (length : Option Nat) (read : Nat × List ι) :
    Spends GoesOn (elementStep element length read) s := by
  refine .skip (check_moves _) fun _ _ _ => .ite (fun _ => .pure nofun) fun _ => ?_
  refine .ite (fun _ => .skip loc_moves fun _ _ _ => nofun) fun _ => .skip (h _) fun more _ _ => ?_
  exact .eat .done fun _ => .pure nofun

theorem blockDeclaratorStep_spends (spec : DeclSpec) (stmts : List Stmt) :
    Spends GoesOn (blockDeclaratorStep g spec stmts) s :=
  .skip ((blocks_moves moving).declares spec) fun _ _ _ => .comma

theorem fileDeclaratorStep_spends (spec : DeclSpec) (first : Bool) :
    Spends GoesOn (fileDeclaratorStep g spec first) s := by
  refine .skip (moving.declarator _ false) fun d _ _ => .skip skipAttributes_moves fun _ _ _ => ?_
  refine .skip (check_moves _) fun body _ _ => ?_
  have declare {t : ParserState} : Spends GoesOn (do
      fileDeclaration g spec d
      if ← eat .comma then return .yield false
      else
        expect .semicolon
        return .done false) t :=
    .skip (fileDeclaration_moves anywhere.toFileTransition moving spec d) fun _ _ _ => .comma
  dsimp only
  split
  case h_1 signature _ =>
    refine .ite (fun _ => ?_) fun _ => declare
    exact .skip (functionDefinition_moves anywhere moving spec d signature) fun _ _ _ => .pure nofun
  case h_2 => exact declare

theorem blockDeclaration_spends : Spends (fun _ => True) (blockDeclaration g) s := by
  refine .first declSpecifiers_spends fun spec => (eat_moves _).skip fun _ => .ite (fun _ => .done)
    fun _ => ?_
  exact Moves.iterate (blockDeclaratorStep_moves moving spec) []

theorem statement_spends : Spends (fun _ => True) (statement g) s := by
  refine .peek ?_
  dsimp only
  split
  case h_1 seen =>
    refine .next seen nofun fun _ => (controlling_moves moving).skip fun c =>
      moving.statement.skip fun _ => (eatKeyword_moves _).skip fun _ => .ite (fun _ => ?_) fun _ => .done
    exact .skip (P := fun _ => True) (moving.statement.skip fun _ => .done) fun _ => .done
  case h_2 seen =>
    exact .next seen nofun fun _ => (controlling_moves moving).skip fun c =>
      (loopBody_moves moving).skip fun _ => .done
  case h_3 seen =>
    refine .next seen nofun fun _ => (loopBody_moves moving).skip fun body =>
      (eatKeyword_moves _).skip fun _ => .ite (fun _ => ?_) fun _ => peek_moves.skip fun _ => .throw_bind
    exact (controlling_moves moving).skip fun c => (expect_moves _).skip fun _ => .done
  case h_4 seen => exact .next seen nofun fun _ => inBlock_moves (forStatement_moves moving)
  case h_5 seen | h_6 seen =>
    exact .next seen nofun fun _ => Keeps.get.skip fun _ => .guard fun _ =>
      (expect_moves _).skip fun _ => .done
  case h_7 seen => exact .next seen nofun fun _ => returnStatement_moves moving _
  case h_8 | h_9 | h_10 | h_11 => exact .throw
  case h_12 seen =>
    exact .next seen nofun fun _ => (inBlock_moves (blockItems_moves moving)).skip fun _ => .done
  case h_13 seen => exact .next seen nofun fun _ => .done
  case h_14 =>
    exact .skip (expression_moves moving) fun e _ _ => .first (expect_spends _) fun _ => .done

/-! ### Recovery -/

omit moving in
/-- Recovery passes what is at the front, unless that closes the block. -/
theorem behindError_length_lt {inBlock : Bool} {t : Token} {ts : List Token}
    (h : inBlock = true → t.kind ≠ .punct .rbrace) :
    (behindError inBlock 0 (t :: ts)).length < (t :: ts).length := by
  have passed {depth : Nat} : (behindError inBlock depth ts).length < (t :: ts).length :=
    Nat.lt_succ_of_le (behindError_suffix inBlock depth ts).length_le
  unfold behindError
  split
  case h_1 | h_5 => exact passed
  case h_2 kind _ =>
    split
    case isTrue isBlock => exact absurd kind (h isBlock)
    case isFalse => exact Nat.lt_succ_self _
  case h_3 absurd => cases absurd
  case h_4 => exact Nat.lt_succ_self _

omit moving in
/-- What is behind an error that is recovered from. -/
theorem recover_length_lt {inBlock : Bool} {t : ParserState} (rest : s.rest ≠ [])
    (h : inBlock = true → s.front.kind ≠ .punct .rbrace) (moved : t.rest <:+ s.rest) :
    (behindError inBlock 0 t.rest).length < s.rest.length := by
  obtain ⟨first, after, tokens⟩ := List.exists_cons_of_ne_nil rest
  rcases Nat.lt_or_eq_of_le moved.length_le with shorter | same
  · exact Nat.lt_of_le_of_lt (behindError_suffix inBlock 0 t.rest).length_le shorter
  · rw [moved.eq_of_length same, tokens]
    refine behindError_length_lt fun isBlock => ?_
    have front := h isBlock
    rwa [ParserState.front, tokens] at front

theorem blockItem_spends (statement : ∀ {s}, Spends (fun _ => True) g.statement s)
    (inside : s.front.kind ≠ .punct .rbrace) (rest : s.rest ≠ []) :
    Spends (fun _ => True) (blockItem g) s := by
  intro stmts t run _
  have caught : tryCatch (item g) (fun e => do
      recover true e
      return []) s = .ok stmts t := run
  rw [tryCatch_run] at caught
  have forward : Forward (item g) := item_moves moving
  have spends : Spends (fun _ => True) (item g) s := .peek (.skip (startsDeclaration_moves _)
    fun _ _ _ => .ite (fun _ => blockDeclaration_spends moving) fun _ =>
      .first statement fun _ => .done)
  cases read : item g s with
  | ok stmts' t' =>
      rw [read] at caught
      cases caught
      exact spends _ _ read trivial
  | error e t' =>
      rw [read] at caught
      cases caught
      exact recover_length_lt rest (fun _ => inside) (forward.suffix_of_error read)

theorem blockStep_spends (statement : ∀ {s}, Spends (fun _ => True) g.statement s)
    (stmts : List Stmt) : Spends GoesOn (blockStep g stmts) s := by
  change Spends _ (if s.front.kind == .punct .rbrace then _ else _) s
  refine .ite (fun _ => .pure nofun) fun inside => ?_
  change Spends _ (if s.rest.isEmpty then _ else _) s
  refine .ite (fun _ => .skip loc_moves fun _ _ _ => nofun) fun rest => ?_
  exact .first (blockItem_spends moving statement (fun isBrace => inside (beq_iff_eq.mpr isBrace))
    fun empty => rest (List.isEmpty_iff.mpr empty)) fun _ => .done

theorem externalDeclaration_spends : Spends (fun _ => True) (externalDeclaration g) s := by
  refine .eat .done fun _ => .first declSpecifiers_spends fun spec => (eat_moves _).skip fun _ =>
    .ite (fun _ => .done) fun _ => ?_
  exact .skip (P := fun _ => True) (Moves.iterate (fileDeclaratorStep_moves anywhere moving spec) true)
    fun _ => .done

theorem unitStep_spends (u : Unit) : Spends GoesOn (unitStep g u) s := by
  change Spends _ (if s.rest.isEmpty then _ else _) s
  refine .ite (fun _ => .pure nofun) fun rest => .first ?_ fun _ => .done
  have rest : s.rest ≠ [] := fun empty => rest (List.isEmpty_iff.mpr empty)
  intro u t run _
  rw [tryCatch_run] at run
  cases read : externalDeclaration g s with
  | ok u' t' =>
      rw [read] at run
      cases run
      exact externalDeclaration_spends moving _ _ read trivial
  | error e t' =>
      rw [read] at run
      cases run
      have forward : Forward (externalDeclaration g) := externalDeclaration_moves anywhere moving
      exact recover_length_lt (t := t') rest nofun (forward.suffix_of_error read)

end Productions

end Parser
end LiveC
