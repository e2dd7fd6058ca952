import LiveC.Proofs.ConfinedTokens

/-!
Inside of open parentheses, expressions and declarators are read without a look behind the one
that closes them. The parenthesised part of a declarator, which is read when what follows it
has been read already, stops right at its closing parenthesis.
-/

namespace LiveC

open LiveC.Parser in
/-- The productions of expressions and declarators are confined to open parentheses. -/
structure Productions.Staying (g : Productions) : Prop where
  moving : g.Moving anywhere.toTransition
  assignment (depth : Nat) : Stays depth g.assignment
  conditional (depth : Nat) : Stays depth g.conditional
  cast (depth : Nat) : Stays depth g.cast
  unary (depth : Nat) : Stays depth g.unary
  declarator (depth : Nat) (base : CType) (abstract : Bool) :
    Stays depth (g.declarator base abstract)
  suffixes (depth : Nat) (base : CType) : Stays depth (g.suffixes base)

namespace Parser

variable {g : Productions} {depth : Nat}

/-! ### Expressions -/

theorem bounded_stays (e : Expr) : Stays depth (bounded e) := .ite (fun _ => .throw) fun _ => .pure

/-- Behind a token that is not a parenthesis. -/
theorem Confined.passing {β : Type} {f : Token → Parser β} {s : ParserState} {kind : TokenKind}
    (closes : Closes depth s.rest) (seen : s.front.kind = kind) (opens : kind ≠ .punct .lparen)
    (open' : kind ≠ .punct .rparen) (hf : ∀ t, Stays depth (f t)) :
    Confined (next >>= f) s fun _ t => Closes depth t.rest :=
  (next_stays closes (seen ▸ opens) (seen ▸ open')).bind fun a t closes => hf a t closes

theorem peekPunct?_confined {s : ParserState} (closes : Closes depth s.rest) :
    Confined peekPunct? s fun p? t => t = s ∧ ∀ p ∈ p?, s.front.kind = .punct p := by
  refine .peek closes ?_
  split
  case h_1 p kind => exact .pure ⟨rfl, by rintro _ ⟨⟩; exact kind⟩
  case h_2 => exact .pure ⟨rfl, nofun⟩

section Productions

variable (staying : g.Staying)
include staying

theorem commaStep_stays (l : Expr) : Stays depth (commaStep g l) := by
  refine fun s closes => .check closes (fun isNext => ?_) (.pure closes)
  refine .passing closes isNext nofun nofun fun t => (staying.assignment depth).bind fun r => ?_
  exact (bounded_stays _).bind fun _ => .pure

theorem expression_stays : Stays depth (expression g) :=
  (staying.assignment depth).bind fun e =>
    Stays.iterate (fun l _ => commaStep_spends staying.moving l) (commaStep_stays staying) e

theorem binary_stays (n : Nat) : Stays depth (binary g n) := by
  induction n with
  | zero => exact (staying.cast depth).bind fun e => bounded_stays e
  | succ n ih =>
      refine ih.bind fun e => Stays.iterate (fun l _ => binaryStep_spends staying.moving n l)
        (fun l s closes => ?_) e
      refine (peekPunct?_confined closes).bind fun p? t ⟨here, kind⟩ => ?_
      subst here
      split
      case h_1 op found =>
        obtain ⟨p, rfl, isOp⟩ := Option.bind_eq_some_iff.mp found
        refine .ite (fun _ => .passing closes (kind p rfl) ?_ ?_ fun t => ?_) fun _ => .pure closes
        · rintro ⟨⟩
          cases isOp
        · rintro ⟨⟩
          cases isOp
        · exact ih.bind fun r => (typed_stays _).bind fun e => (bounded_stays e).bind fun _ => .pure
      case h_2 => exact .pure closes

theorem conditional_stays : Stays depth (conditional g) := by
  refine (binary_stays staying _).bind fun c s closes => .check closes (fun isNext => ?_) (.pure closes)
  refine .passing closes isNext nofun nofun fun t => (expression_stays staying).bind fun yes => ?_
  refine (expect_stays .colon nofun nofun).bind fun _ => ?_
  exact (staying.conditional depth).bind fun no => typed_stays _

theorem assignment_stays : Stays depth (assignment g) := by
  refine (conditional_stays staying).bind fun target s closes => ?_
  refine (peekPunct?_confined closes).bind fun p? t ⟨here, kind⟩ => ?_
  subst here
  split
  case h_1 => exact .pure closes
  case h_2 op? found =>
    obtain ⟨p, rfl, isOp⟩ := Option.bind_eq_some_iff.mp found
    refine .passing closes (kind p rfl) ?_ ?_ fun t => ?_
    · rintro ⟨⟩
      cases isOp
    · rintro ⟨⟩
      cases isOp
    · refine (typed_stays _).bind fun _ => (staying.assignment depth).bind fun value => ?_
      cases op? with
      | none => exact typed_stays _
      | some op => exact typed_stays _

theorem typeName_stays : Stays depth (typeName g) := by
  refine loc_stays.bind fun start => declSpecifiers_stays.bind fun spec => ?_
  refine .guard fun _ => (staying.declarator depth _ true).bind fun d => ?_
  split
  · exact .throw
  · exact .pure

omit staying in
/-- A parenthesis is seen in front of a type name. -/
theorem atTypeName_confined {s : ParserState} (closes : Closes depth s.rest) :
    Confined atTypeName s fun found t => t = s ∧
      (found = true → s.front.kind = .punct .lparen) := by
  refine .check closes (fun opens => ?_) (.pure ⟨rfl, nofun⟩)
  obtain ⟨second, ts, rest⟩ := closes.second (by rw [opens]; nofun)
  exact .peekSecond rest ((startsType_confined second).mono fun _ t here => ⟨here, fun _ => opens⟩)

theorem sizeofOperand_stays (loc : Location) : Stays depth (sizeofOperand g loc) := by
  refine fun s closes => (atTypeName_confined closes).bind fun found t ⟨here, opens⟩ => ?_
  subst here
  refine .ite (fun isType => ?_) fun _ => ((staying.unary depth).bind fun e => typed_stays _) t closes
  refine (next_opens closes (opens isType)).bind fun _ t closes => ?_
  refine (typeName_stays staying t closes).bind fun ty t closes => (expect_closes closes).bind fun _ t closes => ?_
  exact typed_stays _ t closes

/-! ### Calls and primary expressions -/

/-- The arguments of a call end with its parenthesis. -/
theorem arguments_closes {s : ParserState} (closes : Closes (depth + 1) s.rest) :
    Confined (arguments g) s fun _ t => Closes depth t.rest := by
  refine (Confined.eat closes fun open' => next_closes closes open').bind fun eaten t holds => ?_
  cases eaten with
  | true => exact .pure holds
  | false =>
      refine .iterate (I := fun t => Closes (depth + 1) t.rest) (fun args _ =>
        argumentStep_spends staying.moving args) (fun args t closes => ?_) [] holds
      refine (loc_stays t closes).bind fun loc t closes => (staying.assignment _ t closes).bind
        fun e t closes => (eat_stays .comma nofun nofun t closes).bind fun more t closes => ?_
      exact .ite (fun _ => .pure closes) fun _ => (expect_closes closes).bind fun _ t closes => .pure closes

theorem call_closes (callee : Expr) (loc : Location) {s : ParserState}
    (closes : Closes (depth + 1) s.rest) :
    Confined (call g callee loc) s fun _ t => Closes depth t.rest :=
  (typed_stays _ s closes).bind fun _ _ closes => (arguments_closes staying closes).bind
    fun _ t => typed_stays _ t

omit staying in
theorem addString_stays (bytes : List UInt8) : Stays depth (addString bytes) := by
  refine fun s closes => ⟨fun _ => rfl, ?_⟩
  rintro _ _ ⟨⟩
  exact closes

omit staying in
theorem adjacentStrings_stays (bytes : List UInt8) : Stays depth (adjacentStrings bytes) := by
  refine Stays.iterate (fun bytes _ => stringStep_spends bytes) (fun bytes s closes => ?_) bytes
  refine .peek closes ?_
  split
  case h_1 more seen => exact .passing closes seen nofun nofun fun _ => .pure
  case h_2 => exact .pure closes

omit staying in
theorem identifier_stays (name : String) (loc : Location) : Stays depth (identifier name loc) := by
  refine (Stays.of_same fun _ => find?_confined name).bind fun b => ?_
  split
  case h_1 id =>
    refine fun s closes => .get (fun _ => rfl) ?_
    split
    · exact .pure closes
    · exact .throw
  case h_2 symbol =>
    refine (findSymbol?_stays symbol).bind fun s => ?_
    split
    · exact .pure
    · exact .throw
  case h_3 => exact .throw
  case h_4 =>
    refine (check_stays _).bind fun _ => .ite (fun _ => ?_) fun _ => .throw
    refine (warn_stays _ _).bind fun _ => (declareFunction_stays _ _ _ _).bind fun _ => ?_
    exact (bindFile_stays _ _).bind fun _ => .pure

theorem primary_stays : Stays depth (primary g) := by
  refine fun s closes => (next_confined closes).bind fun t u ⟨front, rest⟩ => ?_
  subst front
  have stays {p : Parser Expr} (h : Stays depth p) (opens : s.front.kind ≠ .punct .lparen)
      (open' : s.front.kind ≠ .punct .rparen) : Confined p u fun _ t => Closes depth t.rest := by
    rw [rest] at closes
    exact h u (closes.cons.2.2 opens open')
  dsimp only
  split
  case h_1 seen =>
    refine stays (.ite (fun _ => (warn_stays _ _).bind fun _ => .pure) fun _ => .pure) ?_ ?_ <;>
      (rw [seen]; nofun)
  case h_2 seen | h_3 seen => refine stays .pure ?_ ?_ <;> (rw [seen]; nofun)
  case h_4 seen =>
    refine stays ((adjacentStrings_stays _).bind fun _ => (addString_stays _).bind fun _ => .pure) ?_ ?_ <;>
      (rw [seen]; nofun)
  case h_5 seen =>
    rw [rest] at closes
    refine (expression_stays staying u (closes.cons.1 seen)).bind fun e t closes => ?_
    exact (expect_closes closes).bind fun _ t closes => .pure closes
  case h_6 seen => refine stays (identifier_stays _ _) ?_ ?_ <;> (rw [seen]; nofun)
  case h_7 => exact .throw

theorem postfixStep_stays (e : Expr) : Stays depth (postfixStep g e) := by
  refine fun s closes => .peek closes ?_
  split
  case h_1 seen =>
    refine .passing closes seen nofun nofun fun _ => (expression_stays staying).bind fun index => ?_
    exact (expect_stays .rbracket nofun nofun).bind fun _ => (typed_stays _).bind fun _ => .pure
  case h_2 seen =>
    refine (next_opens closes seen).bind fun _ t closes => ?_
    exact (call_closes staying _ _ closes).bind fun _ t closes => .pure closes
  case h_3 seen | h_4 seen =>
    exact .passing closes seen nofun nofun fun _ => (typed_stays _).bind fun _ => .pure
  case h_5 | h_6 => exact .throw
  case h_7 => exact .pure closes

theorem postfixed_stays : Stays depth (postfixed g) :=
  (primary_stays staying).bind fun e =>
    Stays.iterate (fun e _ => postfixStep_spends staying.moving e) (postfixStep_stays staying) e

theorem unary_stays : Stays depth (unary g) := by
  refine fun s closes => .peek closes ?_
  have operator {operand : Parser Expr} {kind : TokenKind} (f : Expr → Location → Typing Expr)
      (h : Stays depth operand) (seen : s.front.kind = kind) (opens : kind ≠ .punct .lparen)
      (open' : kind ≠ .punct .rparen) : Confined (do
        let _ ← next
        typed (f (← operand) s.front.loc)) s fun _ t => Closes depth t.rest :=
    .passing closes seen opens open' fun _ => h.bind fun _ => typed_stays _
  dsimp only
  split
  case h_1 seen => exact .passing closes seen nofun nofun fun _ => sizeofOperand_stays staying _
  case h_2 seen | h_3 seen => exact operator _ (staying.unary depth) seen nofun nofun
  case h_4 seen | h_5 seen | h_6 seen | h_7 seen | h_8 seen | h_9 seen =>
    exact operator _ (staying.cast depth) seen nofun nofun
  case h_10 => exact postfixed_stays staying s closes

theorem cast_stays : Stays depth (cast g) := by
  refine fun s closes => (atTypeName_confined closes).bind fun found t ⟨here, opens⟩ => ?_
  subst here
  refine .ite (fun isType => ?_) fun _ => unary_stays staying t closes
  refine (next_opens closes (opens isType)).bind fun _ t closes => ?_
  refine (typeName_stays staying t closes).bind fun ty t closes => (expect_closes closes).bind fun _ t closes => ?_
  exact ((staying.cast depth).bind fun e => typed_stays _) t closes

/-! ### Declarators -/

omit staying in
theorem pointers_stays (base : CType) : Stays depth (pointers base) := by
  have qualifiers : Stays depth pointerQualifiers := by
    refine Stays.iterate (fun u _ => qualifierStep_spends u) (fun _ => ?_) ()
    exact .bind (.or (eatKeyword_stays _) (.or (eatKeyword_stays _) (.or (eatKeyword_stays _)
      (eatKeyword_stays _)))) fun _ => .ite (fun _ => .pure) fun _ => .pure
  refine Stays.iterate (fun ty _ => pointerStep_spends ty) (fun ty => ?_) base
  refine (eat_stays .star nofun nofun).bind fun _ => .ite (fun _ => ?_) fun _ => .pure
  exact qualifiers.bind fun _ => skipAttributes_stays.bind fun _ => .pure

omit staying in
/-- A nested declarator starts with a parenthesis. -/
theorem atNestedDeclarator_confined {s : ParserState} (closes : Closes depth s.rest) :
    Confined atNestedDeclarator s fun found t => t = s ∧
      (found = true → s.front.kind = .punct .lparen) := by
  refine .check closes (fun opens => ?_) (.pure ⟨rfl, nofun⟩)
  obtain ⟨second, ts, rest⟩ := closes.second (by rw [opens]; nofun)
  refine .peekSecond rest ?_
  split
  · exact .pure ⟨rfl, fun _ => opens⟩
  · exact .pure ⟨rfl, fun _ => opens⟩
  · exact (isTypedef_confined second).bind fun _ t here => .pure ⟨here, fun _ => opens⟩
  · exact .pure ⟨rfl, nofun⟩

omit staying in
theorem ofDeclarator_stays (d : Declarator) (loc : Location) :
    Stays depth (Param.ofDeclarator d loc) := by
  unfold Param.ofDeclarator
  dsimp only
  split
  case h_1 | h_2 | h_4 => exact .pure
  case h_3 => exact .throw

/-- A parameter is inside of the parentheses of its list, and the last one ends with them. -/
theorem parameter_confined (l : ParamList) {s : ParserState} (closes : Closes (depth + 1) s.rest) :
    Confined (parameter g l) s (AfterRound (fun t => Closes (depth + 1) t.rest)
      fun _ t => Closes depth t.rest) := by
  refine (eat_stays .ellipsis nofun nofun s closes).bind fun _ t closes => .ite (fun _ => ?_) fun _ => ?_
  · exact (expect_closes closes).bind fun _ t closes => .pure closes
  · refine .peek closes ((startsType_confined _).bind fun _ u here => ?_)
    subst here
    refine .ite (fun _ => ?_) fun _ => ⟨fun _ => rfl, nofun⟩
    refine (declSpecifiers_stays u closes).bind fun spec t closes => ?_
    refine (staying.declarator _ spec.ty true t closes).bind fun d t closes => ?_
    refine (ofDeclarator_stays d _ t closes).bind fun p t closes => ?_
    refine (eat_stays .comma nofun nofun t closes).bind fun _ t closes => .ite (fun _ => .pure closes)
      fun _ => (expect_closes closes).bind fun _ t closes => .pure closes

/-- A parameter list ends with its parenthesis. -/
theorem parameterList_closes {s : ParserState} (closes : Closes (depth + 1) s.rest) :
    Confined (parameterList g) s fun _ t => Closes depth t.rest := by
  refine (Confined.eat closes fun open' => next_closes closes open').bind fun eaten t holds => ?_
  cases eaten with
  | true => exact .pure holds
  | false =>
      have list : Confined (iterate (parameter g) {}) t fun _ t => Closes depth t.rest :=
        .iterate (fun l _ => parameter_spends staying.moving l) (fun l _ =>
          parameter_confined staying l) {} holds
      refine .peek holds ?_
      by_cases void : t.front.kind = .keyword .voidKw
      · obtain ⟨second, ts, rest⟩ := holds.second (by rw [void]; decide)
        refine .peekSecond rest (.ite (fun empty => ?_) fun _ => list)
        refine (next_confined holds).bind fun _ u passed => ?_
        have behind := passed.2
        have inside := holds
        rw [behind] at inside rest
        have front : u.front = second := by
          rw [ParserState.front, (List.cons.inj rest).2]
          rfl
        have closes := (inside.cons.2.2) (by rw [void]; decide) (by rw [void]; decide)
        refine (next_closes closes ?_).bind fun _ _ closes => .pure closes
        rw [front]
        exact beq_iff_eq.mp (Bool.and_eq_true_iff.mp empty).2
      · refine list.congr fun u => ?_
        have other : (t.front.kind == .keyword .voidKw) = false := beq_eq_false_iff_ne.mpr void
        change (if (t.front.kind == .keyword .voidKw && _) = true then _ else _ : Parser ParamList) u = _
        rw [other]
        rfl

theorem arrayLength_stays (loc : Location) : Stays depth (arrayLength g loc) := by
  refine (eat_stays .rbracket nofun nofun).bind fun _ => .ite (fun _ => .pure) fun _ => ?_
  refine (conditional_stays staying).bind fun e => (typed_stays _).bind fun length => ?_
  exact (expect_stays .rbracket nofun nofun).bind fun _ => .guard fun _ => .pure

theorem suffixes_stays (base : CType) : Stays depth (suffixes g base) := by
  refine loc_stays.bind fun loc => (eat_stays .lbracket nofun nofun).bind fun _ => .ite (fun _ => ?_)
    fun _ s closes => ?_
  · refine (arrayLength_stays staying loc).bind fun length => (staying.suffixes _ base).bind fun r => ?_
    exact .guard fun _ => .guard fun _ => .pure
  · refine (Confined.eat closes fun opens => next_opens closes opens).bind fun eaten t holds => ?_
    cases eaten with
    | false => exact .pure holds
    | true =>
        refine (parameterList_closes staying holds).bind fun l t closes => ?_
        exact ((staying.suffixes _ base).bind fun r => .guard fun _ => .pure) t closes

theorem nestedDeclarator_stays (base : CType) (abstract : Bool) {s : ParserState}
    (closes : Closes depth s.rest) (opens : s.front.kind = .punct .lparen) :
    Confined (nestedDeclarator g base abstract) s fun _ t => Closes depth t.rest := by
  refine (next_opens closes opens).bind fun _ t closes => ⟨fun more => ?_, fun d u run => ?_⟩
  · refine (skipToClose_closes closes _).followed_bind fun _ u _ outside => ?_
    refine (staying.suffixes _ base u outside).followed_bind fun r v _ _ => ?_
    have back := staying.declarator _ r.1 abstract { v with rest := t.rest } closes
    refine back.followed_bind fun d w _ closes => ?_
    exact (expect_closes closes).followed_bind fun _ x _ _ => rfl
  · obtain ⟨s', _, ⟨⟩, run⟩ := bind_eq_ok run
    obtain ⟨_, v, skipped, run⟩ := bind_eq_ok run
    obtain ⟨r, w, read, run⟩ := bind_eq_ok run
    have outside := (skipToClose_closes closes _).2 _ _ skipped
    have behind := (staying.suffixes _ base v outside).2 r w read
    obtain ⟨_, _, ⟨⟩, run⟩ := bind_eq_ok run
    obtain ⟨_, _, ⟨⟩, run⟩ := bind_eq_ok run
    obtain ⟨_, _, -, run⟩ := bind_eq_ok run
    obtain ⟨_, _, -, run⟩ := bind_eq_ok run
    obtain ⟨_, _, ⟨⟩, run⟩ := bind_eq_ok run
    cases run
    exact behind

theorem declarator_stays (base : CType) (abstract : Bool) :
    Stays depth (declarator g base abstract) := by
  refine (pointers_stays base).bind fun ty => skipAttributes_stays.bind fun _ s closes => ?_
  refine (atNestedDeclarator_confined closes).bind fun found t seen => ?_
  obtain ⟨rfl, opens⟩ := seen
  have behind (name : Option (String × Location)) : Stays depth (do
      let read ← g.suffixes ty
      return (⟨name, read.1, read.2⟩ : Declarator)) := (staying.suffixes _ ty).bind fun _ => .pure
  refine .ite (fun nested => nestedDeclarator_stays staying ty abstract closes (opens nested)) fun _ =>
    .peek closes ?_
  dsimp only
  split
  case h_1 name seen => exact .passing closes seen (by simp) (by simp) fun _ => behind _
  case h_2 => exact .ite (fun _ => behind _ _ closes) fun _ => Stays.throw_bind _ closes

end Productions

/-! ### Levels of nesting -/

theorem refused_staying : Productions.refused.Staying where
  moving := productions_moving 0
  assignment _ := loc_stays.bind fun _ => .throw
  conditional _ := loc_stays.bind fun _ => .throw
  cast _ := loc_stays.bind fun _ => .throw
  unary _ := loc_stays.bind fun _ => .throw
  declarator _ _ _ := loc_stays.bind fun _ => .throw
  suffixes _ _ := loc_stays.bind fun _ => .throw

theorem productions_staying (n : Nat) : (productions n).Staying := by
  induction n with
  | zero => exact refused_staying
  | succ n ih =>
      exact {
        moving := productions_moving (n + 1)
        assignment := fun _ => assignment_stays ih
        conditional := fun _ => conditional_stays ih
        cast := fun _ => cast_stays ih
        unary := fun _ => unary_stays ih
        declarator := fun _ => declarator_stays ih
        suffixes := fun _ => suffixes_stays ih }

end Parser
end LiveC
