import LiveC.Proofs.SourceExpressions

/-!
Every expression that the parser accepts is derived: the tokens that a production takes are those of
an expression, which comes to the tree that the production gives. Each production is taken apart
once, and the levels of nesting follow by induction.
-/

namespace LiveC

namespace Parser

variable {α β : Type} {p : Parser α} {f : α → Parser β} {P : List TokenKind → α → Prop}
  {Q : List TokenKind → β → Prop} {s : ParserState}

/-- The tokens that a run takes off the front, and what it gives, have a property. -/
def Takes (p : Parser α) (s : ParserState) (Q : List TokenKind → α → Prop) : Prop :=
  ∀ a t, p s = .ok a t → ∃ ks, s.kinds = ks ++ t.kinds ∧ Q ks a

namespace Takes

theorem pure {b : β} (h : Q [] b) : Takes (Pure.pure b) s Q := by
  rintro _ _ ⟨⟩
  exact ⟨[], rfl, h⟩

theorem throw {e : SourceFault} : Takes (MonadExcept.throw e : Parser β) s Q := nofun

theorem bind (h : Takes p s P)
    (hf : ∀ ks a t, P ks a → Takes (f a) t fun ks' b => Q (ks ++ ks') b) :
    Takes (p >>= f) s Q := by
  intro b u run
  obtain ⟨a, t, first, second⟩ := bind_eq_ok run
  obtain ⟨ks, taken, holds⟩ := h a t first
  obtain ⟨ks', taken', holds'⟩ := hf ks a t holds b u second
  exact ⟨ks ++ ks', by rw [taken, taken', List.append_assoc], holds'⟩

theorem mono {Q' : List TokenKind → β → Prop} {q : Parser β} (h : Takes q s Q)
    (hq : ∀ ks b, Q ks b → Q' ks b) : Takes q s Q' := by
  intro b t run
  obtain ⟨ks, taken, holds⟩ := h b t run
  exact ⟨ks, taken, hq ks b holds⟩

theorem ite {c : Prop} [Decidable c] {q q' : Parser β} (hq : c → Takes q s Q)
    (hq' : ¬c → Takes q' s Q) : Takes (if c then q else q') s Q := by
  split
  case isTrue hc => exact hq hc
  case isFalse hc => exact hq' hc

/-- A parser that only looks. -/
theorem look {I : α → Prop} (h : ∀ a t, p s = .ok a t → t = s ∧ I a)
    (hf : ∀ a, I a → Takes (f a) s Q) : Takes (p >>= f) s Q := by
  intro b u run
  obtain ⟨a, t, first, second⟩ := bind_eq_ok run
  obtain ⟨rfl, holds⟩ := h a t first
  exact hf a holds b u second

theorem peek {f : Token → Parser β} (h : Takes (f s.front) s Q) : Takes (Parser.peek >>= f) s Q := h

theorem loc {f : Location → Parser β} (h : Takes (f s.front.loc) s Q) :
    Takes (Parser.loc >>= f) s Q := h

/-- A change of the state that leaves the tokens. -/
theorem modify {g : ParserState → ParserState} (same : ∀ s, (g s).rest = s.rest) :
    Takes (modify g : Parser Unit) s fun ks _ => ks = [] := by
  rintro _ _ ⟨⟩
  refine ⟨[], ?_, rfl⟩
  rw [List.nil_append, ParserState.kinds, ParserState.kinds, same]

/-- A token that was seen is taken. -/
theorem next {f : Token → Parser β} {kind : TokenKind} (seen : s.front.kind = kind)
    (real : kind ≠ .eof) (hf : ∀ t, Takes (f s.front) t fun ks => Q (kind :: ks)) :
    Takes (Parser.next >>= f) s Q := by
  intro b u run
  rw [next_run] at run
  obtain ⟨ks, taken, holds⟩ := hf _ b u run
  obtain ⟨first, others, rest⟩ := List.exists_cons_of_ne_nil (rest_ne_nil seen real)
  rw [ParserState.front, rest] at seen
  cases seen
  refine ⟨first.kind :: ks, ?_, holds⟩
  rw [List.cons_append, ← taken, ParserState.kinds, ParserState.kinds, rest]
  rfl

theorem check {c : Punct} {f : Bool → Parser β}
    (yes : s.front.kind = .punct c → Takes (f true) s Q) (no : Takes (f false) s Q) :
    Takes (Parser.check c >>= f) s Q := by
  change Takes (f (s.front.kind == .punct c)) s Q
  cases found : s.front.kind == .punct c with
  | true => exact yes (beq_iff_eq.mp found)
  | false => exact no

theorem eat {c : Punct} {f : Bool → Parser β}
    (yes : ∀ t, Takes (f true) t fun ks => Q (.punct c :: ks)) (no : Takes (f false) s Q) :
    Takes (Parser.eat c >>= f) s Q := by
  unfold Parser.eat
  rw [bind_assoc]
  refine check (fun seen => ?_) ?_
  · change Takes (Parser.next >>= fun _ => f true) s Q
    exact next seen nofun fun t => yes t
  · exact no

theorem expect {c : Punct} {f : Unit → Parser β}
    (h : ∀ t, Takes (f ()) t fun ks => Q (.punct c :: ks)) : Takes (Parser.expect c >>= f) s Q := by
  unfold Parser.expect
  rw [bind_assoc]
  exact eat (fun t => h t) throw

theorem typed {x : Typing α} {f : α → Parser β} (hf : ∀ a t, x.Gives a → Takes (f a) t Q) :
    Takes (Parser.typed x >>= f) s Q := by
  intro b u run
  obtain ⟨a, t, first, second⟩ := bind_eq_ok run
  unfold Parser.typed at first
  split at first
  case h_1 a' ws' given =>
    cases first
    obtain ⟨ks, taken, holds⟩ := hf a _ ⟨_, _, given⟩ b u second
    exact ⟨ks, taken, holds⟩
  case h_2 => cases first

/-- A typing step that a parser ends with. -/
theorem typed_last {x : Typing β} (h : ∀ b, x.Gives b → Q [] b) : Takes (Parser.typed x) s Q := by
  rw [← bind_pure (Parser.typed x)]
  exact typed fun b _ gives => pure (h b gives)

theorem bounded {e : Expr} {f : Expr → Parser β} (hf : Takes (f e) s Q) :
    Takes (Parser.bounded e >>= f) s Q :=
  look (I := (· = e)) (fun _ _ run => (bounded_eq_ok run).symm) fun _ same => same ▸ hf

/-- A parser never goes back, so it takes some tokens. -/
theorem moves (h : Forward p) : Takes p s fun _ _ => True := by
  intro a t run
  obtain ⟨taken, tokens⟩ := h.suffix run
  refine ⟨taken.map Token.kind, ?_, trivial⟩
  rw [ParserState.kinds, ← tokens, List.map_append]
  rfl

/-- What holds behind a round of a loop: the loop goes on, or it is done. -/
def Round (I D : List TokenKind → β → Prop) (ks : List TokenKind) : ForInStep β → Prop
  | .yield b => I ks b
  | .done b => D ks b

/-- A loop whose rounds take tokens: each but the last keeps an invariant. -/
theorem iterate {step : β → Parser (ForInStep β)} {I D : List TokenKind → β → Prop}
    (spends : ∀ b s, Spends GoesOn (step b) s)
    (round : ∀ ks b s, I ks b → Takes (step b) s fun ks' => Round I D (ks ++ ks'))
    (ks : List TokenKind) (b : β) (start : I ks b) (s : ParserState) :
    Takes (Parser.iterate step b) s fun ks' c => D (ks ++ ks') c := by
  intro c t run
  fun_induction Parser.iterate step b s generalizing ks with
  | case1 => cases run
  | case2 b s c' t' last =>
      cases run
      exact round ks b s start _ _ last
  | case3 b s c' t' once _ ih =>
      obtain ⟨first, taken, holds⟩ := round ks b s start _ _ once
      obtain ⟨others, taken', holds'⟩ := ih (ks ++ first) holds run
      rw [List.append_assoc] at holds'
      exact ⟨first ++ others, by rw [taken, taken', List.append_assoc], holds'⟩
  | case4 b s c' t' once stuck => exact absurd (spends b s _ _ once trivial) stuck

/-- A loop whose rounds keep one invariant. -/
theorem loop {step : β → Parser (ForInStep β)} {I : List TokenKind → β → Prop}
    (spends : ∀ b s, Spends GoesOn (step b) s)
    (round : ∀ ks b s, I ks b → Takes (step b) s fun ks' r => I (ks ++ ks') r.value)
    {ks : List TokenKind} {b : β} (start : I ks b) (s : ParserState) :
    Takes (Parser.iterate step b) s fun ks' c => I (ks ++ ks') c :=
  iterate spends (fun ks b s holds => (round ks b s holds).mono fun _ r => by cases r <;> exact id)
    ks b start s

end Takes

theorem exists_of_run' {a : α} (h : p.run' s = some a) : ∃ t, p s = .ok a t := by
  unfold EStateM.run' EStateM.run at h
  cases run : p s with
  | error e t =>
      rw [run] at h
      cases h
  | ok b t =>
      rw [run] at h
      cases h
      exact ⟨t, rfl⟩

/-- A parser accepts, and takes all tokens. -/
def acceptsAll (p : Parser α) (s : ParserState) : Bool :=
  (do let _ ← p; return (← get).rest.isEmpty : Parser Bool).run' s == some true

theorem exists_of_acceptsAll (h : acceptsAll p s = true) :
    ∃ a t, p s = .ok a t ∧ t.kinds = [] := by
  obtain ⟨u, run⟩ := exists_of_run' (beq_iff_eq.mp h)
  obtain ⟨a, t, accepted, last⟩ := bind_eq_ok run
  have empty : t.rest.isEmpty = true := (EStateM.Result.ok.inj last).1
  exact ⟨a, t, accepted, by rw [ParserState.kinds, List.isEmpty_iff.mp empty, List.map_nil]⟩

/-! ### Names and literals -/

theorem setSymbol_takes (name : String) (symbol : GlobalSymbol) :
    Takes (setSymbol name symbol) s fun ks _ => ks = [] := Takes.modify fun _ => rfl

theorem declareFunction_takes (name : String) (ty : CType) (isStatic : Bool) (loc : Location) :
    Takes (declareFunction name ty isStatic loc) s fun ks _ => ks = [] := by
  refine .look (I := fun _ => True)
    (fun _ _ run => by cases run; exact ⟨rfl, trivial⟩) fun old _ => ?_
  cases old with
  | none => exact setSymbol_takes _ _
  | some old =>
      dsimp only
      split
      case h_1 =>
        exact .ite (fun _ => .throw) fun _ => .ite (fun _ => setSymbol_takes _ _) fun _ => .pure rfl
      case h_2 | h_3 => exact .throw

/-- A name takes no more tokens than itself, and comes to a variable or a symbol. -/
theorem identifier_takes (name : String) (loc : Location) :
    Takes (identifier name loc) s fun ks e =>
      ks = [] ∧ ((∃ n id, e = .var n id) ∨ ∃ n symbol, e = .global n symbol) := by
  refine .look (I := fun _ => True) (fun _ _ run => by cases run; exact ⟨rfl, trivial⟩)
    fun found _ => ?_
  split
  case h_1 id =>
    refine .look (p := get) (I := fun _ => True) (fun _ _ run => by cases run; exact ⟨rfl, trivial⟩)
      fun state _ => ?_
    split
    · exact .pure ⟨rfl, .inl ⟨_, _, rfl⟩⟩
    · exact .throw
  case h_2 symbol =>
    refine .look (I := fun _ => True) (fun _ _ run => by cases run; exact ⟨rfl, trivial⟩)
      fun found _ => ?_
    split
    · exact .pure ⟨rfl, .inr ⟨_, _, rfl⟩⟩
    · exact .throw
  case h_3 => exact .throw
  case h_4 =>
    refine .check (fun _ => ?_) .throw
    refine .bind (Takes.modify fun _ => rfl) fun ks _ t empty => ?_
    refine .bind (declareFunction_takes _ _ _ _) fun ks' _ t empty' => ?_
    refine .bind (Takes.modify fun _ => rfl) fun ks'' _ t empty'' => .pure ?_
    subst empty empty' empty''
    exact ⟨rfl, .inr ⟨_, _, rfl⟩⟩

theorem addString_takes (bytes : List UInt8) :
    Takes (addString bytes) s fun ks _ => ks = [] := by
  rintro _ _ ⟨⟩
  exact ⟨[], rfl, rfl⟩

theorem adjacentStrings_takes (bytes : List UInt8) :
    Takes (adjacentStrings bytes) s fun ks joined =>
      ∃ more : List (List UInt8), ks = more.map .str ∧ joined = bytes ++ more.flatten := by
  refine .loop (I := fun ks joined => ∃ more : List (List UInt8),
    ks = more.map .str ∧ joined = bytes ++ more.flatten) (fun b s => stringStep_spends b)
    (fun ks b s ⟨more, tokens, joined⟩ => .peek ?_) ⟨[], rfl, by simp⟩ s
  split
  case h_1 another seen =>
    refine .next seen nofun fun t => .pure ⟨more ++ [another], ?_, ?_⟩
    · simp [tokens]
    · simp [joined, ForInStep.value]
  case h_2 => exact .pure ⟨more, by simp [tokens], joined⟩

end Parser

/-! ### Productions -/

open LiveC.Parser SourceExpr in
/-- The productions give derived expressions. -/
structure Productions.Derives (g : Productions) : Prop where
  moving : g.Moving anywhere.toTransition
  assignment (s : ParserState) : Takes g.assignment s (Forms 14)
  conditional (s : ParserState) : Takes g.conditional s (Forms 13)
  cast (s : ParserState) : Takes g.cast s (Forms 2)
  unary (s : ParserState) : Takes g.unary s (Forms 1)

theorem Operator.punct_of_ofPunct? {p : Punct} {op : Operator} (h : ofPunct? p = some op) :
    p = op.punct := by
  cases p <;> cases h <;> rfl

theorem punct_of_assignmentOp? {p : Punct} {op? : Option BinaryOp}
    (h : p.assignmentOp? = some op?) : p = assignmentPunct op? := by
  cases p <;> cases h <;> rfl

namespace Parser

open SourceExpr

/-- The punctuator at the front is looked at. -/
theorem Takes.peekPunct? {β : Type} {f : Option Punct → Parser β} {s : ParserState}
    {Q : List TokenKind → β → Prop} (h : Takes (f s.punct?) s Q) :
    Takes (Parser.peekPunct? >>= f) s Q :=
  .look (I := (· = s.punct?)) (fun _ _ run => by
    cases (peekPunct?_run s).symm.trans run
    exact ⟨rfl, rfl⟩) fun _ same => same ▸ h

theorem front_of_punct? {s : ParserState} {p : Punct} (h : s.punct? = some p) :
    s.front.kind = .punct p := by
  unfold ParserState.punct? at h
  split at h
  case h_1 q seen =>
    cases h
    exact seen
  case h_2 => cases h

/-- A type name in parentheses is only looked for. -/
theorem Takes.atTypeName {β : Type} {f : Bool → Parser β} {s : ParserState}
    {Q : List TokenKind → β → Prop} (yes : s.front.kind = .punct .lparen → Takes (f true) s Q)
    (no : Takes (f false) s Q) : Takes (Parser.atTypeName >>= f) s Q := by
  have type (token : Token) {found : Bool} {t : ParserState}
      (run : startsType token s = .ok found t) : t = s := by
    obtain ⟨kind, place⟩ := token
    cases kind <;> cases run <;> rfl
  unfold Parser.atTypeName
  rw [bind_assoc]
  refine .check (fun opens => ?_) no
  refine .look (I := fun _ => True) (fun found t run => ⟨type _ run, trivial⟩) fun found _ => ?_
  cases found with
  | true => exact yes opens
  | false => exact no

section

variable {g : Productions} (derives : g.Derives) {ks : List TokenKind}
include derives

/-! ### Binary operators, conditionals and assignments -/

theorem commaStep_takes {l : Expr} (left : Forms 15 ks l) (s : ParserState) :
    Takes (commaStep g l) s fun ks' r => Forms 15 (ks ++ ks') r.value := by
  refine .check (fun seen => .next seen nofun fun t => ?_) (.pure (by simpa using left))
  refine .bind (derives.assignment t) fun ks' e t right => .bounded (.pure ?_)
  simpa using left.comma right s.front.loc

theorem expression_takes (s : ParserState) : Takes (expression g) s (Forms 15) := by
  refine .bind (derives.assignment s) fun ks e t first => ?_
  exact .loop (I := Forms 15) (fun l s => commaStep_spends derives.moving l)
    (fun ks l s left => commaStep_takes derives left s) (first.mono (Nat.le_succ _)) t

omit derives in
theorem binaryStep_takes {n : Nat} (operand : ∀ s, Takes (binary g n) s (Forms (n + 2))) {l : Expr}
    (left : Forms (n + 3) ks l) (s : ParserState) :
    Takes (binaryStep g n l) s fun ks' r => Forms (n + 3) (ks ++ ks') r.value := by
  have last : Takes (pure (.done l) : Parser (ForInStep Expr)) s fun ks' r =>
      Forms (n + 3) (ks ++ ks') r.value := .pure (by simpa using left)
  refine .peekPunct? ?_
  split
  case h_1 op found =>
    obtain ⟨p, front, isOp⟩ := Option.bind_eq_some_iff.mp found
    obtain rfl := Operator.punct_of_ofPunct? isOp
    refine .ite (fun level => .next (front_of_punct? front) nofun fun t => ?_) fun _ => last
    refine .bind (operand t) fun ks' r t right => .typed fun e t gives => .bounded (.pure ?_)
    have whole := Forms.binary (left.mono (by omega)) (right.mono (by omega)) gives
    simpa using whole.mono (show op.level + 2 ≤ n + 3 by omega)
  case h_2 => exact last

theorem binary_takes (n : Nat) (s : ParserState) : Takes (binary g n) s (Forms (n + 2)) := by
  induction n generalizing s with
  | zero =>
      refine .bind (derives.cast s) fun ks e t forms => ?_
      rw [← bind_pure (bounded e)]
      exact .bounded (.pure (by simpa using forms))
  | succ n ih =>
      refine .bind (ih s) fun ks e t first => ?_
      exact .loop (I := Forms (n + 3)) (fun l s => binaryStep_spends derives.moving n l)
        (fun ks l s left => binaryStep_takes ih left s) (first.mono (Nat.le_succ _)) t

theorem conditional_takes (s : ParserState) : Takes (conditional g) s (Forms 13) := by
  refine .bind (binary_takes derives Operator.maxLevel s) fun ks c t hc => ?_
  refine .check (fun seen => .next seen nofun fun u => ?_) (.pure ?_)
  · refine .bind (expression_takes derives u) fun ks' l u hl => .expect fun u => ?_
    refine .bind (derives.conditional u) fun ks'' r u hr => .typed_last fun e gives => ?_
    simpa using hc.conditional hl hr gives
  · have low : Forms 13 ks c := hc.mono (Nat.le_succ _)
    simpa using low

theorem assignment_takes (s : ParserState) : Takes (assignment g) s (Forms 14) := by
  refine .bind (conditional_takes derives s) fun ks target t left => .peekPunct? ?_
  split
  case h_1 => exact .pure (by simpa using left.mono (Nat.le_succ _))
  case h_2 op? found =>
    obtain ⟨p, front, isOp⟩ := Option.bind_eq_some_iff.mp found
    obtain rfl := punct_of_assignmentOp? isOp
    refine .next (front_of_punct? front) nofun fun u => .typed fun _ u assignable => ?_
    refine .bind (derives.assignment u) fun ks' value u right => ?_
    have node : Takes (typed (assignmentNode op? target value t.front.loc)) u fun ks'' e =>
        Forms 14 (ks ++ .punct (assignmentPunct op?) :: (ks' ++ ks'')) e :=
      .typed_last fun e gives => by simpa using left.assign right assignable gives
    cases op? <;> exact node

/-! ### Casts and prefix operators -/

theorem typeName_takes (s : ParserState) : Takes (typeName g) s fun _ _ => True :=
  .moves (typeName_closed anywhere.toTransition.closed (each_moves derives.moving))

theorem sizeofOperand_takes (s : ParserState) (loc : Location) :
    Takes (sizeofOperand g loc) s fun ks e => Forms 1 (.keyword .sizeofKw :: ks) e := by
  refine .atTypeName (fun opens => .next opens nofun fun t => ?_) ?_
  · refine .bind (typeName_takes derives t) fun type ty t _ => .expect fun t => ?_
    refine .typed_last fun e gives => ?_
    simpa using Forms.sizeOfType gives
  · refine .bind (derives.unary s) fun ks e t operand => .typed_last fun e' gives => ?_
    have whole : Forms 1 (.keyword .sizeofKw :: ks) e' :=
      @Forms.unary ks e e' loc .size operand gives
    simpa using whole

/-! ### Calls and primary expressions -/

omit derives in
/-- Arguments and the parenthesis that closes them. -/
def ClosesArguments (ks : List TokenKind) (args : List (Location × Expr)) : Prop :=
  ∃ inner, ks = inner ++ [.punct .rparen] ∧ FormsAll inner args kindsAll

theorem argumentStep_takes {args : List (Location × Expr)} (before : FormsAll ks args kindsEach)
    (s : ParserState) : Takes (argumentStep g args) s fun ks' =>
      Takes.Round (FormsAll · · kindsEach) ClosesArguments (ks ++ ks') := by
  refine .loc (.bind (derives.assignment s) fun ks' e t last => ?_)
  have next := before.append last s.front.loc
  refine .eat (fun t => .pure ?_) (.expect fun t => .pure ⟨ks ++ ks', by simp, next.1⟩)
  have more : FormsAll (ks ++ (ks' ++ [.punct .comma])) (args ++ [(s.front.loc, e)]) kindsEach :=
    next.2
  exact more

theorem arguments_takes (s : ParserState) : Takes (arguments g) s ClosesArguments := by
  refine .eat (fun t => .pure ⟨[], rfl, [], rfl, rfl, nofun⟩) ?_
  exact .iterate (I := (FormsAll · · kindsEach)) (D := ClosesArguments)
    (fun args s => argumentStep_spends derives.moving args)
    (fun ks args s before => argumentStep_takes derives before s) [] [] ⟨[], rfl, rfl, nofun⟩ s

theorem call_takes {callee : Expr} (left : Forms 0 ks callee) (loc : Location) (s : ParserState) :
    Takes (call g callee loc) s fun ks' e => Forms 0 (ks ++ .punct .lparen :: ks') e := by
  refine .typed fun resolved t found => .bind (arguments_takes derives t) fun ks' args t all => ?_
  obtain ⟨inner, rfl, all⟩ := all
  refine .typed_last fun e gives => ?_
  simpa using left.call all found gives

theorem primary_takes (s : ParserState) : Takes (primary g) s (Forms 0) := by
  have constant {kind : TokenKind} {e : Expr} {loc : Location} (seen : s.front.kind = kind)
      (h : kind.constant? loc = some e) : Forms 0 [s.front.kind] e :=
    ⟨.constant e kind, by rw [kinds, seen], rfl, Nat.le_refl _, .leaf ⟨loc, h⟩ rfl⟩
  by_cases atEnd : s.front.kind = .eof
  · intro e t run
    rw [primary, next_run, atEnd] at run
    cases run
  refine .next rfl atEnd fun t => ?_
  dsimp only
  split
  case h_1 seen =>
    refine .ite (fun _ => ?_) fun _ => .pure (constant seen rfl)
    refine .bind (Takes.modify fun _ => rfl) fun ks _ u empty => .pure ?_
    subst empty
    exact constant seen rfl
  case h_2 seen | h_3 seen => exact .pure (constant seen rfl)
  case h_4 first seen =>
    refine .bind (adjacentStrings_takes first) fun ks joined u adjacent => ?_
    obtain ⟨more, rfl, rfl⟩ := adjacent
    refine .bind (addString_takes _) fun ks' id u empty => .pure ?_
    subst empty
    refine ⟨.string _ first more, ?_, rfl, Nat.le_refl _, .leaf ⟨s.front.loc, id, rfl⟩ rfl⟩
    rw [kinds, seen]
    simp
  case h_5 seen =>
    refine .bind (expression_takes derives t) fun ks e u inner => .expect fun u => .pure ?_
    rw [seen]
    simpa using inner.parens
  case h_6 x seen =>
    refine (identifier_takes x _).mono fun ks e found => ?_
    obtain ⟨rfl, named⟩ := found
    exact ⟨.name e x, by rw [kinds, seen], rfl, Nat.le_refl _, .leaf named rfl⟩
  case h_7 => exact .throw

theorem postfixStep_takes {e : Expr} (left : Forms 0 ks e) (s : ParserState) :
    Takes (postfixStep g e) s fun ks' r => Forms 0 (ks ++ ks') r.value := by
  refine .peek ?_
  split
  case h_1 seen =>
    refine .next seen nofun fun t => .bind (expression_takes derives t) fun ks' index t hi => ?_
    refine .expect fun t => .typed fun e' t gives => .pure ?_
    simpa using left.subscript hi gives
  case h_2 seen =>
    refine .next seen nofun fun t => .bind (call_takes derives left _ t) fun ks' e' t whole => ?_
    exact .pure (by simpa using whole)
  case h_3 seen =>
    refine .next seen nofun fun t => .typed fun e' t gives => .pure ?_
    simpa using left.stepped true gives
  case h_4 seen =>
    refine .next seen nofun fun t => .typed fun e' t gives => .pure ?_
    simpa using left.stepped false gives
  case h_5 | h_6 => exact .throw
  case h_7 => exact .pure (by simpa using left)

theorem postfixed_takes (s : ParserState) : Takes (postfixed g) s (Forms 0) := by
  refine .bind (primary_takes derives s) fun ks e t first => ?_
  exact .loop (I := Forms 0) (fun e s => postfixStep_spends derives.moving e)
    (fun ks e s left => postfixStep_takes derives left s) first t

theorem unary_takes (s : ParserState) : Takes (unary g) s (Forms 1) := by
  have operator {operand : Parser Expr} (op : PrefixOperator)
      (h : ∀ t, Takes operand t (Forms op.operandRank)) (seen : s.front.kind = op.kind)
      (real : op.kind ≠ .eof) : Takes (do
        let _ ← next
        typed (op.apply (← operand) s.front.loc)) s (Forms 1) :=
    .next seen real fun t => .bind (h t) fun ks e t forms => .typed_last fun e' gives => by
      simpa using forms.unary gives
  refine .peek ?_
  dsimp only
  split
  case h_1 seen => exact .next seen nofun fun t => sizeofOperand_takes derives t _
  case h_2 seen => exact operator .increment derives.unary seen nofun
  case h_3 seen => exact operator .decrement derives.unary seen nofun
  case h_4 seen => exact operator .address derives.cast seen nofun
  case h_5 seen => exact operator .indirection derives.cast seen nofun
  case h_6 seen => exact operator .plus derives.cast seen nofun
  case h_7 seen => exact operator .minus derives.cast seen nofun
  case h_8 seen => exact operator .complement derives.cast seen nofun
  case h_9 seen => exact operator .not derives.cast seen nofun
  case h_10 => exact (postfixed_takes derives s).mono fun _ _ forms => forms.mono (Nat.le_succ _)

theorem cast_takes (s : ParserState) : Takes (cast g) s (Forms 2) := by
  refine .atTypeName (fun opens => .next opens nofun fun t => ?_) ?_
  · refine .bind (typeName_takes derives t) fun type ty t _ => .expect fun t => ?_
    refine .bind (derives.cast t) fun ks e t operand => .typed_last fun e' gives => ?_
    simpa using operand.cast gives
  · exact (unary_takes derives s).mono fun _ _ forms => forms.mono (Nat.le_succ _)

end

/-- At every level of nesting the productions give derived expressions. -/
theorem productions_derive (n : Nat) : (productions n).Derives := by
  induction n with
  | zero =>
      have refused {α : Type} {s : ParserState} {Q : List TokenKind → α → Prop} :
          Takes (do Parser.fail (← Parser.loc) .nestedTooDeeply) s Q := .loc .throw
      exact ⟨productions_moving 0, fun _ => refused, fun _ => refused, fun _ => refused,
        fun _ => refused⟩
  | succ n ih =>
      exact ⟨productions_moving (n + 1), assignment_takes ih, conditional_takes ih, cast_takes ih,
        unary_takes ih⟩

/-- The parsers of expressions over some productions. -/
inductive ReadsExpression (g : Productions) : Parser Expr → Prop where
  | expression : ReadsExpression g (expression g)
  | assignment : ReadsExpression g (assignment g)
  | conditional : ReadsExpression g (conditional g)
  | binary (n : Nat) : ReadsExpression g (binary g n)
  | cast : ReadsExpression g (cast g)
  | unary : ReadsExpression g (unary g)
  | postfixed : ReadsExpression g (postfixed g)
  | primary : ReadsExpression g (primary g)

/-- The tokens that a parser of expressions takes are those of a derived expression, which comes to
what the parser gives. -/
theorem exists_derived {n : Nat} {p : Parser Expr} (reads : ReadsExpression (productions n) p)
    {s t : ParserState} {e : Expr} (run : p s = .ok e t) :
    ∃ w : SourceExpr, s.kinds = w.kinds ++ t.kinds ∧ w.typed = e ∧ w.Derived := by
  have derives := productions_derive n
  have taken : ∃ r, Takes p s (Forms r) := by
    cases reads with
    | expression => exact ⟨_, expression_takes derives s⟩
    | assignment => exact ⟨_, assignment_takes derives s⟩
    | conditional => exact ⟨_, conditional_takes derives s⟩
    | binary m => exact ⟨_, binary_takes derives m s⟩
    | cast => exact ⟨_, cast_takes derives s⟩
    | unary => exact ⟨_, unary_takes derives s⟩
    | postfixed => exact ⟨_, postfixed_takes derives s⟩
    | primary => exact ⟨_, primary_takes derives s⟩
  obtain ⟨r, takes⟩ := taken
  obtain ⟨ks, tokens, w, rfl, typed, -, derived⟩ := takes e t run
  exact ⟨w, tokens, typed, derived⟩

end Parser

end LiveC
