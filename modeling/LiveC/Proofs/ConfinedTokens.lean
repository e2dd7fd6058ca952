import LiveC.Proofs.ParserProgress

/-!
Runs that are confined to parentheses. Declarators and expressions inside of open parentheses
come to the same whatever stands behind the one that closes them, and they stop in front of it.
-/

namespace LiveC

/-- The same state with more tokens at the end. -/
def ParserState.followedBy (s : ParserState) (more : List Token) : ParserState :=
  { s with rest := s.rest ++ more }

namespace Parser

/-! ### Closing parentheses -/

/-- Tokens end with the parenthesis that closes the outermost one, inside of which a number of
others are open. -/
def Closes (depth : Nat) (ts : List Token) : Prop := behindClose? (depth + 1) ts = some []

theorem behindClose?_append {depth : Nat} {ts rest : List Token}
    (h : behindClose? depth ts = some rest) (more : List Token) :
    behindClose? depth (ts ++ more) = some (rest ++ more) := by
  induction ts generalizing depth with
  | nil => cases h
  | cons t ts ih =>
      rw [List.cons_append]
      unfold behindClose? at h ⊢
      split at h
      case h_1 | h_2 => exact ih h
      case h_3 other =>
        cases h
        rfl
      case h_4 => exact ih h

section

variable {t : Token} {ts rest : List Token} {depth : Nat}

theorem behindClose?_lparen (kind : t.kind = .punct .lparen) :
    behindClose? depth (t :: ts) = behindClose? (depth + 1) ts := by
  cases t
  cases kind
  rfl

theorem behindClose?_rparen (kind : t.kind = .punct .rparen) :
    behindClose? (depth + 2) (t :: ts) = behindClose? (depth + 1) ts := by
  cases t
  cases kind
  rfl

theorem behindClose?_last (kind : t.kind = .punct .rparen) :
    behindClose? 1 (t :: ts) = some ts := by
  cases t
  cases kind
  rfl

theorem behindClose?_other (opens : t.kind ≠ .punct .lparen) (closes : t.kind ≠ .punct .rparen) :
    behindClose? depth (t :: ts) = behindClose? depth ts := by
  conv => lhs; unfold behindClose?
  split
  case h_1 kind => exact absurd kind opens
  case h_2 kind | h_3 kind _ => exact absurd kind closes
  case h_4 => rfl

/-- Parentheses are closed from the innermost one on. -/
theorem behindClose?_add {inner outer : Nat}
    (h : behindClose? (inner + 1 + (outer + 1)) ts = some rest) :
    ∃ between, behindClose? (inner + 1) ts = some between ∧
      behindClose? (outer + 1) between = some rest := by
  induction ts generalizing inner with
  | nil => cases h
  | cons t ts ih =>
      by_cases opens : t.kind = .punct .lparen
      · rw [behindClose?_lparen opens] at h ⊢
        exact ih (by rwa [Nat.add_right_comm] at h)
      by_cases closes : t.kind = .punct .rparen
      · cases inner with
        | zero =>
            refine ⟨ts, behindClose?_last closes, ?_⟩
            rwa [Nat.add_comm, behindClose?_rparen closes] at h
        | succ inner =>
            rw [behindClose?_rparen closes]
            have passed : inner + 1 + 1 + (outer + 1) = inner + 1 + outer + 2 := by omega
            rw [passed, behindClose?_rparen closes] at h
            exact ih (by rwa [Nat.add_assoc] at h)
      · rw [behindClose?_other opens closes] at h ⊢
        exact ih h

theorem Closes.ne_nil (h : Closes depth ts) : ts ≠ [] := by
  rintro rfl
  cases h

end

/-! ### Confined runs -/

/-- What more tokens at the end make of a result. -/
def followed {α : Type} (more : List Token) :
    EStateM.Result SourceFault ParserState α → EStateM.Result SourceFault ParserState α
  | .ok a t => .ok a (t.followedBy more)
  | .error e t => .error e (t.followedBy more)

/-- A run does not see what follows on its tokens, and comes to what has a property. -/
def Confined {α : Type} (p : Parser α) (s : ParserState) (Q : α → ParserState → Prop) : Prop :=
  (∀ more, p (s.followedBy more) = followed more (p s)) ∧ ∀ a t, p s = .ok a t → Q a t

/-- What holds behind a round of a loop that goes on, and behind the last one. -/
def AfterRound {β : Type} (I : ParserState → Prop) (Q : β → ParserState → Prop) :
    ForInStep β → ParserState → Prop
  | .yield _, t => I t
  | .done c, t => Q c t

/-- Inside of a number of open parentheses, a run is confined to them and leaves them open. -/
def Stays {α : Type} (depth : Nat) (p : Parser α) : Prop :=
  ∀ s, Closes depth s.rest → Confined p s fun _ t => Closes depth t.rest

variable {α β : Type} {p : Parser α} {f : α → Parser β} {s : ParserState} {depth : Nat}
  {P : α → ParserState → Prop} {Q : β → ParserState → Prop}

namespace Confined

theorem pure {b : β} (h : Q b s) : Confined (Pure.pure b) s Q := by
  refine ⟨fun more => rfl, ?_⟩
  rintro _ _ ⟨⟩
  exact h

theorem throw {e : SourceFault} : Confined (MonadExcept.throw e : Parser β) s Q :=
  ⟨fun _ => rfl, nofun⟩

/-- What follows makes no difference to a first step, nor to what is behind it. -/
theorem followed_bind {k : α → Parser β} {more : List Token} (h : Confined p s P)
    (hf : ∀ a t, p s = .ok a t → P a t → k a (t.followedBy more) = followed more (f a t)) :
    (p >>= k) (s.followedBy more) = followed more ((p >>= f) s) := by
  simp only [Bind.bind, EStateM.bind, h.1 more]
  cases first : p s with
  | ok a t => exact hf a t first (h.2 a t first)
  | error e t => rfl

theorem bind (h : Confined p s P) (hf : ∀ a t, P a t → Confined (f a) t Q) :
    Confined (p >>= f) s Q := by
  refine ⟨fun more => h.followed_bind fun a t _ holds => (hf a t holds).1 more, fun b u run => ?_⟩
  · obtain ⟨a, t, first, second⟩ := bind_eq_ok run
    exact (hf a t (h.2 a t first)).2 b u second

theorem ite {c : Prop} [Decidable c] {p q : Parser β} (hp : c → Confined p s Q)
    (hq : ¬c → Confined q s Q) : Confined (if c then p else q) s Q := by
  by_cases hc : c
  · rw [if_pos hc]
    exact hp hc
  · rw [if_neg hc]
    exact hq hc

/-- What is behind a test that refuses. -/
theorem guard {c : Prop} [Decidable c] {loc : Location} {e : SemanticError} {k : Parser β}
    {f : α → Parser β} (h : ¬c → Confined k s Q) :
    Confined (if c then refuse loc e >>= f else k) s Q :=
  ite (fun _ => ⟨fun _ => rfl, nofun⟩) h

theorem mono {R : β → ParserState → Prop} {p : Parser β} (h : Confined p s Q)
    (post : ∀ b t, Q b t → R b t) : Confined p s R :=
  ⟨h.1, fun b t run => post b t (h.2 b t run)⟩

theorem congr {p q : Parser β} (h : Confined p s Q) (same : ∀ u, q u = p u) : Confined q s Q := by
  obtain rfl : q = p := funext same
  exact h

/-- The rounds of a loop are confined, up to the one that ends it. -/
theorem iterate {step : β → Parser (ForInStep β)} {I : ParserState → Prop}
    (spends : ∀ b s, Spends GoesOn (step b) s)
    (h : ∀ b s, I s → Confined (step b) s (AfterRound I Q)) (b : β) (start : I s) : Confined (iterate step b) s Q := by
  -- The rounds behind a first one that goes on, with its result named.
  have again {b c : β} {s t : ParserState} (run : step b s = .ok (.yield c) t)
      (lt : t.rest.length < s.rest.length) : Parser.iterate step b s = Parser.iterate step c t := by
    rw [Parser.iterate, run]
    exact if_pos lt
  induction b, s using Parser.iterate.induct step with
  | case1 b s e t run =>
      have ends (more : List Token) := (h b s start).1 more
      refine ⟨fun more => ?_, ?_⟩
      · rw [Parser.iterate, ends more, Parser.iterate, run]
        rfl
      · rw [Parser.iterate, run]
        exact nofun
  | case2 b s c t run =>
      have once := h b s start
      refine ⟨fun more => ?_, ?_⟩
      · rw [Parser.iterate, once.1 more, Parser.iterate, run]
        rfl
      · rw [Parser.iterate, run]
        rintro _ _ ⟨⟩
        exact once.2 _ _ run
  | case3 b s c t run lt ih =>
      have once := h b s start
      have later := ih (once.2 _ _ run)
      refine ⟨fun more => ?_, ?_⟩
      · rw [again run lt, again (c := c) (t := t.followedBy more) (by rw [once.1 more, run]; rfl) ?_]
        · exact later.1 more
        · simp only [ParserState.followedBy, List.length_append]
          omega
      · rw [again run lt]
        exact later.2
  | case4 b s c t run stuck => exact absurd (spends b s _ t run trivial) stuck

end Confined

namespace Stays

theorem pure {a : α} : Stays depth (Pure.pure a : Parser α) := fun _ closes => .pure closes

theorem throw {e : SourceFault} : Stays depth (MonadExcept.throw e : Parser α) := fun _ _ => .throw

theorem throw_bind {e : SourceFault} : Stays depth ((MonadExcept.throw e : Parser α) >>= f) :=
  fun _ _ => ⟨fun _ => rfl, nofun⟩

theorem bind (h : Stays depth p) (hf : ∀ a, Stays depth (f a)) : Stays depth (p >>= f) :=
  fun s closes => (h s closes).bind fun a t closes => hf a t closes

theorem ite {c : Prop} [Decidable c] {p q : Parser α} (hp : c → Stays depth p)
    (hq : ¬c → Stays depth q) : Stays depth (if c then p else q) :=
  fun s closes => .ite (fun hc => hp hc s closes) fun hc => hq hc s closes

theorem guard {c : Prop} [Decidable c] {loc : Location} {e : SemanticError} {k : Parser β}
    {f : α → Parser β} (h : ¬c → Stays depth k) :
    Stays depth (if c then refuse loc e >>= f else k) :=
  fun s closes => .guard fun hc => h hc s closes

theorem or {p q : Parser Bool} (hp : Stays depth p) (hq : Stays depth q) :
    Stays depth (p <||> q) := by
  refine hp.bind fun first => ?_
  cases first with
  | true => exact pure
  | false => exact hq

theorem iterate {step : β → Parser (ForInStep β)} (spends : ∀ b s, Spends GoesOn (step b) s)
    (h : ∀ b, Stays depth (step b)) (b : β) : Stays depth (iterate step b) :=
  fun s closes => .iterate (I := fun t => Closes depth t.rest) spends (fun b s closes =>
    (h b s closes).mono fun r _ closes => by cases r <;> exact closes) b closes

/-- A change of the state that does not concern the tokens. -/
theorem modify {g : ParserState → ParserState} (rest : ∀ s, (g s).rest = s.rest)
    (same : ∀ s more, g (s.followedBy more) = (g s).followedBy more) : Stays depth (modify g) := by
  refine fun s closes => ⟨fun more => ?_, ?_⟩
  · change EStateM.Result.ok PUnit.unit (g (s.followedBy more)) = _
    rw [same]
    rfl
  · rintro _ _ ⟨⟩
    rwa [rest]

end Stays

/-! ### Tokens -/

theorem Closes.cons {t : Token} {ts : List Token} (h : Closes depth (t :: ts)) :
    (t.kind = .punct .lparen → Closes (depth + 1) ts) ∧
      (t.kind = .punct .rparen → ∀ outer, depth = outer + 1 → Closes outer ts) ∧
        (t.kind ≠ .punct .lparen → t.kind ≠ .punct .rparen → Closes depth ts) := by
  refine ⟨fun opens => ?_, fun closes outer => ?_, fun opens closes => ?_⟩
  · rwa [Closes, behindClose?_lparen opens] at h
  · rintro rfl
    rwa [Closes, behindClose?_rparen closes] at h
  · rwa [Closes, behindClose?_other opens closes] at h

/-- There is a token at the front, and it is the same whatever follows. -/
theorem Closes.front (h : Closes depth s.rest) :
    ∃ ts, s.rest = s.front :: ts ∧ ∀ more, (s.followedBy more).front = s.front := by
  obtain ⟨t, ts, rest⟩ := List.exists_cons_of_ne_nil (Closes.ne_nil h)
  refine ⟨ts, by simp [ParserState.front, rest], fun more => ?_⟩
  simp [ParserState.front, ParserState.followedBy, rest]

/-- What is behind a look at the token at the front. -/
theorem Confined.peek {f : Token → Parser β} (closes : Closes depth s.rest)
    (h : Confined (f s.front) s Q) : Confined (Parser.peek >>= f) s Q := by
  obtain ⟨-, -, same⟩ := closes.front
  refine ⟨fun more => ?_, h.2⟩
  change f (s.followedBy more).front (s.followedBy more) = _
  rw [same]
  exact h.1 more

theorem peek_stays : Stays depth peek := fun _ closes => .peek closes (.pure closes)

/-- There is another token behind one that does not close the outermost parenthesis. -/
theorem Closes.second (h : Closes depth s.rest) (open' : s.front.kind ≠ .punct .rparen) :
    ∃ t ts, s.rest = s.front :: t :: ts := by
  obtain ⟨ts, rest, -⟩ := h.front
  rw [rest] at h
  have more : ts ≠ [] := by
    by_cases opens : s.front.kind = .punct .lparen
    · exact (h.cons.1 opens).ne_nil
    · exact (h.cons.2.2 opens open').ne_nil
  obtain ⟨t, ts, rfl⟩ := List.exists_cons_of_ne_nil more
  exact ⟨t, ts, rest⟩

/-- What is behind a look at the second token. -/
theorem Confined.peekSecond {f : Token → Parser β} {first second : Token} {ts : List Token}
    (rest : s.rest = first :: second :: ts) (h : Confined (f second) s Q) :
    Confined (Parser.peekSecond >>= f) s Q := by
  have seen (u : ParserState) : (Parser.peekSecond >>= f) u =
    f (u.rest.tail.head?.getD ⟨.eof, u.endLoc⟩) u := rfl
  have here : (Parser.peekSecond >>= f) s = f second s := by rw [seen, rest]; rfl
  refine ⟨fun more => ?_, fun b t run => h.2 b t (here ▸ run)⟩
  rw [here, ← h.1 more, seen]
  simp [ParserState.followedBy, rest]

/-- A token is passed. -/
theorem next_confined (closes : Closes depth s.rest) : Confined next s fun a t =>
    a = s.front ∧ s.rest = s.front :: t.rest := by
  obtain ⟨ts, rest, same⟩ := closes.front
  refine .peek closes ⟨fun more => ?_, ?_⟩
  · change EStateM.Result.ok s.front { s with rest := (s.rest ++ more).tail } =
      .ok s.front { s with rest := s.rest.tail ++ more }
    rw [rest]
    rfl
  · rintro _ _ ⟨⟩
    refine ⟨rfl, ?_⟩
    change s.rest = s.front :: s.rest.tail
    rw [rest]
    rfl

/-- Passes a token that is not a parenthesis. -/
theorem next_stays (closes : Closes depth s.rest) (opens : s.front.kind ≠ .punct .lparen)
    (open' : s.front.kind ≠ .punct .rparen) : Confined next s fun _ t => Closes depth t.rest := by
  refine (next_confined closes).mono fun a t ⟨_, rest⟩ => ?_
  rw [rest] at closes
  exact closes.cons.2.2 opens open'

/-- Passes an opening parenthesis. -/
theorem next_opens (closes : Closes depth s.rest) (opens : s.front.kind = .punct .lparen) :
    Confined next s fun _ t => Closes (depth + 1) t.rest := by
  refine (next_confined closes).mono fun a t ⟨_, rest⟩ => ?_
  rw [rest] at closes
  exact closes.cons.1 opens

/-- Passes a parenthesis that closes. -/
theorem next_closes (closes : Closes (depth + 1) s.rest) (open' : s.front.kind = .punct .rparen) :
    Confined next s fun _ t => Closes depth t.rest := by
  refine (next_confined closes).mono fun a t ⟨_, rest⟩ => ?_
  rw [rest] at closes
  exact closes.cons.2.1 open' depth rfl

theorem check_stays (p : Punct) : Stays depth (check p) := peek_stays.bind fun _ => .pure

/-- What is behind a look for a punctuator. -/
theorem Confined.check {p : Punct} {f : Bool → Parser β} (closes : Closes depth s.rest)
    (yes : s.front.kind = .punct p → Confined (f true) s Q) (no : Confined (f false) s Q) :
    Confined (check p >>= f) s Q := by
  have seen : Confined (Parser.check p) s fun isNext t => t = s ∧
      isNext = (s.front.kind == .punct p) := .peek closes (.pure ⟨rfl, rfl⟩)
  refine seen.bind fun isNext t ⟨here, same⟩ => ?_
  subst here
  cases isNext with
  | true => exact yes (beq_iff_eq.mp same.symm)
  | false => exact no

theorem loc_stays : Stays depth loc := peek_stays.bind fun _ => .pure

/-- A punctuator that is passed, or what there is without it. -/
theorem Confined.eat {p : Punct} {P : ParserState → Prop} (closes : Closes depth s.rest)
    (passed : s.front.kind = .punct p → Confined next s fun _ t => P t) :
    Confined (eat p) s fun eaten t => if eaten then P t else Closes depth t.rest := by
  refine .check closes (fun isNext => ?_) (.pure closes)
  exact (passed isNext).bind fun _ t holds => .pure holds

theorem eat_stays (p : Punct) (opens : p ≠ .lparen) (open' : p ≠ .rparen) :
    Stays depth (eat p) := by
  refine fun s closes => (Confined.eat closes fun isNext => next_stays closes ?_ ?_).mono
    fun eaten t closes => by cases eaten <;> exact closes
  · rw [isNext]
    exact fun same => opens (TokenKind.punct.inj same)
  · rw [isNext]
    exact fun same => open' (TokenKind.punct.inj same)

theorem expect_stays (p : Punct) (opens : p ≠ .lparen) (open' : p ≠ .rparen) :
    Stays depth (expect p) :=
  (eat_stays p opens open').bind fun _ => .ite (fun _ => .pure) fun _ => peek_stays.bind fun _ => .throw

/-- What is behind a parenthesis that must come next. -/
theorem expect_confined {p : Punct} {P : ParserState → Prop} (closes : Closes depth s.rest)
    (passed : s.front.kind = .punct p → Confined next s fun _ t => P t) :
    Confined (expect p) s fun _ t => P t := by
  refine (Confined.eat closes passed).bind fun eaten t holds => ?_
  cases eaten with
  | true => exact .pure holds
  | false =>
      have closes : Closes depth t.rest := holds
      exact .peek closes .throw

theorem expect_opens (closes : Closes depth s.rest) :
    Confined (expect .lparen) s fun _ t => Closes (depth + 1) t.rest :=
  expect_confined closes fun opens => next_opens closes opens

theorem expect_closes (closes : Closes (depth + 1) s.rest) :
    Confined (expect .rparen) s fun _ t => Closes depth t.rest :=
  expect_confined closes fun open' => next_closes closes open'

/-- The parenthesis that closes the outermost one is the last token. -/
theorem expect_last (closes : Closes 0 s.rest) :
    Confined (expect .rparen) s fun _ t => t.rest = [] := by
  refine expect_confined closes fun open' => (next_confined closes).mono fun a t ⟨_, rest⟩ => ?_
  have last := closes
  rw [rest, Closes, behindClose?_last open'] at last
  exact Option.some.inj last

theorem eatKeyword_stays (kw : Keyword) : Stays depth (eatKeyword kw) := by
  refine fun s closes => .peek closes ?_
  refine .ite (fun isNext => ?_) fun _ => .pure closes
  have kind := beq_iff_eq.mp isNext
  exact (next_stays closes (by rw [kind]; nofun) (by rw [kind]; nofun)).bind fun _ t closes => .pure closes

/-! ### Typing steps and names -/

theorem typed_stays (t : Typing α) : Stays depth (typed t) := by
  intro s closes
  cases ht : t.run s.warnings with
  | ok r =>
      have run : typed t s = .ok r.1 { s with warnings := r.2 } := by simp only [typed, ht]
      refine ⟨fun more => ?_, ?_⟩
      · simp only [typed, ParserState.followedBy, ht, followed]
      · rw [run]
        rintro _ _ ⟨⟩
        exact closes
  | error f =>
      have run : typed t s = .error (.meaning f) s := by simp only [typed, ht]
      refine ⟨fun more => ?_, ?_⟩
      · simp only [typed, ParserState.followedBy, ht, followed]
      · rw [run]
        exact nofun

theorem warn_stays (loc : Location) (w : SemanticWarning) : Stays depth (warn loc w) :=
  .modify (fun _ => rfl) fun _ _ => rfl

/-- What is behind a look at the state, apart from its tokens. -/
theorem Confined.get {f : ParserState → Parser β} (same : ∀ more, f (s.followedBy more) = f s)
    (h : Confined (f s) s Q) : Confined (MonadState.get >>= f) s Q := by
  refine ⟨fun more => ?_, h.2⟩
  change f (s.followedBy more) (s.followedBy more) = _
  rw [same]
  exact h.1 more

theorem find?_confined (name : String) : Confined (find? name) s fun _ t => t = s :=
  .get (fun _ => rfl) (.pure rfl)

theorem findSymbol?_stays (name : String) : Stays depth (findSymbol? name) :=
  fun _ closes => .get (fun _ => rfl) (.pure closes)

theorem setSymbol_stays (name : String) (symbol : GlobalSymbol) :
    Stays depth (setSymbol name symbol) := .modify (fun _ => rfl) fun _ _ => rfl

theorem bindFile_stays (name : String) (b : Binding) : Stays depth (bindFile name b) :=
  .modify (fun _ => rfl) fun _ _ => rfl

theorem declareFunction_stays (name : String) (ty : CType) (isStatic : Bool) (loc : Location) :
    Stays depth (declareFunction name ty isStatic loc) := by
  refine (findSymbol?_stays name).bind fun old => ?_
  split
  · exact setSymbol_stays _ _
  · split
    · exact .guard fun _ => .ite (fun _ => setSymbol_stays _ _) fun _ => .pure
    · exact .throw
    · exact .throw

theorem isTypedef_confined (t : Token) : Confined (isTypedef t) s fun _ u => u = s := by
  unfold isTypedef
  split
  · refine (find?_confined _).bind fun _ u here => ?_
    exact .pure here
  · exact .pure rfl

theorem startsType_confined (t : Token) : Confined (startsType t) s fun _ u => u = s := by
  unfold startsType
  split
  · exact .pure rfl
  · exact isTypedef_confined t

/-- A run that changes nothing. -/
theorem Stays.of_same (h : ∀ s, Confined p s fun _ t => t = s) : Stays depth p :=
  fun s closes => (h s).mono fun _ t here => by rwa [here]

/-! ### Declaration specifiers -/

theorem skipToClose_closes (closes : Closes (depth + 1) s.rest) (e : SyntaxError) :
    Confined (skipToClose e) s fun _ t => Closes depth t.rest := by
  have inner : behindClose? (0 + 1 + (depth + 1)) s.rest = some [] := by
    rw [Nat.zero_add, Nat.add_comm]
    exact closes
  obtain ⟨between, found, outer⟩ := behindClose?_add inner
  refine ⟨fun more => ?_, ?_⟩
  · rw [skipToClose_some found, skipToClose_some (s := s.followedBy more) (behindClose?_append found more)]
    rfl
  · rw [skipToClose_some found]
    rintro _ _ ⟨⟩
    exact outer

theorem skipAttribute_stays : Stays depth skipAttribute :=
  fun _ closes => (expect_opens closes).bind fun _ _ closes => skipToClose_closes closes _

theorem skipAttributes_stays : Stays depth skipAttributes := by
  refine Stays.iterate (fun u _ => attributeStep_spends u) (fun _ => ?_) ()
  exact .bind (.or (eatKeyword_stays _) (eatKeyword_stays _)) fun _ =>
    .ite (fun _ => skipAttribute_stays.bind fun _ => .pure) fun _ => .pure

theorem specifier_stays (read : Specifiers) : Stays depth (specifier read) := by
  intro s closes
  refine .peek closes ?_
  have done {r : ForInStep Specifiers} :
      Confined (pure r) s fun _ t => Closes depth t.rest := .pure closes
  split
  case h_1 name seen =>
    have passed (r : Specifiers) : Confined (do
        let _ ← next
        return ForInStep.yield r) s fun _ t => Closes depth t.rest :=
      (next_stays closes (by rw [seen]; nofun) (by rw [seen]; nofun)).bind fun _ _ closes => .pure closes
    refine (find?_confined name).bind fun b t here => ?_
    subst here
    split
    · exact .ite (fun _ => passed _) fun _ => done
    · exact done
  case h_2 kw seen =>
    have passed {β : Type} {p : Parser β} (h : Stays depth p) : Confined (next >>= fun _ => p) s
        fun _ t => Closes depth t.rest :=
      (next_stays closes (by rw [seen]; nofun) (by rw [seen]; nofun)).bind fun _ t closes => h t closes
    split
    · exact done
    · exact .throw
    · exact .guard fun _ => passed .pure
    · exact passed (skipAttribute_stays.bind fun _ => .pure)
    · exact passed .pure
    · exact passed .pure
    · exact passed .pure
  case h_3 => exact done

theorem specifiedType_stays (read : Specifiers) (start : Location) :
    Stays depth (specifiedType read start) := by
  unfold specifiedType
  split
  · exact .ite (fun _ => .pure) fun _ => .throw
  · refine .ite (fun _ => (warn_stays _ _).bind fun _ => ?_) fun _ => ?_ <;>
    · split
      · exact .pure
      · exact .throw

theorem declSpecifiers_stays : Stays depth declSpecifiers := by
  have spends (read : Specifiers) (s : ParserState) : Spends GoesOn (specifier read) s := by
    refine fun r t run goesOn => specifier_spends read r t run ?_
    rintro rfl
    exact goesOn
  refine loc_stays.bind fun start => (Stays.iterate spends specifier_stays {}).bind fun read => ?_
  refine .ite (fun _ => peek_stays.bind fun _ => .throw_bind) fun _ => ?_
  exact (specifiedType_stays read start).bind fun _ => .pure

end Parser
end LiveC
