import LiveC.Proofs.ConfinedGrammar
import LiveC.Proofs.FileTransitions

/-!
Blocks and loops that a run of the parser enters are left again, also where it fails. A
declaration at file scope is left outside of all of them.

Parsing ends on every token list. The loops end by themselves, an error is left behind by the loop
that recovers from it, a declarator reads its parentheses without a look behind them, and what a
run enters it leaves again.
-/

namespace LiveC

/-- A parser has come back to the blocks and loops it was in. Names may have been declared in
the innermost block and in the file. -/
structure ParserState.Returns (s t : ParserState) : Prop where
  loopDepth : t.loopDepth = s.loopDepth
  blocks : t.scopes.blocks.length = s.scopes.blocks.length
  outer : t.scopes.blocks.tail = s.scopes.blocks.tail
  innermost : s.scopes.blocks.head?.getD [] <:+ t.scopes.blocks.head?.getD []
  file : s.scopes.file <:+ t.scopes.file

/-- A number of blocks are open, outside of loops. -/
structure ParserState.AtDepth (n : Nat) (s : ParserState) : Prop where
  blocks : s.scopes.blocks.length = n
  loopDepth : s.loopDepth = 0

namespace ParserState

variable {s t u : ParserState}

theorem Returns.of_scopes (loopDepth : t.loopDepth = s.loopDepth) (scopes : t.scopes = s.scopes) :
    Returns s t :=
  ⟨loopDepth, by rw [scopes], by rw [scopes], scopes ▸ List.suffix_rfl, scopes ▸ List.suffix_rfl⟩

theorem Returns.trans (h : Returns s t) (k : Returns t u) : Returns s u :=
  ⟨k.loopDepth.trans h.loopDepth, k.blocks.trans h.blocks, k.outer.trans h.outer,
    h.innermost.trans k.innermost, h.file.trans k.file⟩

theorem Returns.bind (s : ParserState) (name : String) (b : Binding) :
    Returns s { s with scopes := s.scopes.bind name b } := by
  unfold ScopeStack.bind
  split
  case h_1 none =>
    exact ⟨rfl, rfl, rfl, List.suffix_rfl, List.suffix_cons _ _⟩
  case h_2 scope outer some =>
    refine ⟨rfl, by simp [some], by simp [some], ?_, List.suffix_rfl⟩
    simp only [some, List.head?_cons, Option.getD_some]
    exact List.suffix_cons _ _

/-- The scope of a block is left. -/
theorem Returns.block (h : Returns { s with scopes := s.scopes.openBlock } t) :
    Returns s { t with scopes := t.scopes.closeBlock } := by
  have blocks : t.scopes.blocks.tail = s.scopes.blocks := h.outer
  refine ⟨h.loopDepth, ?_, ?_, ?_, h.file⟩ <;> simp [ScopeStack.closeBlock, blocks]

theorem Returns.loop (h : Returns { s with loopDepth := s.loopDepth + 1 } t) :
    Returns s { t with loopDepth := t.loopDepth - 1 } :=
  ⟨by simp [h.loopDepth], h.blocks, h.outer, h.innermost, h.file⟩

theorem AtDepth.returns {n : Nat} (h : s.AtDepth n) (moved : Returns s t) : t.AtDepth n :=
  ⟨moved.blocks.trans h.blocks, moved.loopDepth.trans h.loopDepth⟩

end ParserState

namespace Parser

open ParserState

theorem returns_transition : FileTransition Returns where
  refl _ := .of_scopes rfl rfl
  trans := .trans
  rest _ _ := .of_scopes rfl rfl
  warnings _ _ := .of_scopes rfl rfl
  errors _ _ := .of_scopes rfl rfl
  bind := .bind
  bindFile _ _ _ := ⟨rfl, rfl, rfl, List.suffix_rfl, List.suffix_cons _ _⟩
  symbol _ _ _ _ := .of_scopes rfl rfl
  strings _ _ := .of_scopes rfl rfl
  locals _ _ := .of_scopes rfl rfl
  staticLocals _ _ := .of_scopes rfl rfl
  global _ _ _ := .of_scopes rfl rfl
  block := .block
  loop := .loop
  forget _ _ := .of_scopes rfl rfl

/-- Where a run that succeeds leads from states of a kind. -/
def Leads {α : Type} (P : ParserState → Prop) (p : Parser α) (Q : ParserState → Prop) : Prop :=
  ∀ s a t, P s → p s = .ok a t → Q t

section

variable {α β : Type} {p : Parser α} {f : α → Parser β} {P Q I : ParserState → Prop} {n : Nat}

namespace Leads

theorem pure {a : α} : Leads P (Pure.pure a : Parser α) P := by
  rintro s a t holds ⟨⟩
  exact holds

theorem throw {e : SourceFault} : Leads P (MonadExcept.throw e : Parser α) Q := nofun

theorem bind (h : Leads P p I) (hf : ∀ a, Leads I (f a) Q) : Leads P (p >>= f) Q := by
  intro s b u holds run
  obtain ⟨a, t, first, second⟩ := bind_eq_ok run
  exact hf a t b u (h s a t holds first) second

theorem ite {c : Prop} [Decidable c] {p q : Parser α} (hp : c → Leads P p Q)
    (hq : ¬c → Leads P q Q) : Leads P (if c then p else q) Q := by
  split
  case isTrue hc => exact hp hc
  case isFalse hc => exact hq hc

theorem guard {c : Prop} [Decidable c] {loc : Location} {e : SemanticError} {k : Parser β}
    {f : α → Parser β} (h : ¬c → Leads P k Q) :
    Leads P (if c then refuse loc e >>= f else k) Q :=
  ite (fun _ => nofun) h

theorem modify {f : ParserState → ParserState} (h : ∀ s, P s → Q (f s)) :
    Leads P (modify f) Q := by
  rintro s a t holds ⟨⟩
  exact h s holds

/-- What comes back keeps the depth. -/
theorem returns (h : Moves returns_transition.toTransition p) : Leads (AtDepth n) p (AtDepth n) := by
  intro s a t depth run
  have moved := h s
  rw [run] at moved
  exact depth.returns moved.1.2

/-- Nothing is known of a state in which a run fails. -/
theorem tryCatch {handler : SourceFault → Parser α} (h : Leads P p Q)
    (hh : ∀ e, Leads (fun _ => True) (handler e) Q) : Leads P (tryCatch p handler) Q := by
  intro s a t holds run
  rw [tryCatch_run] at run
  cases result : p s with
  | ok b u =>
      rw [result] at run
      cases run
      exact h s a t holds result
  | error e u =>
      rw [result] at run
      exact hh e u a t trivial run

theorem iterate {step : β → Parser (ForInStep β)} (h : ∀ b, Leads P (step b) P) (b : β) :
    Leads P (iterate step b) P := by
  intro s c t holds run
  fun_induction Parser.iterate step b s with
  | case1 => cases run
  | case2 b s c' t' round | case4 b s c' t' round =>
      cases run
      exact h b s _ _ holds round
  | case3 b s c' t' round _ ih => exact ih (h b s _ _ holds round) run

end Leads
end

/-! ### File scope -/

variable {g : Productions} (moving : g.Moving returns_transition.toTransition)
include moving

theorem functionDefinition_leads (spec : DeclSpec) (d : Declarator) (signature : Signature) :
    Leads (AtDepth 0) (functionDefinition g spec d signature) (AtDepth 0) := by
  have looked {n : Nat} (name : String) : Leads (AtDepth n) (findSymbol? name) (AtDepth n) :=
    .returns (Keeps.get.skip fun _ => .done)
  unfold functionDefinition
  split
  case h_1 => exact .bind (.returns loc_moves) fun _ => .bind (.returns peek_moves) fun _ => .throw
  case h_2 name loc _ =>
    refine .ite (fun _ => nofun) fun _ => .guard fun _ => .guard fun _ => .bind (looked name) fun _ =>
      .guard fun _ => .bind (.returns (declareFunction_moves _ _ _ _)) fun _ => ?_
    refine .bind (looked name) fun old => .bind (I := AtDepth 0) ?_ fun _ =>
      .bind (.returns (bindFile_moves _ _)) fun _ => ?_
    · exact .modify fun s depth => ⟨depth.blocks, depth.loopDepth⟩
    refine .bind (I := AtDepth 1) (.modify fun s depth => ⟨congrArg Nat.succ depth.blocks,
      depth.loopDepth⟩) fun _ => ?_
    refine .bind (.returns (bindParameters_moves returns_transition _)) fun _ => .bind (.returns (expect_moves _))
      fun _ => .bind (.returns (blockItems_moves moving)) fun body => ?_
    refine .modify fun s depth => ⟨?_, depth.loopDepth⟩
    exact (List.length_tail ..).trans (congrArg Nat.pred depth.blocks)

theorem fileDeclaratorStep_leads (spec : DeclSpec) (first : Bool) :
    Leads (AtDepth 0) (fileDeclaratorStep g spec first) (AtDepth 0) := by
  refine .bind (.returns (moving.declarator _ false)) fun d => .bind (.returns skipAttributes_moves)
    fun _ => .bind (.returns (check_moves _)) fun body => ?_
  have declare : Leads (AtDepth 0) (do
      fileDeclaration g spec d
      if ← eat .comma then return ForInStep.yield false
      else
        expect .semicolon
        return ForInStep.done false) (AtDepth 0) :=
    .bind (.returns (fileDeclaration_moves returns_transition moving spec d)) fun _ => .bind (.returns (eat_moves _))
      fun _ => .ite (fun _ => .pure) fun _ => .bind (.returns (expect_moves _)) fun _ => .pure
  dsimp only
  split
  case h_1 signature _ =>
    refine .ite (fun _ => ?_) fun _ => declare
    exact .bind (functionDefinition_leads moving spec d signature) fun _ => .pure
  case h_2 => exact declare

/-- A declaration at file scope that is accepted leaves the parser there. -/
theorem externalDeclaration_leads : Leads (AtDepth 0) (externalDeclaration g) (AtDepth 0) := by
  refine .bind (.returns (eat_moves _)) fun _ => .ite (fun _ => .pure) fun _ => ?_
  refine .bind (.returns declSpecifiers_moves) fun spec => .bind (.returns (eat_moves _)) fun _ =>
    .ite (fun _ => .pure) fun _ => ?_
  exact .bind (.iterate (fileDeclaratorStep_leads moving spec) true) fun _ => .pure

/-- The functions and loops that an error is in are left. -/
theorem unitStep_leads (u : Unit) : Leads (AtDepth 0) (unitStep g u) (AtDepth 0) := by
  refine .bind (.returns atEnd_moves) fun _ => .ite (fun _ => .pure) fun _ => ?_
  refine .bind (.tryCatch (externalDeclaration_leads moving) fun e => ?_) fun _ => .pure
  refine .bind (I := AtDepth 0) (.modify fun s _ => ⟨rfl, rfl⟩) fun _ => .returns (recover_moves false e)

end Parser
end LiveC

/-! ## Ends of runs -/

namespace LiveC

open LiveC.Parser

/-- The rounds of every loop of the parser end by themselves. Where a production comes to its loop,
it gives what the rounds give. -/
structure Productions.LoopsEnd (g : Productions) : Prop where
  attributes (s : ParserState) : Repeats attributeStep () s (skipAttributes s)
  qualifiers (s : ParserState) : Repeats qualifierStep () s (pointerQualifiers s)
  pointers (base : CType) (s : ParserState) : Repeats pointerStep base s (pointers base s)
  specifiers (read : Specifiers) (s : ParserState) :
    Repeats specifier read s (iterate specifier read s)
  strings (bytes : List UInt8) (s : ParserState) :
    Repeats stringStep bytes s (adjacentStrings bytes s)
  commas {s t : ParserState} {e : Expr} : g.assignment s = .ok e t →
    Repeats (commaStep g) e t (expression g s)
  operators {n : Nat} {s t : ParserState} {e : Expr} : binary g n s = .ok e t →
    Repeats (binaryStep g n) e t (binary g (n + 1) s)
  postfixes {s t : ParserState} {e : Expr} : primary g s = .ok e t →
    Repeats (postfixStep g) e t (postfixed g s)
  arguments {s t : ParserState} : eat .rparen s = .ok false t →
    Repeats (argumentStep g) [] t (arguments g s)
  parameters (l : ParamList) (s : ParserState) :
    Repeats (parameter g) l s (iterate (parameter g) l s)
  staticElements (element : CType) (length : Option Nat) (offset : Nat) (s : ParserState) :
    Repeats (elementStep (fun i => return (← g.staticInit element (offset + i * element.size)).2)
      length) (0, []) s (elements (fun i => return (← g.staticInit element
        (offset + i * element.size)).2) length s)
  localElements (element : CType) (length : Option Nat) (offset : Nat) (s : ParserState) :
    Repeats (elementStep (fun i => return (← g.localInit element (offset + i * element.size)).2)
      length) (0, []) s (elements (fun i => return (← g.localInit element
        (offset + i * element.size)).2) length s)
  blockDeclarators {s t u : ParserState} {spec : DeclSpec} : declSpecifiers s = .ok spec t →
    eat .semicolon t = .ok false u →
      Repeats (blockDeclaratorStep g spec) [] u (blockDeclaration g s)
  blockItems (s : ParserState) : ∃ r, Repeats (blockStep g) [] s r ∧
    blockItems g s = match r with
      | .ok stmts t => (do
          expect .rbrace
          return stmts : Parser (List Stmt)) t
      | .error e t => .error e t
  fileDeclarators {s t u v : ParserState} {spec : DeclSpec} : eat .semicolon s = .ok false t →
    declSpecifiers t = .ok spec u → eat .semicolon u = .ok false v →
      ∃ r, Repeats (fileDeclaratorStep g spec) true v r ∧
        externalDeclaration g s = match r with
          | .ok _ w => .ok () w
          | .error e w => .error e w
  declarations (s : ParserState) : Repeats (unitStep g) () s (translationUnit g s)

/-- An error is recorded by the loop that it is in, which goes on behind it. A block goes on up to
its closing brace or the end of input, and a source up to the end. -/
structure Productions.Recovers (g : Productions) : Prop where
  /-- A round of a block fails at the end of input only. -/
  block (stmts : List Stmt) (s : ParserState) : s.rest = [] ∨
    s.front.kind = .punct .rbrace ∧ blockStep g stmts s = .ok (.done stmts) s ∨
      ∃ more t, blockStep g stmts s = .ok (.yield (stmts ++ more)) t ∧
        t.rest.length < s.rest.length
  /-- No round of a source fails. -/
  source (s : ParserState) : s.rest = [] ∧ unitStep g () s = .ok (.done ()) s ∨
    ∃ t, unitStep g () s = .ok (.yield ()) t ∧ t.rest.length < s.rest.length
  ends (s : ParserState) : ∃ t, translationUnit g s = .ok () t ∧ t.rest = []

/-- Where a parenthesis opens a declarator, what is inside of it is read when the suffixes
behind it have been. -/
structure Productions.Backtracks (g : Productions) : Prop where
  unbalanced {s : ParserState} (base : CType) (abstract : Bool) :
    behindClose? 1 s.rest.tail = none →
      nestedDeclarator g base abstract s =
        .error (.form s.endLoc .unbalancedDeclarator) { s with rest := [] }
  suffixes {s t : ParserState} {opening : Token} {inside outside : List Token} {e : SourceFault}
    (base : CType) (abstract : Bool) : s.rest = opening :: (inside ++ outside) →
      behindClose? 1 inside = some [] → g.suffixes base { s with rest := outside } = .error e t →
        nestedDeclarator g base abstract s = .error e t
  /-- The part inside is read as if nothing followed on its closing parenthesis. When it is
  accepted all of it has been read, and the parser goes on behind the suffixes. -/
  inside {s t : ParserState} {opening : Token} {inside outside : List Token} {outer : CType}
    {params : Option (List Param)} (base : CType) (abstract : Bool) :
    s.rest = opening :: (inside ++ outside) → behindClose? 1 inside = some [] →
      g.suffixes base { s with rest := outside } = .ok (outer, params) t →
        match (do
          let d ← g.declarator outer abstract
          expect .rparen
          return d : Parser Declarator) { t with rest := inside } with
        | .ok d u => u.rest = [] ∧
            nestedDeclarator g base abstract s = .ok d { u with rest := t.rest }
        | .error e u => u.rest <:+ inside ∧
            nestedDeclarator g base abstract s = .error e (u.followedBy outside)

/-- A run leaves the blocks and loops that it enters. All items of a block are read with the same
number of levels of nesting left, and so are all declarations of a source. -/
structure Productions.Restores (g : Productions) : Prop where
  block {stmts more : List Stmt} {s t : ParserState} :
    Rounds (blockStep g) stmts s more t → s.Returns t
  failed {s t : ParserState} {e : SourceFault} : item g s = .error e t → s.Returns t
  recovered {s t : ParserState} {stmts : List Stmt} : blockItem g s = .ok stmts t → s.Returns t
  source {s t : ParserState} : Rounds (unitStep g) () s () t → s.AtDepth 0 → t.AtDepth 0

namespace Parser

variable {g : Productions}

/-! ### Loops -/

/-- A block is read by its loop and the closing brace. -/
theorem blockItems_run (g : Productions) (s : ParserState) :
    blockItems g s = match iterate (blockStep g) [] s with
      | .ok stmts t => (do
          expect .rbrace
          return stmts : Parser (List Stmt)) t
      | .error e t => .error e t := by
  have run := bind_run (iterate (blockStep g) []) (fun stmts => do
    expect .rbrace
    return stmts) s
  cases rounds : iterate (blockStep g) [] s with
  | ok stmts t | error e t =>
      rw [rounds] at run
      exact run

/-- The declarators behind the specifiers are read by a loop. -/
theorem externalDeclaration_run {s t u v : ParserState} {spec : DeclSpec}
    (first : eat .semicolon s = .ok false t) (read : declSpecifiers t = .ok spec u)
    (more : eat .semicolon u = .ok false v) :
    externalDeclaration g s = match iterate (fileDeclaratorStep g spec) true v with
      | .ok _ w => .ok () w
      | .error e w => .error e w := by
  have one : externalDeclaration g s = (declSpecifiers >>= fun spec => eat .semicolon >>= fun eaten =>
      if eaten then pure () else do
        let _ ← (iterate (fileDeclaratorStep g spec) true : Parser Bool)
        pure ()) t := bind_ok first
  rw [one, bind_ok read, bind_ok more]
  have run := bind_run (iterate (fileDeclaratorStep g spec) true) (fun _ => pure ()) v
  cases rounds : iterate (fileDeclaratorStep g spec) true v with
  | ok last w | error e w =>
      rw [rounds] at run
      exact run

theorem statement_spends_productions (n : Nat) {s : ParserState} :
    Spends (fun _ => True) (productions n).statement s := by
  cases n with
  | zero => exact .skip loc_moves fun _ _ _ => nofun
  | succ n => exact statement_spends (productions_moving n)

theorem loopsEnd (moving : g.Moving anywhere.toTransition)
    (statement : ∀ {s}, Spends (fun _ => True) g.statement s) : g.LoopsEnd := by
  have elements {ι : Type} {element : Nat → Parser (List ι)} (h : ∀ i, Forward (element i))
      (length : Option Nat) (s : ParserState) :
      Repeats (elementStep element length) (0, []) s (elements element length s) :=
    repeats_iterate (fun read _ => elementStep_spends h length read) _ s
  have specified (read : Specifiers) (s : ParserState) : Spends GoesOn (specifier read) s := by
    refine fun r t run goesOn => specifier_spends read r t run ?_
    rintro rfl
    exact goesOn
  exact {
    attributes := repeats_iterate (fun u _ => attributeStep_spends u) ()
    qualifiers := repeats_iterate (fun u _ => qualifierStep_spends u) ()
    pointers := repeats_iterate fun ty _ => pointerStep_spends ty
    specifiers := repeats_iterate specified
    strings := repeats_iterate fun bytes _ => stringStep_spends bytes
    commas := fun {s t e} run => by
      have behind : expression g s = iterate (commaStep g) e t := bind_ok run
      rw [behind]
      exact repeats_iterate (fun l _ => commaStep_spends moving l) e t
    operators := fun {m s t e} run => by
      have behind : binary g (m + 1) s = iterate (binaryStep g m) e t := bind_ok run
      rw [behind]
      exact repeats_iterate (fun l _ => binaryStep_spends moving m l) e t
    postfixes := fun {s t e} run => by
      have behind : postfixed g s = iterate (postfixStep g) e t := bind_ok run
      rw [behind]
      exact repeats_iterate (fun l _ => postfixStep_spends moving l) e t
    arguments := fun {s t} run => by
      have behind : arguments g s = iterate (argumentStep g) [] t := bind_ok run
      rw [behind]
      exact repeats_iterate (fun l _ => argumentStep_spends moving l) [] t
    parameters := repeats_iterate fun l _ => parameter_spends moving l
    staticElements := fun element length offset =>
      elements (fun i => (moving.staticInit element _).skip fun _ => .done) length
    localElements := fun element length offset =>
      elements (fun i => (moving.localInit element _).skip fun _ => .done) length
    blockDeclarators := fun {s t u spec} read more => by
      have first : blockDeclaration g s = (eat .semicolon >>= fun eaten => if eaten then pure []
        else iterate (blockDeclaratorStep g spec) []) t := bind_ok read
      have behind : blockDeclaration g s = iterate (blockDeclaratorStep g spec) [] u :=
        first.trans (bind_ok more)
      rw [behind]
      exact repeats_iterate (fun l _ => blockDeclaratorStep_spends moving spec l) [] u
    blockItems := fun s =>
      ⟨_, repeats_iterate (fun l _ => blockStep_spends moving statement l) [] s, blockItems_run g s⟩
    fileDeclarators := fun {s t u v spec} first read more =>
      ⟨_, repeats_iterate (fun l _ => fileDeclaratorStep_spends moving spec l) true v,
        externalDeclaration_run first read more⟩
    declarations := repeats_iterate (fun u _ => unitStep_spends moving u) () }

/-! ### Recovery -/

/-- An item of a block never fails. -/
theorem blockItem_ok (g : Productions) (s : ParserState) :
    ∃ stmts t, blockItem g s = .ok stmts t := by
  have caught : blockItem g s = tryCatch (item g) (fun e => do
      recover true e
      return []) s := rfl
  rw [caught, tryCatch_run]
  cases item g s with
  | ok stmts t => exact ⟨stmts, t, rfl⟩
  | error e t => exact ⟨[], _, rfl⟩

/-- A declaration of a source that fails is left and skipped. -/
theorem unitStep_run (g : Productions) {s : ParserState} (rest : s.rest ≠ []) :
    ∃ t, unitStep g () s = .ok (.yield ()) t := by
  have caught : unitStep g () s = (tryCatch (externalDeclaration g) (fun e => do
      leaveFunction
      recover false e) >>= fun _ => pure (.yield ())) s := by
    change (if s.rest.isEmpty then _ else _ : Parser _) s = _
    rw [List.isEmpty_eq_false_iff.mpr rest]
    rfl
  rw [caught, bind_run, tryCatch_run]
  cases externalDeclaration g s with
  | ok u t | error e t => exact ⟨_, rfl⟩

theorem recovers (moving : g.Moving anywhere.toTransition)
    (statement : ∀ {s}, Spends (fun _ => True) g.statement s) : g.Recovers := by
  have block (stmts : List Stmt) (s : ParserState) : s.rest = [] ∨
      s.front.kind = .punct .rbrace ∧ blockStep g stmts s = .ok (.done stmts) s ∨
        ∃ more t, blockStep g stmts s = .ok (.yield (stmts ++ more)) t ∧
          t.rest.length < s.rest.length := by
    by_cases empty : s.rest = []
    · exact .inl empty
    refine .inr ?_
    by_cases closes : s.front.kind = .punct .rbrace
    · refine .inl ⟨closes, ?_⟩
      change (if s.front.kind == .punct .rbrace then _ else _ : Parser _) s = _
      rw [closes]
      rfl
    · refine .inr ?_
      obtain ⟨more, t, read⟩ := blockItem_ok g s
      refine ⟨more, t, ?_, blockItem_spends moving statement closes empty more t read trivial⟩
      change (if s.front.kind == .punct .rbrace then _ else _ : Parser _) s = _
      rw [beq_eq_false_iff_ne.mpr closes]
      change (if s.rest.isEmpty then _ else _ : Parser _) s = _
      rw [List.isEmpty_eq_false_iff.mpr empty]
      exact bind_ok read
  have source (s : ParserState) : s.rest = [] ∧ unitStep g () s = .ok (.done ()) s ∨
      ∃ t, unitStep g () s = .ok (.yield ()) t ∧ t.rest.length < s.rest.length := by
    by_cases empty : s.rest = []
    · refine .inl ⟨empty, ?_⟩
      change (if s.rest.isEmpty then _ else _ : Parser _) s = _
      rw [List.isEmpty_iff.mpr empty]
      rfl
    · obtain ⟨t, round⟩ := unitStep_run g empty
      exact .inr ⟨t, round, unitStep_spends moving () _ t round trivial⟩
  refine ⟨block, source, fun s => ?_⟩
  have rounds := repeats_iterate (fun u _ => unitStep_spends moving u) () s
  change ∃ t, iterate (unitStep g) () s = .ok () t ∧ t.rest = []
  generalize iterate (unitStep g) () s = r at rounds
  generalize () = u at rounds
  induction rounds with
  | @failed u s t e round =>
      obtain ⟨-, done⟩ | ⟨_, again, -⟩ := source s
      · cases done.symm.trans round
      · cases again.symm.trans round
  | @done u c s t round =>
      obtain ⟨empty, done⟩ | ⟨_, again, -⟩ := source s
      · cases done.symm.trans round
        exact ⟨s, rfl, empty⟩
      · cases again.symm.trans round
  | again _ _ _ ih => exact ih

/-! ### Declarators -/

/-- What a declarator does behind its suffixes, of which `inside` are the tokens in parentheses. -/
def insideDeclarator (g : Productions) (abstract : Bool) (inside : List Token) (outer : CType) :
    Parser Declarator := do
  let behind := (← get).rest
  modify fun s => { s with rest := inside }
  let d ← g.declarator outer abstract
  expect .rparen
  modify fun s => { s with rest := behind }
  return d

theorem nestedDeclarator_run (g : Productions) (base : CType) (abstract : Bool) (s : ParserState) :
    nestedDeclarator g base abstract s = (skipToClose .unbalancedDeclarator >>= fun _ =>
      g.suffixes base >>= fun r => insideDeclarator g abstract s.rest.tail r.1)
        { s with rest := s.rest.tail } := rfl

/-- What is inside of the parentheses is read as if nothing followed on them. -/
theorem insideDeclarator_run (staying : g.Staying) (abstract : Bool) (outer : CType)
    {inside : List Token} (closes : Closes 0 inside) (outside : List Token) (t : ParserState) :
    match (do
      let d ← g.declarator outer abstract
      expect .rparen
      return d : Parser Declarator) { t with rest := inside } with
    | .ok d u => u.rest = [] ∧
        insideDeclarator g abstract (inside ++ outside) outer t = .ok d { u with rest := t.rest }
    | .error e u => u.rest <:+ inside ∧
        insideDeclarator g abstract (inside ++ outside) outer t = .error e (u.followedBy outside) := by
  let read : Parser Declarator := do
    let d ← g.declarator outer abstract
    expect .rparen
    return d
  let start : ParserState := { t with rest := inside }
  have forward : Forward read :=
    (staying.moving.declarator _ _).skip fun _ => (expect_moves _).skip fun _ => .done
  have confined : Confined read start fun _ u => u.rest = [] :=
    (staying.declarator 0 outer abstract start closes).bind fun _ _ closes =>
      (expect_last closes).bind fun _ _ empty => .pure empty
  have whole : insideDeclarator g abstract (inside ++ outside) outer t = (read >>= fun d => do
      modify fun u => { u with rest := t.rest }
      return d) (start.followedBy outside) := by
    simp only [read, bind_assoc, pure_bind]
    rfl
  change match read start with
    | .ok d u => _
    | .error e u => _
  rw [whole, bind_run, confined.1 outside]
  cases result : read start with
  | ok d u => exact ⟨confined.2 d u result, rfl⟩
  | error e u => exact ⟨forward.suffix_of_error result, rfl⟩

theorem backtracks (staying : g.Staying) : g.Backtracks where
  unbalanced {s} base abstract unbalanced := by
    rw [nestedDeclarator_run, bind_run, skipToClose_none unbalanced]
  suffixes {s t opening inside outside e} base abstract rest closes failed := by
    have found := behindClose?_append closes outside
    rw [nestedDeclarator_run, rest, List.tail_cons, bind_run, skipToClose_some found]
    dsimp only
    rw [List.nil_append, bind_run, failed]
  inside {s t opening inside outside outer params} base abstract rest closes read := by
    have found := behindClose?_append closes outside
    have whole : nestedDeclarator g base abstract s =
        insideDeclarator g abstract (inside ++ outside) outer t := by
      rw [nestedDeclarator_run, rest, List.tail_cons, bind_run, skipToClose_some found]
      dsimp only
      rw [List.nil_append, bind_run, read]
    rw [whole]
    exact insideDeclarator_run staying abstract outer closes outside t

/-! ### Blocks -/

theorem restores (moving : g.Moving returns_transition.toTransition) : g.Restores := by
  have moved {α : Type} {p : Parser α} {s : ParserState} (h : Moves returns_transition.toTransition p) :
      (∀ a t, p s = .ok a t → s.Returns t) ∧ ∀ e t, p s = .error e t → s.Returns t := by
    have run := h s
    cases result : p s with
    | ok a t | error e t =>
        rw [result] at run
        refine ⟨?_, ?_⟩ <;> rintro _ _ ⟨⟩
        exact run.1.2
  exact {
    block := fun {stmts more s t} rounds => rounds.keep (I := s.Returns)
      (fun b u r v before round => before.trans ((moved (blockStep_moves moving b)).1 r v round))
      (.of_scopes rfl rfl)
    failed := fun {s t e} => (moved (item_moves moving)).2 e t
    recovered := fun {s t stmts} => (moved (blockItem_moves moving)).1 stmts t
    source := fun {s t} rounds => rounds.keep fun u s r t depth round =>
      unitStep_leads moving u s r t depth round }

/-! ### Levels of nesting -/

/-- With any number of levels of nesting left, parsing ends on every token list: the loops end by
themselves, errors are left behind, declarators do not look behind their parentheses, and blocks
and loops are left again. -/
theorem parsing_ends (n : Nat) : (productions n).LoopsEnd ∧ (productions n).Recovers ∧
    (productions n).Backtracks ∧ (productions n).Restores := by
  have statement {s : ParserState} : Spends (fun _ => True) (productions n).statement s :=
    statement_spends_productions n
  exact ⟨loopsEnd (productions_moving n) statement, recovers (productions_moving n) statement,
    backtracks (productions_staying n), restores (productions_moving n)⟩

end Parser
end LiveC
