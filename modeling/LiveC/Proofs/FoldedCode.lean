import LiveC.Proofs.ScannedTokens
import LiveC.Proofs.ConstantFolding
import LiveC.Proofs.LoweringTotal

/-!
Folding and code agree. The code of the nodes of a constant expression leaves the word in
`rax` that the parser folds the expression to, and whatever the parser builds from a source
contains only constants that are words of their types.
-/

namespace LiveC

/-! ### The code of constants -/

namespace Expr.IsConstant

variable {t : IntType} {e : Expr}

theorem wellTyped (h : IsConstant t e) : e.WellTyped .canonical :=
  h.nodes.mono fun _ node => ⟨CType.wellFormed_of_isArithmetic (CType.isArithmetic_of_isInteger node.1),
    node.2.1⟩

theorem isIntegral (h : IsConstant t e) : e.IsIntegral := by
  refine h.nodes.mono fun e node => ?_
  have double : e.ty.isDouble = false := by
    have integer := node.1
    cases ty : e.ty with
    | int => rfl
    | _ => simp [ty, CType.isInteger] at integer
  cases e with
  | call | callPointer => exact node.2.2
  | _ => exact double

theorem ready (h : IsConstant t e) : e.Ready 0 := by
  refine h.nodes.mono fun e node => ?_
  have bounded := valueBounded_of_isArithmetic (CType.isArithmetic_of_isInteger node.1)
  cases e with
  | int | unary | binary | compare | logic | cond | cast =>
      exact ⟨bounded, fun lvalue => absurd lvalue Bool.false_ne_true, trivial⟩
  | _ => exact node.2.2.elim

end Expr.IsConstant

namespace Lowering

variable {c : Context} {u f : Expr} {t : IntType}

theorem covers_canonical (c : Context) : c.Covers .canonical 0 :=
  ⟨fun _ _ absent => absent.elim, Nat.zero_le _⟩

variable {depth n n' : Nat} {code : UnitCode}

/-- The code of constants meets their value, whatever is behind it. -/
theorem meets_of_isConstant (h : Expr.IsConstant t u) (lowered : expr c depth u n = .ok (code, n'))
    (link : CodeTarget → Word) (start : Machine) {before : UnitCode}
    (fresh : ∀ l ∈ before.labels, l < n) (fits : 8 * u.pushes ≤ 2 ^ 64) (rest : UnitCode) :
    Meets link (before ++ (code ++ rest))
      ((c.surroundings link start (8 * u.pushes)).value u) start.memory ⟨code ++ rest, start⟩ rest
      (Leaves start (8 * u.pushes) [] u.ty) :=
  (simulated (fun _ _ canonical => canonical) h.wellTyped h.isIntegral).value lowered
    (placed_of_fresh lowered fresh link) (.init start fits) (Nat.le_of_eq (by simp))

/-- The code of the nodes either divides without a result, or leaves the folded word. -/
theorem rax_of_folds (h : Expr.Folds t u f) (lowered : expr c depth u n = .ok (code, n'))
    (link : CodeTarget → Word) (start : Machine) {before : UnitCode}
    (fresh : ∀ l ∈ before.labels, l < n) (fits : 8 * u.pushes ≤ 2 ^ 64) :
    (∀ rest, (unitCode link).Halts (before ++ (code ++ rest)) ⟨code ++ rest, start⟩
        (.fault .divide)) ∨
      ∀ rest, ∃ m,
        (unitCode link).Reaches (before ++ (code ++ rest)) ⟨code ++ rest, start⟩ ⟨rest, m⟩ ∧
          ∀ note v, f = .int note v → m.gp .rax = v := by
  obtain ⟨x, outcome, agrees⟩ := h.agree
  have meets := meets_of_isConstant h.unfolded lowered link start fresh fits
  unfold Meets at meets
  simp only [outcome _ start.memory] at meets
  cases agrees with
  | fault => exact .inl meets
  | @value a range same =>
      refine .inr fun rest => ?_
      obtain ⟨m, run, leaves⟩ := meets rest
      refine ⟨m, run, fun note v literal => ?_⟩
      subst literal
      rw [leaves.rax (by rw [h.unfolded.ty]; rfl), same.eq_ofInt h.folded.ty]

end Lowering

/-! ### Constants of a source -/

theorem canonical_eq {tokens : List Token} (bytes : AreBytes tokens) :
    canonical tokens = fun t v => t.wrap v = v :=
  funext₂ fun _ _ => propext ⟨fun h => h bytes, fun h _ => h⟩

theorem wellTyped_of_parseSource {source : String} {defines : List (String × String)}
    {unit : TranslationUnit} {ws : List Diagnostic}
    (h : parseSource source defines = .ok (unit, ws)) : unit.WellTyped fun t v => t.wrap v = v := by
  obtain ⟨tokens, p, scanned, parsed, rfl⟩ := scanned_of_parseSource h
  have result := parsed_of_parseTokens parsed
  rw [← canonical_eq scanned.areBytes]
  exact ⟨fun f member => (result.functions f member).typed,
    fun v member => (result.globals v member).typed⟩

/-- What a production hands on, also if it does not become part of the unit. -/
theorem wellTyped_of_keeps {σ : FunctionScope} {p : Parser Expr} {s s' : ParserState} {e : Expr}
    (keeps : Parser.Keeps σ.untracked.course True p (Expr.Parsed σ.untracked))
    (bytes : AreBytes σ.tokens) (valid : s.Valid σ) (within : σ.course.within s')
    (parsed : p s = .ok e s') : e.WellTyped (.ofLocals (fun t v => t.wrap v = v) σ.locals) := by
  have ends := keeps s
  rw [parsed] at ends
  rw [← canonical_eq bytes]
  exact (ends.2 ⟨within, fun _ _ _ _ => trivial⟩ trivial ⟨valid, False.elim, False.elim⟩).2.1

open Lowering in
/-- The parser folds every integer constant expression. The code of its nodes leaves in `rax`
the word of the literal that they are folded to, unless a division has no result. All constants of
integer types that the parser builds are words of their types: in a folded expression, in the unit
of a source, and in what the productions hand on. -/
theorem folding_agrees :
    (∀ (e : ConstantExpr) (ws : List SemanticNotice), ∃ folded ws',
      e.folded ws = .ok (folded, ws') ∧ folded.ty = e.unfolded.ty ∧
      folded.WellTyped .canonical ∧
      ∀ (c : Context) (depth n : Nat), ∃ code n',
        expr c depth e.unfolded n = .ok (code, n') ∧
        ∀ (link : CodeTarget → Word) (before : UnitCode) (start : Machine),
          (∀ l ∈ before.labels, l < n) → 8 * e.unfolded.pushes ≤ 2 ^ 64 →
          (∀ rest, (unitCode link).Halts (before ++ (code ++ rest)) ⟨code ++ rest, start⟩
            (.fault .divide)) ∨
          ∀ rest, ∃ m,
            (unitCode link).Reaches (before ++ (code ++ rest)) ⟨code ++ rest, start⟩ ⟨rest, m⟩ ∧
              ∀ note v, folded = .int note v → m.gp .rax = v) ∧
    (∀ source defines unit ws, parseSource source defines = .ok (unit, ws) →
      unit.WellTyped fun t v => t.wrap v = v) ∧
    ∀ (σ : FunctionScope) (nesting : Nat) (s s' : ParserState) (e : Expr), AreBytes σ.tokens →
      s.Valid σ → σ.course.within s' →
      let g := Parser.productions nesting
      ∀ p ∈ [g.assignment, g.conditional, g.cast, g.unary], p s = .ok e s' →
        e.WellTyped (.ofLocals (fun t v => t.wrap v = v) σ.locals) := by
  refine ⟨fun e ws => ?_, fun _ _ _ _ => wellTyped_of_parseSource,
    fun σ nesting s s' e bytes valid within p member => ?_⟩
  · obtain ⟨t, f, ws', built, folds⟩ := e.folds ws
    refine ⟨f, ws', built, folds.folded.ty.trans folds.unfolded.ty.symm, folds.folded.wellTyped,
      fun c depth n => ?_⟩
    obtain ⟨code, n', lowered⟩ := expr_succeeds (covers_canonical c)
      folds.unfolded.wellTyped folds.unfolded.ready depth n
    exact ⟨code, n', lowered, fun link before start fresh fits =>
      rax_of_folds folds lowered link start fresh fits⟩
  · have sound := Parser.productions_sound nesting
    simp only [List.mem_cons, List.not_mem_nil, or_false] at member
    rcases member with rfl | rfl | rfl | rfl
    · exact wellTyped_of_keeps sound.assignment bytes valid within
    · exact wellTyped_of_keeps sound.conditional bytes valid within
    · exact wellTyped_of_keeps sound.cast bytes valid within
    · exact wellTyped_of_keeps sound.unary bytes valid within

/-- Whether a production succeeded and has declared nothing. -/
def declaresNothing : EStateM.Result SourceFault ParserState Expr → Bool
  | .ok _ t => t.locals.isEmpty && t.current.isNone && t.unit.strings.isEmpty
  | .error .. => false

open Lowering in
/-- `(char)200 >> 1` is -28, `'a' + 300 / -7` is a constant of an object of a source, and an
expression of one token is parsed. -/
theorem narrowedShift_folds :
    let e : ConstantExpr := .binary (.arith .shr)
      (.cast .char (.literal .int ⟨200, rfl⟩ .start) .start) (.literal .int ⟨1, rfl⟩ .start) .start
    let c : Context := ⟨⟨[], [], []⟩, []⟩
    (∃ code n' m, e.folded [] = .ok (.int ⟨.int .int, .start⟩ (-28), []) ∧
      expr c 0 e.unfolded 0 = .ok (code, n') ∧
      (unitCode fun _ => 0).Reaches (code ++ []) ⟨code ++ [], .blank⟩ ⟨[], m⟩ ∧
      m.gp .rax = -28) ∧
    (∃ unit ws, parseSource "char c = 'a' + 300 / -7;" [] = .ok (unit, ws) ∧
      unit.globals.length = 1 ∧ unit.WellTyped fun t v => t.wrap v = v) ∧
    ∃ e s', (Parser.productions 40).conditional
        { rest := [⟨.int 5 false false true, .start⟩], endLoc := .start } = .ok e s' ∧
      e.WellTyped (.ofLocals (fun t v => t.wrap v = v) []) := by
  intro e c
  obtain ⟨expressions, units, productions⟩ := folding_agrees
  refine ⟨?_, ?_, ?_⟩
  · obtain ⟨folded, ws, built, -, -, lowering⟩ := expressions e []
    have literal : e.folded [] = .ok (.int ⟨.int .int, .start⟩ (-28), []) := rfl
    cases literal.symm.trans built
    obtain ⟨code, n', lowered, ends⟩ := lowering c 0 0
    have value : e.unfolded.Evaluates (.ok (-28)) := fun _ _ => rfl
    obtain ⟨t, f, ws, built', folds⟩ := e.folds []
    have meets := @meets_of_isConstant c _ _ 0 0 n' code folds.unfolded lowered (fun _ => 0) .blank
      [] (List.forall_mem_nil _) (by decide) []
    unfold Meets at meets
    rw [value] at meets
    obtain ⟨m, run, -⟩ := meets
    rcases ends (fun _ => 0) [] .blank (List.forall_mem_nil _) (by decide) with faults | reaches
    · cases (faults []).unique ⟨_, run, rfl⟩
    · obtain ⟨m, run, rax⟩ := reaches []
      exact ⟨code, n', m, rfl, lowered, run, rax _ _ rfl⟩
  · have accepted : (parseSource "char c = 'a' + 300 / -7;" []).toOption.any
        (fun r => r.1.globals.length = 1) = true := by
      rw [parseSource_of_bytes (Text.toByteChars_of_all ?_)]
      all_goals decide +kernel
    obtain ⟨r, parsed, one⟩ := exists_of_toOption_any accepted
    exact ⟨r.1, r.2, parsed, of_decide_eq_true one, units _ _ _ _ parsed⟩
  · let σ : FunctionScope := ⟨[⟨.int 5 false false true, .start⟩], 0, [], .int .int, 0⟩
    have accepted : declaresNothing ((Parser.productions 40).conditional
        { rest := σ.tokens, endLoc := .start }) = true := by decide +kernel
    cases parsed : (Parser.productions 40).conditional { rest := σ.tokens, endLoc := .start } with
    | error e t => simp [parsed, declaresNothing] at accepted
    | ok e t =>
        simp only [parsed, declaresNothing, Bool.and_eq_true, List.isEmpty_iff, Option.isNone_iff_eq_none] at accepted
        obtain ⟨⟨locals, current⟩, strings⟩ := accepted
        refine ⟨e, t, rfl, productions σ 40 _ _ _ (List.forall_mem_singleton.mpr trivial) ?_ ?_ _
          (.tail _ (.head _)) parsed⟩
        · exact ⟨List.suffix_refl _, List.forall_mem_singleton.mpr (List.forall_mem_nil _),
            List.forall_mem_nil _, List.forall_mem_nil _, ⟨trivial, trivial⟩, rfl,
            List.forall_mem_nil _, List.forall_mem_nil _⟩
        · exact ⟨locals ▸ List.prefix_refl _, by rw [ParserState.returnType, current]; rfl,
            strings ▸ Nat.le_refl _⟩

end LiveC
