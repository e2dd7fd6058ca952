import LiveC.Parser.Expression
import LiveC.Proofs.Constants

/-!
Integer constant expressions, as the parser folds them and as nodes that are left for the
code. Both have the same value wherever the nodes have one. A division that has no result
takes the value from the nodes, but from the folded form only if it is kept.
-/

namespace LiveC

/-- An integer constant expression as it is written. Constants of any integer type occur. -/
inductive ConstantExpr where
  | literal (t : IntType) (v : {v : Word // t.wrap v = v}) (loc : Location)
  | neg (e : ConstantExpr) (loc : Location)
  | bitNot (e : ConstantExpr) (loc : Location)
  | not (e : ConstantExpr) (loc : Location)
  | binary (op : Operator) (l r : ConstantExpr) (loc : Location)
  | cast (t : IntType) (e : ConstantExpr) (loc : Location)
  | cond (c t f : ConstantExpr) (loc : Location)

namespace Expr

/-- Converted by a node of its own, also if constant. -/
def converted (e : Expr) (target : CType) : Expr :=
  if e.ty = target then e else cast ⟨target, e.loc⟩ e

/-- The 0-or-1 form by a comparison, also if constant. -/
def tested (e : Expr) : Expr :=
  if e.isBoolean then e else compare ⟨.int .int, e.loc⟩ .ne e (zero ⟨e.ty, e.loc⟩)

end Expr

namespace ConstantExpr

/-- The expression as the parser types it. -/
def folded : ConstantExpr → Typing Expr
  | literal t v loc => return .int ⟨.int t, loc⟩ v
  | neg e loc => do (← e.folded).negation loc
  | bitNot e loc => do (← e.folded).complement loc
  | not e loc => do (← e.folded).logicalNot loc
  | binary op l r loc => do
    let l ← l.folded
    let r ← r.folded
    op.apply l r loc
  | cast t e loc => do (← e.folded).castTo (.int t) loc
  | cond c t f loc => do
    let c ← c.folded
    let t ← t.folded
    let f ← f.folded
    Expr.conditional c t f loc

/-- The nodes that the parser would build if it did not fold. -/
def unfolded : ConstantExpr → Expr
  | literal t v loc => .int ⟨.int t, loc⟩ v
  | neg e loc =>
    let ty := e.unfolded.ty.promote
    .unary ⟨ty, loc⟩ .neg (e.unfolded.converted ty)
  | bitNot e loc =>
    let ty := e.unfolded.ty.promote
    .unary ⟨ty, loc⟩ .bitNot (e.unfolded.converted ty)
  | not e loc => .compare ⟨.int .int, loc⟩ .eq e.unfolded (Expr.zero ⟨e.unfolded.ty, loc⟩)
  | binary (.arith op) l r loc =>
    let ty := Expr.operationType op l.unfolded.ty r.unfolded.ty
    .binary ⟨ty, loc⟩ op (l.unfolded.converted ty) (r.unfolded.converted ty)
  | binary (.compare op) l r loc =>
    let ty := CType.usualArithmetic l.unfolded.ty r.unfolded.ty
    .compare ⟨.int .int, loc⟩ op (l.unfolded.converted ty) (r.unfolded.converted ty)
  | binary (.logic op) l r loc =>
    .logic ⟨.int .int, loc⟩ op l.unfolded.tested r.unfolded.tested
  | cast t e loc => (e.unfolded.converted (.int t)).withLoc loc
  | cond c t f loc =>
    let ty := CType.usualArithmetic t.unfolded.ty f.unfolded.ty
    .cond ⟨ty, loc⟩ c.unfolded.tested (t.unfolded.converted ty) (f.unfolded.converted ty)

end ConstantExpr

namespace Expr

variable {t k : IntType} {e l r c u f u' f' : Expr} {n : Note} {loc : Location} {a b : Int} {v : Word}
  {x y z : Except Undefined Int}

/-- An outcome of a type, and the expression has it too unless it is a fault. -/
inductive Agrees (t : IntType) (e : Expr) : Except Undefined Int → Prop where
  | fault : Agrees t e (.error .division)
  | value {a : Int} (range : t.Represents a) (same : e.Evaluates (.ok a)) : Agrees t e (.ok a)

/-- A folded expression stands for nodes that are not: it has their value where they have
one. -/
structure Folds (t : IntType) (u f : Expr) : Prop where
  unfolded : IsConstant t u
  folded : IsConstant t f
  agree : ∃ x, u.Evaluates x ∧ Agrees t f x

/-! ### Conversions and operators -/

theorem IsConstant.converted (h : IsConstant t e) (k : IntType) : IsConstant k (e.converted (.int k)) := by
  unfold Expr.converted
  split
  case isTrue same => exact ⟨same, h.nodes⟩
  case isFalse => exact h.cast k

theorem converted_evaluates (h : IsConstant t e) (outcome : e.Evaluates x)
    (range : ∀ a, x = .ok a → t.Represents a) (k : IntType) :
    (e.converted (.int k)).Evaluates (do return k.reduce (← x)) := by
  unfold converted
  split
  case isFalse => exact outcome.cast
  case isTrue same =>
    obtain rfl := CType.int.inj (h.ty.symm.trans same)
    cases x with
    | error => exact outcome
    | ok a =>
        rw [← IntType.reduce_of_represents (range a rfl)] at outcome
        exact outcome

theorem Folds.convert (h : Folds t u f) (k : IntType) :
    Folds k (u.converted (.int k)) (f.convert (.int k)) := by
  obtain ⟨x, outcome, agrees⟩ := h.agree
  refine ⟨h.unfolded.converted k, h.folded.convert k, _,
    converted_evaluates h.unfolded outcome ?_ k, ?_⟩
  · rintro a rfl
    cases agrees
    assumption
  · cases agrees with
    | fault => exact .fault
    | value range same =>
        exact .value (IntType.represents_reduce k _) (convert_evaluates h.folded range same k)

theorem Folds.operation (hl : Folds t u f) (hr : Folds t u' f') (op : BinaryOp) (loc : Location) :
    Folds t (.binary ⟨.int t, loc⟩ op u u') (fold op f f' ⟨.int t, loc⟩) := by
  obtain ⟨x, outcomeL, agreesL⟩ := hl.agree
  obtain ⟨y, outcomeR, agreesR⟩ := hr.agree
  refine ⟨hl.unfolded.binary hr.unfolded op, fold_isConstant hl.folded hr.folded op loc, _,
    outcomeL.binary outcomeR op, ?_⟩
  cases agreesL with
  | fault => exact .fault
  | @value a rangeL sameL =>
      cases agreesR with
      | fault => exact .fault
      | @value b rangeR sameR =>
          simp only [Bind.bind, Except.bind]
          rcases apply_cases op a b with failed | ⟨d, result⟩
          · rw [failed]
            exact .fault
          · rw [result]
            exact .value (IntType.represents_reduce t d)
              (fold_evaluates hl.folded hr.folded rangeL rangeR sameL sameR result loc)

theorem Folds.comparison (hl : Folds t u f) (hr : Folds t u' f') (op : CompareOp)
    (loc : Location) : Folds .int (.compare ⟨.int .int, loc⟩ op u u') (compareNode op f f' loc) := by
  obtain ⟨x, outcomeL, agreesL⟩ := hl.agree
  obtain ⟨y, outcomeR, agreesR⟩ := hr.agree
  refine ⟨hl.unfolded.compare hr.unfolded op, compareNode_isConstant hl.folded hr.folded op loc, _,
    outcomeL.compare outcomeR op, ?_⟩
  cases agreesL with
  | fault => exact .fault
  | value rangeL sameL =>
      cases agreesR with
      | fault => exact .fault
      | value rangeR sameR =>
          exact .value (represents_ofBool _)
            (compareNode_evaluates hl.folded hr.folded rangeL rangeR sameL sameR op loc)

/-! ### Conditions -/

theorem tested_evaluates (h : IsConstant t e) (outcome : e.Evaluates x) :
    e.tested.Evaluates (do return if (← x) = 0 then 0 else 1) := by
  unfold tested
  split
  case isTrue boolean =>
    cases x with
    | error => exact outcome
    | ok a =>
        have truth := truth_of_zero_or_one (outcome.zero_or_one (isCondition_of_isBoolean boolean))
        simp only [Bind.bind, Except.bind, truth]
        exact outcome
  case isFalse =>
    rw [h.ty]
    have compared : (compare ⟨.int .int, e.loc⟩ .ne e (zero ⟨.int t, e.loc⟩)).Evaluates _ :=
      outcome.compare (zero_evaluates t e.loc) .ne
    cases x with
    | error => exact compared
    | ok a =>
        simp only [Bind.bind, Except.bind, holds_ne_zero] at compared
        exact compared

theorem tested_isConstant (h : IsConstant t e) : IsConstant .int e.tested := by
  unfold tested
  split
  case isTrue boolean => exact h.eq_int boolean ▸ h
  case isFalse => exact h.compare (h.ty ▸ zero_isConstant t e.loc) .ne

theorem isCondition_tested (e : Expr) : e.tested.IsCondition := by
  unfold tested
  split
  case isTrue boolean => exact isCondition_of_isBoolean boolean
  case isFalse => trivial

/-- The condition that the parser makes of a folded expression. -/
theorem Folds.condition (h : Folds t u f) (ws : List SemanticNotice) :
    ∃ c, f.condition ws = .ok (c, ws) ∧ Folds .int u.tested c ∧ c.IsCondition := by
  obtain ⟨x, outcome, agrees⟩ := h.agree
  have scalar : f.ty.isScalar = true := by
    rw [h.folded.ty]
    rfl
  have tested := tested_evaluates h.unfolded outcome
  unfold Expr.condition
  simp only [h.folded.rvalue, scalar, Bool.not_true, Bool.false_eq_true, if_false]
  by_cases boolean : f.isBoolean = true
  case pos =>
    have cond := isCondition_of_isBoolean boolean
    refine ⟨f, by rw [if_pos boolean]; rfl, ⟨tested_isConstant h.unfolded,
      h.folded.eq_int boolean ▸ h.folded, _, tested, ?_⟩, cond⟩
    cases agrees with
    | fault => exact .fault
    | value range same =>
        simp only [Bind.bind, Except.bind, truth_of_zero_or_one (same.zero_or_one cond)]
        exact .value (h.folded.eq_int boolean ▸ range) same
  case neg =>
    refine ⟨_, by rw [if_neg boolean]; rfl, ⟨tested_isConstant h.unfolded, ?_, _, tested, ?_⟩,
      isCondition_compareNode _ _ _ _⟩
    · exact compareNode_isConstant h.folded (h.folded.ty ▸ zero_isConstant t f.loc) _ _
    · cases agrees with
      | fault => exact .fault
      | value range same =>
          have compared := compareNode_evaluates h.folded (zero_isConstant t f.loc) range
            (represents_zero t) same (zero_evaluates t f.loc) .ne f.loc
          rw [holds_ne_zero] at compared
          rw [h.folded.ty]
          exact .value (represents_truth _) compared

/-- A logical operator that is left for the code. -/
theorem Folds.logic (hl : Folds .int u f) (hr : Folds .int u' f') (condL : u.IsCondition)
    (condR : u'.IsCondition) (condL' : f.IsCondition) (condR' : f'.IsCondition) (op : LogicOp)
    (loc : Location) : Folds .int (.logic ⟨.int .int, loc⟩ op u u') (.logic ⟨.int .int, loc⟩ op f f') := by
  obtain ⟨x, outcomeL, agreesL⟩ := hl.agree
  obtain ⟨y, outcomeR, agreesR⟩ := hr.agree
  refine ⟨hl.unfolded.logic hr.unfolded condL condR op, hl.folded.logic hr.folded condL' condR' op, ?_⟩
  cases agreesL with
  | fault => exact ⟨_, outcomeL.logic_error op _, .fault⟩
  | @value a rangeL sameL =>
      by_cases decided : op.Decided a
      · exact ⟨_, outcomeL.logic_decided decided _, .value (by cases op <;> decide)
          (sameL.logic_decided decided _)⟩
      · refine ⟨_, outcomeL.logic_undecided decided outcomeR, ?_⟩
        cases agreesR with
        | fault => exact .fault
        | @value b rangeR sameR =>
            exact .value (represents_truth b) (sameL.logic_undecided decided sameR)

/-- A logical operator on two constants. -/
theorem Folds.truth {m : Note} {w : Word} (hl : Folds .int u (.int n v)) (hr : Folds .int u' (.int m w))
    (condL : u.IsCondition) (condR : u'.IsCondition) (op : LogicOp) (loc : Location) :
    Folds .int (.logic ⟨.int .int, loc⟩ op u u')
      (.int ⟨.int .int, loc⟩ (Word.ofBool (op.apply (v != 0) (w != 0)))) := by
  obtain ⟨x, outcomeL, agreesL⟩ := hl.agree
  obtain ⟨y, outcomeR, agreesR⟩ := hr.agree
  refine ⟨hl.unfolded.logic hr.unfolded condL condR op, .int (wrap_ofBool _), ?_⟩
  cases agreesL with
  | fault => exact ⟨_, outcomeL.logic_error op _, .fault⟩
  | @value a rangeL sameL =>
      have left : (v != 0) = (a != 0) := by
        rw [sameL.eq_ofInt hl.folded.ty, ofInt_bne_zero rangeL]
      have literal (b : Bool) := ofBool_evaluates loc (op.apply (a != 0) b)
      rw [left]
      by_cases decided : op.Decided a
      · refine ⟨_, outcomeL.logic_decided decided _, .value (by cases op <;> decide) ?_⟩
        rw [← LogicOp.apply_decided decided (w != 0)]
        exact literal _
      · refine ⟨_, outcomeL.logic_undecided decided outcomeR, ?_⟩
        cases agreesR with
        | fault => exact .fault
        | @value b rangeR sameR =>
            have right : (w != 0) = (b != 0) := by
              rw [sameR.eq_ofInt hr.folded.ty, ofInt_bne_zero rangeR]
            refine .value (represents_truth b) ?_
            rw [right, ← LogicOp.apply_undecided decided b]
            exact literal _

theorem Folds.logical (hl : Folds t u f) (hr : Folds k u' f') (op : LogicOp) (loc : Location)
    (ws : List SemanticNotice) : ∃ g, f.logical op f' loc ws = .ok (g, ws) ∧
      Folds .int (.logic ⟨.int .int, loc⟩ op u.tested u'.tested) g := by
  obtain ⟨c, isC, foldsC, condC⟩ := hl.condition ws
  obtain ⟨d, isD, foldsD, condD⟩ := hr.condition ws
  have node := foldsC.logic foldsD (isCondition_tested u) (isCondition_tested u') condC condD op loc
  unfold Expr.logical
  rw [bind_of_ok isC, bind_of_ok isD]
  cases isV : c.intValue? with
  | none => exact ⟨_, rfl, node⟩
  | some v =>
      cases isW : d.intValue? with
      | none => exact ⟨_, rfl, node⟩
      | some w =>
          obtain ⟨n, rfl⟩ := eq_int_of_intValue? isV
          obtain ⟨m, rfl⟩ := eq_int_of_intValue? isW
          exact ⟨_, rfl, foldsC.truth foldsD (isCondition_tested u) (isCondition_tested u') op loc⟩

/-! ### The operators of the parser -/

theorem Folds.arithmetic (hl : Folds t u f) (hr : Folds k u' f') (op : BinaryOp) (loc : Location)
    (ws : List SemanticNotice) : ∃ j g ws', f.rvalue.arithmetic op f'.rvalue loc ws = .ok (g, ws') ∧
      operationType op u.ty u'.ty = .int j ∧
      Folds j (.binary ⟨.int j, loc⟩ op (u.converted (.int j)) (u'.converted (.int j))) g := by
  obtain ⟨j, ty⟩ := operationType_int op t k
  obtain ⟨ws', built⟩ := arithmetic_int hl.folded.ty hr.folded.ty op loc ws
  rw [hl.folded.ty, hr.folded.ty, ty] at built
  refine ⟨j, _, ws', ?_, ?_, (hl.convert j).operation (hr.convert j) op loc⟩
  · rw [hl.folded.rvalue, hr.folded.rvalue, built]
  · rw [hl.unfolded.ty, hr.unfolded.ty, ty]

theorem Folds.compared (hl : Folds t u f) (hr : Folds k u' f') (op : CompareOp) (loc : Location)
    (ws : List SemanticNotice) : ∃ j g, f.rvalue.comparison op f'.rvalue loc ws = .ok (g, ws) ∧
      CType.usualArithmetic u.ty u'.ty = .int j ∧
      Folds .int (.compare ⟨.int .int, loc⟩ op (u.converted (.int j)) (u'.converted (.int j))) g := by
  obtain ⟨j, ty⟩ := usualArithmetic_int t k
  refine ⟨j, _, ?_, by rw [hl.unfolded.ty, hr.unfolded.ty, ty],
    (hl.convert j).comparison (hr.convert j) op loc⟩
  unfold Expr.comparison
  rw [hl.folded.rvalue, hr.folded.rvalue, hl.folded.ty, hr.folded.ty, ty]
  rfl

/-- The operand of a sign or complement is promoted. -/
theorem Folds.promoted (h : Folds t u f) (op : Punct) (valid : CType → Bool)
    (accepted : valid (.int t) = true) (loc : Location) (ws : List SemanticNotice) :
    ∃ k g, promotedOperand op valid f loc ws = .ok (g, ws) ∧ u.ty.promote = .int k ∧
      Folds k (u.converted (.int k)) g := by
  obtain ⟨k, ty⟩ := promote_int t
  refine ⟨k, _, ?_, by rw [h.unfolded.ty, ty], h.convert k⟩
  unfold promotedOperand
  simp only [h.folded.rvalue, h.folded.ty, accepted, if_true, ty]
  rfl

/-- A sign or complement that is left for the code. -/
theorem Folds.unary (h : Folds t u f) (op : UnaryOp) (loc : Location) :
    Folds t (.unary ⟨.int t, loc⟩ op u) (.unary ⟨.int t, loc⟩ op f) := by
  obtain ⟨x, outcome, agrees⟩ := h.agree
  refine ⟨h.unfolded.unary op, h.folded.unary op, _, outcome.unary op, ?_⟩
  cases agrees with
  | fault => exact .fault
  | value range same => exact .value (IntType.represents_reduce t _) (same.unary op)

/-- A sign or complement of a constant. -/
theorem Folds.unaryWord (h : Folds t u (.int n v)) (op : UnaryOp) (loc : Location) {w : Word}
    (word : ∀ a, v = BitVec.ofInt 64 a → t.wrap w = BitVec.ofInt 64 (t.reduce (op.apply a))) :
    Folds t (.unary ⟨.int t, loc⟩ op u) (.int ⟨.int t, loc⟩ (t.wrap w)) := by
  obtain ⟨x, outcome, agrees⟩ := h.agree
  refine ⟨h.unfolded.unary op, .int (IntType.wrap_wrap t w), _, outcome.unary op, ?_⟩
  cases agrees with
  | fault => exact .fault
  | @value a range same =>
      rw [word a (same.eq_ofInt h.folded.ty)]
      have reduced := IntType.represents_reduce t (op.apply a)
      exact .value reduced (.ofInt _ rfl reduced)

theorem Folds.negation (h : Folds t u f) (loc : Location) (ws : List SemanticNotice) :
    ∃ k g, f.negation loc ws = .ok (g, ws) ∧ u.ty.promote = .int k ∧
      Folds k (.unary ⟨.int k, loc⟩ .neg (u.converted (.int k))) g := by
  obtain ⟨k, e, built, ty, folds⟩ := h.promoted .minus CType.isArithmetic rfl loc ws
  unfold Expr.negation
  rw [bind_of_ok built, folds.folded.ty]
  cases e with
  | int n v =>
      refine ⟨k, _, rfl, ty, folds.unaryWord .neg loc fun a word => ?_⟩
      rw [word, UnaryOp.wrap_neg]
  | float => exact folds.folded.nodes.here.2.2.elim
  | _ => exact ⟨k, _, rfl, ty, folds.unary .neg loc⟩

theorem Folds.complement (h : Folds t u f) (loc : Location) (ws : List SemanticNotice) :
    ∃ k g, f.complement loc ws = .ok (g, ws) ∧ u.ty.promote = .int k ∧
      Folds k (.unary ⟨.int k, loc⟩ .bitNot (u.converted (.int k))) g := by
  obtain ⟨k, e, built, ty, folds⟩ := h.promoted .tilde CType.isInteger rfl loc ws
  unfold Expr.complement
  rw [bind_of_ok built, folds.folded.ty]
  cases e with
  | int n v =>
      refine ⟨k, _, rfl, ty, folds.unaryWord .bitNot loc fun a word => ?_⟩
      rw [word, UnaryOp.wrap_bitNot]
  | _ => exact ⟨k, _, rfl, ty, folds.unary .bitNot loc⟩

theorem zero_folds (t : IntType) (loc : Location) :
    Folds t (zero ⟨.int t, loc⟩) (zero ⟨.int t, loc⟩) :=
  ⟨zero_isConstant t loc, zero_isConstant t loc, _, zero_evaluates t loc,
    .value (represents_zero t) (zero_evaluates t loc)⟩

theorem Folds.logicalNot (h : Folds t u f) (loc : Location) (ws : List SemanticNotice) :
    ∃ g, f.logicalNot loc ws = .ok (g, ws) ∧
      Folds .int (.compare ⟨.int .int, loc⟩ .eq u (zero ⟨u.ty, loc⟩)) g := by
  rw [h.unfolded.ty]
  refine ⟨_, ?_, h.comparison (zero_folds t loc) .eq loc⟩
  unfold Expr.logicalNot
  rw [h.folded.rvalue, h.folded.ty]
  rfl

theorem Folds.castTo (h : Folds t u f) (k : IntType) (loc : Location) (ws : List SemanticNotice) :
    ∃ g, f.castTo (.int k) loc ws = .ok (g, ws) ∧
      Folds k ((u.converted (.int k)).withLoc loc) g := by
  obtain ⟨unfolded, folded, x, outcome, agrees⟩ := h.convert k
  refine ⟨(f.convert (.int k)).withLoc loc, ?_, unfolded.withLoc loc, folded.withLoc loc, x,
    outcome.withLoc loc, ?_⟩
  · unfold Expr.castTo
    rw [h.folded.rvalue, h.folded.ty]
    rfl
  · cases agrees with
    | fault => exact .fault
    | value range same => exact .value range (same.withLoc loc)

/-- A conditional that is left for the code. -/
theorem Folds.cond (hc : Folds .int u f) (condU : u.IsCondition) (condF : f.IsCondition)
    {tu tf fu ff : Expr} (ht : Folds t tu tf) (hf : Folds t fu ff) (loc : Location) :
    Folds t (.cond ⟨.int t, loc⟩ u tu fu) (.cond ⟨.int t, loc⟩ f tf ff) := by
  refine ⟨hc.unfolded.cond condU ht.unfolded hf.unfolded,
    hc.folded.cond condF ht.folded hf.folded, ?_⟩
  obtain ⟨x, outcome, agrees⟩ := hc.agree
  cases agrees with
  | fault => exact ⟨_, outcome.cond_error _ _, .fault⟩
  | @value a range same =>
      by_cases zero : a = 0
      · subst zero
        obtain ⟨y, outcomeF, agreesF⟩ := hf.agree
        refine ⟨y, outcome.cond_skipped _ outcomeF, ?_⟩
        cases agreesF with
        | fault => exact .fault
        | value rangeF sameF => exact .value rangeF (same.cond_skipped _ sameF)
      · obtain ⟨y, outcomeT, agreesT⟩ := ht.agree
        refine ⟨y, outcome.cond_taken zero outcomeT _, ?_⟩
        cases agreesT with
        | fault => exact .fault
        | value rangeT sameT => exact .value rangeT (same.cond_taken zero sameT _)

/-- A constant condition selects an arm. -/
theorem Folds.select (hc : Folds .int u (.int n v)) (cond : u.IsCondition) {tu tf fu ff : Expr}
    (ht : Folds t tu tf) (hf : Folds t fu ff) (loc : Location) :
    Folds t (.cond ⟨.int t, loc⟩ u tu fu) (if v != 0 then tf else ff) := by
  refine ⟨hc.unfolded.cond cond ht.unfolded hf.unfolded, ?_, ?_⟩
  · split
    · exact ht.folded
    · exact hf.folded
  obtain ⟨x, outcome, agrees⟩ := hc.agree
  cases agrees with
  | fault => exact ⟨_, outcome.cond_error _ _, .fault⟩
  | @value a range same =>
      rw [same.eq_ofInt hc.folded.ty, ofInt_bne_zero range]
      by_cases zero : a = 0
      · subst zero
        obtain ⟨y, outcomeF, agreesF⟩ := hf.agree
        exact ⟨y, outcome.cond_skipped _ outcomeF, agreesF⟩
      · obtain ⟨y, outcomeT, agreesT⟩ := ht.agree
        rw [if_pos (bne_iff_ne.mpr zero)]
        exact ⟨y, outcome.cond_taken zero outcomeT _, agreesT⟩

theorem Folds.conditional (hc : Folds j u f) {tu tf fu ff : Expr} (ht : Folds t tu tf)
    (hf : Folds k fu ff) (loc : Location) (ws : List SemanticNotice) :
    ∃ i g, f.conditional tf ff loc ws = .ok (g, ws) ∧
      CType.usualArithmetic tu.ty fu.ty = .int i ∧
      Folds i (.cond ⟨.int i, loc⟩ u.tested (tu.converted (.int i)) (fu.converted (.int i))) g := by
  obtain ⟨i, ty⟩ := usualArithmetic_int t k
  obtain ⟨c, isC, foldsC, condC⟩ := hc.condition ws
  have arms : armsType tf ff loc ws = .ok (.int i, ws) := by
    unfold armsType
    rw [ht.folded.ty, hf.folded.ty, ty]
    rfl
  have condU := isCondition_tested u
  have node := foldsC.cond condU condC (ht.convert i) (hf.convert i) loc
  suffices ∃ g, f.conditional tf ff loc ws = .ok (g, ws) ∧ Folds i (.cond ⟨.int i, loc⟩ u.tested
      (tu.converted (.int i)) (fu.converted (.int i))) g by
    obtain ⟨g, built, folds⟩ := this
    exact ⟨i, g, built, by rw [ht.unfolded.ty, hf.unfolded.ty, ty], folds⟩
  unfold Expr.conditional
  rw [bind_of_ok isC, ht.folded.rvalue, hf.folded.rvalue, bind_of_ok arms]
  cases isV : c.intValue? with
  | none => exact ⟨_, rfl, node⟩
  | some v =>
      obtain ⟨n, rfl⟩ := eq_int_of_intValue? isV
      exact ⟨_, rfl, foldsC.select condU (ht.convert i) (hf.convert i) loc⟩

theorem Folds.literal (h : t.wrap v = v) (loc : Location) :
    Folds t (.int ⟨.int t, loc⟩ v) (.int ⟨.int t, loc⟩ v) :=
  ⟨.int h, .int h, _, .int _ rfl v, .value (IntType.represents_value h) (.int _ rfl v)⟩

/-- Operands of any integer types, combined by an operator of any kind. -/
theorem Folds.apply {l r : ConstantExpr} (hl : Folds t l.unfolded f) (hr : Folds k r.unfolded f')
    (op : Operator) (loc : Location) (ws : List SemanticNotice) :
    ∃ j g ws', op.apply f f' loc ws = .ok (g, ws') ∧
      Folds j (ConstantExpr.binary op l r loc).unfolded g := by
  cases op with
  | arith op =>
      obtain ⟨j, g, ws', built, ty, folds⟩ := hl.arithmetic hr op loc ws
      refine ⟨j, g, ws', built, ?_⟩
      simp only [ConstantExpr.unfolded, ty]
      exact folds
  | compare op =>
      obtain ⟨j, g, built, ty, folds⟩ := hl.compared hr op loc ws
      refine ⟨.int, g, ws, built, ?_⟩
      simp only [ConstantExpr.unfolded, ty]
      exact folds
  | logic op =>
      obtain ⟨g, built, folds⟩ := hl.logical hr op loc ws
      exact ⟨.int, g, ws, built, folds⟩

end Expr

/-- Every constant expression is folded, and stands for its nodes then. -/
theorem ConstantExpr.folds (e : ConstantExpr) : ∀ ws, ∃ t f ws',
    e.folded ws = .ok (f, ws') ∧ Expr.Folds t e.unfolded f := by
  induction e with
  | literal t v loc => exact fun ws => ⟨t, _, ws, rfl, .literal v.2 loc⟩
  | neg e loc ih =>
      intro ws
      obtain ⟨t, f, ws, built, folds⟩ := ih ws
      obtain ⟨k, g, built', ty, folds'⟩ := folds.negation loc ws
      refine ⟨k, g, ws, (bind_of_ok built).trans built', ?_⟩
      simp only [unfolded, ty]
      exact folds'
  | bitNot e loc ih =>
      intro ws
      obtain ⟨t, f, ws, built, folds⟩ := ih ws
      obtain ⟨k, g, built', ty, folds'⟩ := folds.complement loc ws
      refine ⟨k, g, ws, (bind_of_ok built).trans built', ?_⟩
      simp only [unfolded, ty]
      exact folds'
  | not e loc ih =>
      intro ws
      obtain ⟨t, f, ws, built, folds⟩ := ih ws
      obtain ⟨g, built', folds'⟩ := folds.logicalNot loc ws
      exact ⟨.int, g, ws, (bind_of_ok built).trans built', folds'⟩
  | binary op l r loc ihl ihr =>
      intro ws
      obtain ⟨t, f, ws, builtL, foldsL⟩ := ihl ws
      obtain ⟨k, f', ws, builtR, foldsR⟩ := ihr ws
      obtain ⟨j, g, ws', built, folds⟩ := foldsL.apply foldsR op loc ws
      exact ⟨j, g, ws', (bind_of_ok builtL).trans ((bind_of_ok builtR).trans built), folds⟩
  | cast k e loc ih =>
      intro ws
      obtain ⟨t, f, ws, built, folds⟩ := ih ws
      obtain ⟨g, built', folds'⟩ := folds.castTo k loc ws
      exact ⟨k, g, ws, (bind_of_ok built).trans built', folds'⟩
  | cond c l r loc ihc ihl ihr =>
      intro ws
      obtain ⟨t, f, ws, builtC, foldsC⟩ := ihc ws
      obtain ⟨k, fl, ws, builtL, foldsL⟩ := ihl ws
      obtain ⟨j, fr, ws, builtR, foldsR⟩ := ihr ws
      obtain ⟨i, g, built, ty, folds⟩ := foldsC.conditional foldsL foldsR loc ws
      refine ⟨i, g, ws, (bind_of_ok builtC).trans ((bind_of_ok builtL).trans
        ((bind_of_ok builtR).trans built)), ?_⟩
      simp only [unfolded, ty]
      exact folds

end LiveC
