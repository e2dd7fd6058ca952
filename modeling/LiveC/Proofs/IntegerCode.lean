import LiveC.Proofs.ExpressionCode

/-!
The code of conditional expressions, casts and assignments meets their evaluation.

The code of integer expressions preserves their meaning: by induction over well-typed
expressions without doubles and calls, and for code at its place in a program.
-/

namespace LiveC
namespace Lowering

variable {link : CodeTarget → Word} {program : UnitCode} {c : Context} {start m : Machine}
  {room : Nat} {stack : List Word} {memory : Memory} {rest mid : UnitCode} {α : Type}

theorem simulated_cond {n : Note} {e t f : Expr} (he : Simulated link program c start room e)
    (ht : Simulated link program c start room t) (hf : Simulated link program c start room f)
    (cond : e.IsCondition) (void : e.ty.isVoid = false) (tyT : t.ty = n.ty) (tyF : f.ty = n.ty) :
    Simulated link program c start room (.cond n e t f) where
  value {_ other _ _ _ _ _ rest} lowered placed h fits := by
    simp only [expr, bind_eq_ok, pure_eq_ok, newLabel_eq_ok] at lowered
    obtain ⟨_, _, ⟨rfl, rfl⟩, _, _, ⟨rfl, rfl⟩, test, _, lowerE, yes, _, lowerT, no, _, lowerF, rfl,
      rfl⟩ := lowered
    change 8 * (_ + max e.pushes (max t.pushes f.pushes)) ≤ room at fits
    simp only [Language.placed_append, List.append_assoc] at placed ⊢
    obtain ⟨placedE, -, placedT, -, otherPlaced, placedF, stopPlaced, -⟩ := placed
    have otherAt := otherPlaced.1 _ rfl
    have stopAt := stopPlaced _ rfl
    rw [Surroundings.value]
    refine (he.value lowerE placedE h (by omega)).bind fun a memory₁ m₁ evalE left => ?_
    obtain ⟨m₂, run, amid, -⟩ := reaches_test
      (yes ++ (block [.jmp (other + 1)] ++ ([.label other] ++ (no ++
        ([.label (other + 1)] ++ rest))))) left.amid .equal otherAt
    rw [holds_equal, left.rax void] at run
    rcases value_of_isCondition cond evalE with rfl | rfl
    · refine .of_reaches (run.trans (reaches_label _ _)) ?_
      refine (hf.value lowerF placedF amid (by omega)).run_on fun v memory' m' leaves => ?_
      rw [tyF] at leaves
      exact ⟨m', reaches_label _ _, leaves⟩
    · refine .of_reaches run ?_
      refine (ht.value lowerT placedT amid (by omega)).run_on fun v memory' m' leaves => ?_
      rw [tyT] at leaves
      exact ⟨m', (reaches_jump _ stopAt).trans (reaches_label _ _), leaves⟩
  place lowered := absurd lowered (address_ne_ok rfl)

theorem simulated_comma {n : Note} {l r : Expr} (hl : Simulated link program c start room l)
    (hr : Simulated link program c start room r) (ty : n.ty = r.ty) :
    Simulated link program c start room (.comma n l r) where
  value {_ _ _ _ _ _ _ _} lowered placed h fits := by
    simp only [expr, bind_eq_ok, pure_eq_ok] at lowered
    obtain ⟨left, _, lowerL, right, _, lowerR, rfl, rfl⟩ := lowered
    change 8 * (_ + max l.pushes r.pushes) ≤ room at fits
    simp only [Language.placed_append, List.append_assoc] at placed ⊢
    rw [Surroundings.value]
    refine (hl.value lowerL placed.1 h (by omega)).bind fun _ memory₁ m₁ _ left => ?_
    have right := hr.value lowerR placed.2 left.amid (by omega)
    rw [← ty] at right
    exact right
  place lowered := absurd lowered (address_ne_ok rfl)

/-! ### Conversions -/

/-- The code of a conversion between types that `rax` holds. -/
theorem conversion_computes {source target : CType} {n n' : Label} {code : UnitCode} {v : Int}
    (lowered : conversion source target n = .ok (code, n')) (ds : source.isDouble = false)
    (dt : target.isDouble = false) (void : target.isVoid = false)
    (rax : m.gp .rax = BitVec.ofInt 64 v) (hv : (machineInt source).Represents v) :
    (unitCode link).Reaches program ⟨code ++ rest, m⟩
      ⟨rest, m.setGp .rax (BitVec.ofInt 64 ((machineInt target).reduce v))⟩ := by
  unfold conversion at lowered
  split at lowered
  case isTrue same =>
    obtain ⟨rfl, _⟩ := pure_eq_ok.mp lowered
    have same : source = target := by simpa [void] using same
    rw [← same, IntType.reduce_of_represents hv, ← rax, setGp_gp]
    exact .refl _
  case isFalse =>
    simp only [ds, dt] at lowered
    obtain ⟨rfl, _⟩ := pure_eq_ok.mp lowered
    rw [← IntType.wrap_ofInt, ← rax]
    exact reaches_block (straight_extension _ _ _)

theorem simulated_cast {n : Note} {e : Expr} (he : Simulated link program c start room e)
    (void : n.ty.isVoid = false → e.ty.isVoid = false) (ds : e.ty.isDouble = false)
    (dt : n.ty.isDouble = false) :
    Simulated link program c start room (.cast n e) where
  value {_ _ _ _ _ _ _ _} lowered placed h fits := by
    simp only [expr, bind_eq_ok, pure_eq_ok] at lowered
    obtain ⟨code, _, lower, convert, _, conversion, rfl, rfl⟩ := lowered
    simp only [Language.placed_append, List.append_assoc] at placed ⊢
    rw [Surroundings.value]
    refine (he.value lower placed.1 h fits).bind fun v memory₁ m₁ _ left => ?_
    cases hv : n.ty.isVoid with
    | true =>
        simp only [Lowering.conversion, hv, Bool.true_or, if_true] at conversion
        obtain ⟨rfl, _⟩ := pure_eq_ok.mp conversion
        exact Meets.pure (.refl _) ⟨left.amid, fun h => Bool.noConfusion (hv.symm.trans h),
          fun h => Bool.noConfusion (hv.symm.trans h)⟩
    | false =>
        have scalar := void hv
        refine Meets.pure (conversion_computes conversion ds dt hv (left.rax scalar)
          (left.represents scalar)) ⟨left.amid.setGp rfl _, fun _ => gp_setGp_self _ _ _, fun _ => ?_⟩
        exact IntType.represents_reduce _ _
  place lowered := absurd lowered (address_ne_ok rfl)

/-! ### Assignments -/

/-- The value of an object of scalar type after a store, which leaves the registers. -/
theorem leaves_write {ty : CType} {v : Int} {memory' : Memory} {m' : Machine}
    (rax : m.gp .rax = BitVec.ofInt 64 v) (represents : (machineInt ty).Represents v)
    (h : Amid start room stack memory' m' ∧ ∀ r, m'.gp r = m.gp r) :
    Leaves start room stack ty v memory' m' :=
  ⟨h.1, fun _ => (h.2 .rax).trans rax, fun _ => represents⟩

theorem locate_rdx {a : Word} (h : m.gp .rdx = a) : m.locate ⟨.rdx, 0⟩ = a := by
  simp [Machine.locate, h]

/-- The object whose address `rdx` holds. -/
theorem read_rdx (h : Amid start room stack memory m) {ty : CType} (hd : ty.isDouble = false)
    {a : Word} (rdx : m.gp .rdx = a) :
    Meets link program ((c.surroundings link start room).read ty a) memory
      ⟨loadValue ty ⟨.rdx, 0⟩ ++ rest, m⟩ rest (Loaded start room stack memory m ty) := by
  rw [← locate_rdx rdx]
  exact read_meets h hd _

theorem write_rdx (h : Amid start room stack memory m) {ty : CType} {a : Word} {v : Int}
    (rdx : m.gp .rdx = a) (rax : m.gp .rax = BitVec.ofInt 64 v) {n n' : Label} {code : UnitCode}
    (hs : storeValue ty ⟨.rdx, 0⟩ n = .ok (code, n')) (hd : ty.isDouble = false) :
    Meets link program ((c.surroundings link start room).write ty a v) memory
      ⟨code ++ rest, m⟩ rest fun _ memory' m' =>
        Amid start room stack memory' m' ∧ ∀ r, m'.gp r = m.gp r := by
  rw [← locate_rdx rdx]
  exact write_meets h rax hs hd

theorem simulated_assign {n : Note} {target e : Expr}
    (ht : Simulated link program c start room target) (he : Simulated link program c start room e)
    (tyN : n.ty = target.ty) (tyE : e.ty = target.ty) (void : target.ty.isVoid = false)
    (hd : target.ty.isDouble = false) :
    Simulated link program c start room (.assign n target e) where
  value {_ _ _ _ _ _ _ _} lowered placed h fits := by
    change 8 * (_ + max target.pushes (e.pushes + 1)) ≤ room at fits
    by_cases hvar : ∃ k id, target = .var k id
    · obtain ⟨k, id, rfl⟩ := hvar
      simp only [expr, bind_eq_ok, variableAddress_eq_ok, pure_eq_ok] at lowered
      obtain ⟨code, _, lowerE, _, _, ⟨offset, found, rfl, rfl⟩, store, _, stored, rfl, rfl⟩ :=
        lowered
      simp only [Language.placed_append, List.append_assoc] at placed ⊢
      rw [Surroundings.value, Surroundings.place]
      refine Meets.bind_pure ?_
      refine (he.value lowerE placed.1 h (by omega)).bind fun v memory₁ m₁ _ left => ?_
      have rax := left.rax (tyE ▸ void)
      have represents : (machineInt n.ty).Represents v := by
        rw [tyN, ← tyE]
        exact left.represents (tyE ▸ void)
      rw [← locate_variable left.amid found]
      refine (write_meets left.amid rax stored hd).bind fun _ memory₂ m₂ _ written => ?_
      exact Meets.pure (.refl _) (leaves_write rax represents written)
    · rw [expr_assign fun k id e => hvar ⟨k, id, e⟩] at lowered
      simp only [bind_eq_ok, pure_eq_ok] at lowered
      obtain ⟨place, _, lowerT, code, _, lowerE, store, _, stored, rfl, rfl⟩ := lowered
      simp only [Language.placed_append, List.append_assoc] at placed ⊢
      rw [Surroundings.value]
      refine (ht.place lowerT placed.1 h (by omega)).bind fun a memory₁ m₁ _ located => ?_
      obtain ⟨push, pushed⟩ := reaches_push link program located.1
        (by omega)
      refine .of_reaches push ?_
      refine (he.value lowerE placed.2.2.1 pushed ?_).bind fun v memory₂ m₂ _ left => ?_
      · simp only [List.length_cons]
        omega
      · obtain ⟨m₃, pop, amid, rdx, others⟩ := straight_pop left.amid (r := .rdx) rfl
        refine .of_reaches (reaches_block pop) ?_
        have rax : m₃.gp .rax = BitVec.ofInt 64 v :=
          (others .rax (by decide) (by decide)).trans (left.rax (tyE ▸ void))
        have represents : (machineInt n.ty).Represents v := by
          rw [tyN, ← tyE]
          exact left.represents (tyE ▸ void)
        refine (write_rdx amid (rdx.trans located.2) rax stored hd).bind fun _ memory₃ m₄ _ written => ?_
        exact Meets.pure (.refl _) (leaves_write rax represents written)
  place lowered := absurd lowered (address_ne_ok rfl)

/-- The word below the top of the stack, without popping. -/
theorem straight_reload {v w : Word} (h : Amid start room (v :: w :: stack) memory m) :
    straight [.load .rdx ⟨.rsp, 8⟩ .w64 false] m = .ok (m.setGp .rdx w) := by
  have second : m.load ⟨.rsp, 8⟩ .w64 = w := h.load_second
  refine (straight_cons rfl).trans ?_
  rw [second, IntType.wrap_w64]
  rfl

/-- The rest of a compound assignment, for which the address of the target and the value of
the right side are pushed. -/
theorem compound_meets {op : BinaryOp} {ty opTy : CType} {a : Word} {b : Int}
    (h : Amid start room (BitVec.ofInt 64 b :: a :: stack) memory m)
    (voidT : ty.isVoid = false) (doubleT : ty.isDouble = false) (voidO : opTy.isVoid = false)
    (doubleO : opTy.isDouble = false)
    (hb : (machineInt opTy).Represents b ∨ op = .add ∨ op = .sub) {n₁ n₂ n₃ n₄ n₅ n₆ : Label}
    {widen narrow store : UnitCode} (widened : conversion ty opTy n₁ = .ok (widen, n₂))
    (narrowed : conversion opTy ty n₃ = .ok (narrow, n₄))
    (stored : storeValue ty ⟨.rdx, 0⟩ n₅ = .ok (store, n₆)) :
    Meets link program (do
        let old ← (c.surroundings link start room).read ty a
        let r ← op.apply ((machineInt opTy).reduce old) b
        (c.surroundings link start room).write ty a
          ((machineInt ty).reduce ((machineInt opTy).reduce r))
        return (machineInt ty).reduce ((machineInt opTy).reduce r))
      memory ⟨block [.load .rdx ⟨.rsp, 8⟩ .w64 false] ++ (loadValue ty ⟨.rdx, 0⟩ ++ (widen ++
        (block [.pop .rcx] ++ (integerOp op opTy ++ (narrow ++ (block [.pop .rdx] ++
        (store ++ rest))))))), m⟩ rest (Leaves start room stack ty) := by
  refine .of_reaches (reaches_block (straight_reload h)) ?_
  have reloaded := h.setGp (r := .rdx) rfl a
  refine (read_rdx reloaded doubleT (gp_setGp_self m .rdx a)).bind fun old _ m₁ _ loaded => ?_
  obtain ⟨rfl, read, -⟩ := loaded
  refine .of_reaches (conversion_computes widened doubleT doubleO voidO (read.rax voidT)
    (read.represents voidT)) ?_
  have widened := read.amid.setGp (r := .rax) rfl
    (BitVec.ofInt 64 ((machineInt opTy).reduce old))
  obtain ⟨m₂, pop, amid, rcx, others⟩ := straight_pop widened (r := .rcx) rfl
  have rax : m₂.gp .rax = BitVec.ofInt 64 ((machineInt opTy).reduce old) :=
    (others .rax (by decide) (by decide)).trans (gp_setGp_self _ _ _)
  refine .of_reaches (reaches_block pop) ?_
  refine integerOp_meets amid rax rcx ((machineInt opTy).represents_reduce _) hb
    fun r m₃ amid₃ rax₃ => ?_
  refine .of_reaches (conversion_computes narrowed doubleO doubleT voidT rax₃
    ((machineInt opTy).represents_reduce _)) ?_
  have narrowed := amid₃.setGp (r := .rax) rfl
    (BitVec.ofInt 64 ((machineInt ty).reduce ((machineInt opTy).reduce r)))
  obtain ⟨m₄, pop₂, amid₄, rdx, others₄⟩ := straight_pop narrowed (r := .rdx) rfl
  have rax₄ := (others₄ .rax (by decide) (by decide)).trans (gp_setGp_self _ _ _)
  refine .of_reaches (reaches_block pop₂) ?_
  exact (write_rdx amid₄ rdx rax₄ stored doubleT).bind fun _ memory₂ m₅ _ written =>
    Meets.pure (.refl _) (leaves_write rax₄ ((machineInt ty).represents_reduce _) written)

theorem simulated_opAssign {n : Note} {op : BinaryOp} {opTy : CType} {target e : Expr}
    (ht : Simulated link program c start room target) (he : Simulated link program c start room e)
    (tyN : n.ty = target.ty) (voidT : target.ty.isVoid = false)
    (doubleT : target.ty.isDouble = false) (voidE : e.ty.isVoid = false)
    (doubleE : e.ty.isDouble = false) (voidO : opTy.isVoid = false)
    (doubleO : opTy.isDouble = false)
    (tyE : machineInt e.ty = machineInt opTy ∨ op = .add ∨ op = .sub) :
    Simulated link program c start room (.opAssign n op opTy target e) where
  value {_ _ _ _ stack _ _ rest} lowered placed h fits := by
    simp only [expr, bind_eq_ok] at lowered
    obtain ⟨place, _, lowerT, code, _, lowerE, lowered⟩ := lowered
    simp only [compound, operation, doubleO, Bool.false_eq_true, if_false, bind_eq_ok, pure_eq_ok]
      at lowered
    obtain ⟨widen, _, widened, _, _, ⟨rfl, rfl⟩, narrow, _, narrowed, store, _, stored, rfl, rfl⟩ :=
      lowered
    change 8 * (_ + max target.pushes (max (e.pushes + 1) 2)) ≤ room at fits
    simp only [pushValue, doubleE, Bool.false_eq_true, if_false, Language.placed_append,
      List.append_assoc] at placed ⊢
    rw [Surroundings.value]
    refine (ht.place lowerT placed.1 h (by omega)).bind fun a memory₁ m₁ _ located => ?_
    obtain ⟨push, pushed⟩ := reaches_push link program located.1
      (by omega)
    rw [located.2] at pushed
    refine .of_reaches push ?_
    have fits' : 8 * ((a :: stack).length + max e.pushes 1) ≤ room := by
      simp only [List.length_cons]
      omega
    rw [located.2]
    refine (he.value lowerE placed.2.2.1 pushed (by omega)).bind fun b memory₂ m₂ _ right => ?_
    obtain ⟨push₂, pushed₂⟩ := reaches_push link program right.amid
      (by omega)
    refine .of_reaches push₂ ?_
    rw [right.rax voidE] at pushed₂ ⊢
    have hb : (machineInt opTy).Represents b ∨ op = .add ∨ op = .sub :=
      tyE.imp_left fun ty => by
        rw [← ty]
        exact right.represents voidE
    have same : (Expr.opAssign n op opTy target e).ty = target.ty := tyN
    rw [same]
    exact compound_meets pushed₂ voidT doubleT voidO doubleO hb widened narrowed stored
  place lowered := absurd lowered (address_ne_ok rfl)

/-- A step keeps the value before it in `rcx`. -/
theorem straight_step (t : IntType) (amount : BitVec 32) (m : Machine) :
    ∃ m', straight ([.mov .rcx .rax, .aluImm .add .rax amount] ++ extension .rax t) m = .ok m' ∧
      m.Alike m' ∧ m'.gp .rax = t.wrap (m.gp .rax + amount.signExtend 64) ∧
      m'.gp .rcx = m.gp .rax ∧ m'.gp .rdx = m.gp .rdx := by
  have added : straight [.mov .rcx .rax, .aluImm .add .rax amount] m =
      .ok ((m.setGp .rcx (m.gp .rax)).alu .add .rax (amount.signExtend 64)) := rfl
  refine ⟨_, (straight_append added).trans (straight_extension _ _ _), ?_, ?_, ?_, ?_⟩
  · exact ((Machine.Alike.setGp m rfl _).trans ((Machine.Alike.setGp _ rfl _).trans
      (.setFlags _ _))).trans (.setGp _ rfl _)
  all_goals simp [Machine.gp_setGp, Machine.gp_alu, AluOp.apply]

theorem storeValue_scalar {ty : CType} (scalar : ty.isScalar = true) (hd : ty.isDouble = false)
    (a : Address) (n : Label) :
    storeValue ty a n = .ok (block [.store a .rax (machineInt ty).width], n) := by
  cases ty with
  | int | pointer => rfl
  | void | array | function => cases scalar
  | double => cases hd

/-- A step that is lowered adds an amount that fits into an instruction. -/
theorem stepping_integral {ty : CType} {delta : Word} {before : Bool} {n n' : Label}
    {code : UnitCode} (h : stepping ty delta before n = .ok (code, n'))
    (hd : ty.isDouble = false) :
    (delta.setWidth 32).signExtend 64 = delta ∧
      code = block [.mov .rdx .rax] ++ (loadValue ty ⟨.rdx, 0⟩ ++
        (block ([.mov .rcx .rax, .aluImm .add .rax (delta.setWidth 32)] ++
          extension .rax (machineInt ty)) ++
        (block [.store ⟨.rdx, 0⟩ .rax (machineInt ty).width] ++
          block (if before then [] else [.mov .rax .rcx])))) := by
  unfold stepping at h
  rw [if_neg (by rw [hd]; exact Bool.false_ne_true)] at h
  dsimp only at h
  split at h
  case isTrue =>
    obtain ⟨_, _, refused, _⟩ := bind_eq_ok.mp h
    exact absurd refused throw_ne_ok
  case isFalse fits =>
    obtain ⟨rfl, _⟩ := pure_eq_ok.mp h
    refine ⟨Decidable.not_not.mp fits, ?_⟩
    simp only [block_append, List.append_assoc]

theorem simulated_step {n : Note} {delta : Word} {before : Bool} {target : Expr}
    (ht : Simulated link program c start room target) (tyN : n.ty = target.ty)
    (void : target.ty.isVoid = false) (hd : target.ty.isDouble = false)
    (scalar : target.ty.isScalar = true) :
    Simulated link program c start room (.step n delta before target) where
  value {_ _ _ _ _ _ _ rest} lowered placed h fits := by
    simp only [expr, bind_eq_ok, pure_eq_ok] at lowered
    obtain ⟨place, _, lowerT, _, _, stepped, rfl, rfl⟩ := lowered
    obtain ⟨amount, rfl⟩ := stepping_integral stepped hd
    simp only [Language.placed_append, List.append_assoc] at placed ⊢
    rw [Surroundings.value]
    refine (ht.place lowerT placed.1 h fits).bind fun a memory₁ m₁ _ located => ?_
    refine .of_reaches (reaches_block (straight_cons rfl)) ?_
    rw [located.2]
    have kept := located.1.setGp (r := .rdx) rfl a
    refine (read_rdx kept hd (gp_setGp_self m₁ .rdx a)).bind fun old _ m₂ _ loaded => ?_
    obtain ⟨rfl, read, others⟩ := loaded
    obtain ⟨m₃, run, alike, rax, rcx, rdx⟩ := straight_step (machineInt target.ty)
      (delta.setWidth 32) m₂
    refine .of_reaches (reaches_block run) ?_
    have rax : m₃.gp .rax =
        BitVec.ofInt 64 ((machineInt target.ty).reduce (old + delta.toInt)) := by
      rw [rax, amount, read.rax void, ← IntType.wrap_ofInt, BitVec.ofInt_add, BitVec.ofInt_toInt]
    have rdx : m₃.gp .rdx = a :=
      rdx.trans ((others .rdx (by decide)).trans (gp_setGp_self m₁ .rdx a))
    refine (write_rdx (read.amid.alike alike) rdx rax (storeValue_scalar scalar hd _ 0) hd).bind
      fun _ memory₃ m₄ _ written => ?_
    have same : (Expr.step n delta before target).ty = target.ty := tyN
    rw [same]
    cases before with
    | true =>
        exact Meets.pure (.refl _)
          (leaves_write rax ((machineInt target.ty).represents_reduce _) written)
    | false =>
        refine Meets.pure (reaches_block (straight_cons rfl)) ⟨written.1.setGp rfl _, fun _ => ?_,
          fun _ => read.represents void⟩
        rw [gp_setGp_self, written.2, rcx, read.rax void, if_neg Bool.false_ne_true]
  place lowered := absurd lowered (address_ne_ok rfl)

end Lowering
end LiveC

/-! ## Integer expressions -/

namespace LiveC

/-! ### Types of operands -/

theorem CType.isVoid_of_isArithmetic {ty : CType} (h : ty.isArithmetic = true) :
    ty.isVoid = false := by
  cases ty <;> first | rfl | cases h

theorem CType.isVoid_of_isInteger {ty : CType} (h : ty.isInteger = true) :
    ty.isVoid = false := by
  cases ty <;> first | rfl | cases h

theorem CType.isVoid_of_isPointer {ty : CType} (h : ty.isPointer = true) : ty.isVoid = false := by
  cases ty <;> first | rfl | cases h

theorem CType.isVoid_of_isScalar {ty : CType} (h : ty.isScalar = true) : ty.isVoid = false := by
  cases ty <;> first | rfl | cases h

theorem CType.isVoid_of_takes {op : BinaryOp} {ty : CType} (h : Expr.Takes op ty) :
    ty.isVoid = false := by
  cases op with
  | add | sub | mul | div => exact isVoid_of_isArithmetic h
  | rem | shl | shr | bitAnd | bitOr | bitXor => exact isVoid_of_isInteger h

namespace Expr

variable {Γ : TypingContext} {e : Expr}

theorem WellTyped.rule (h : e.WellTyped Γ) : e.Rule Γ := h.here.2

theorem IsIntegral.isDouble (h : e.IsIntegral) : e.ty.isDouble = false := by
  have here := h.here
  cases e with
  | call | callPointer => exact here.elim
  | _ => exact here

theorem isVoid_of_isCondition (typed : e.WellTyped Γ) (cond : e.IsCondition) :
    e.ty.isVoid = false := by
  have rule := typed.rule
  cases e with
  | int n v =>
      rcases rule with pointer | ⟨t, ty, -⟩
      · exact CType.isVoid_of_isPointer pointer
      · rw [Expr.ty, note, ty]
        rfl
  | compare | logic =>
      rw [Expr.ty, note, rule.1]
      rfl
  | _ => exact cond.elim

end Expr

namespace Lowering

variable {link : CodeTarget → Word} {program : UnitCode} {c : Context} {start : Machine}
  {room : Nat} {Γ : TypingContext} {e : Expr}

theorem machineInt_of_isPointer {ty : CType} (h : ty.isPointer = true) :
    machineInt ty = .ulong := by
  cases ty <;> first | rfl | cases h

/-- The step of the induction: an expression whose parts are simulated. -/
theorem simulated_of_parts (canonical : ∀ t v, Γ.constant t v → t.wrap v = v)
    (typed : e.WellTyped Γ) (integral : e.IsIntegral)
    (parts : ∀ part ∈ e.parts, Simulated link program c start room part) :
    Simulated link program c start room e := by
  have rule := typed.rule
  have double := integral.isDouble
  cases e with
  | int n v =>
      refine simulated_int ?_
      rcases rule with pointer | ⟨t, ty, constant⟩
      · rw [machineInt_of_isPointer pointer]
        exact IntType.wrap_w64 _ v
      · rw [ty]
        exact canonical t v constant
  | float n v =>
      rw [Expr.ty, Expr.note, rule] at double
      cases double
  | str n id =>
      obtain ⟨length, ty⟩ := rule
      refine simulated_str ?_
      rw [ty]
      rfl
  | var n id => exact simulated_var double
  | global n name => exact simulated_global double
  | unary n op e =>
      refine simulated_unary (parts e (.head _)) ?_ double
      rw [rule.1]
      cases op with
      | neg => exact CType.isVoid_of_isArithmetic rule.2
      | bitNot => exact CType.isVoid_of_isInteger rule.2
  | binary n op l r =>
      have hl := parts l (.head _)
      have hr := parts r (.tail _ (.head _))
      obtain ⟨tyL, ⟨tyR, takes⟩ | ⟨pointer, addSub, tyR⟩⟩ := rule
      · have void := CType.isVoid_of_takes takes
        refine simulated_binary hl hr ?_ (by rw [tyL]) double (.inl (by rw [tyR]))
        rw [tyL, tyR]
        exact ⟨void, double, void, double⟩
      · have void := CType.isVoid_of_isPointer pointer
        refine simulated_binary hl hr ?_ (by rw [tyL]) double (.inr addSub)
        rw [tyL, tyR]
        exact ⟨void, double, rfl, rfl⟩
  | compare n op l r =>
      have hl := parts l (.head _)
      have hr := parts r (.tail _ (.head _))
      have doubleL := Expr.IsIntegral.isDouble (integral.part (.head _))
      have doubleR := Expr.IsIntegral.isDouble (integral.part (.tail _ (.head _)))
      obtain ⟨ty, ⟨same, arithmetic⟩ | ⟨pointerL, pointerR⟩⟩ := rule
      · have void := CType.isVoid_of_isArithmetic arithmetic
        exact simulated_compare hl hr ⟨void, doubleL, same ▸ void, doubleR⟩ (by rw [same]) ty
      · refine simulated_compare hl hr ⟨CType.isVoid_of_isPointer pointerL, doubleL,
          CType.isVoid_of_isPointer pointerR, doubleR⟩ ?_ ty
        rw [machineInt_of_isPointer pointerL, machineInt_of_isPointer pointerR]
  | logic n op l r =>
      obtain ⟨ty, condL, condR⟩ := rule
      exact simulated_logic (parts l (.head _)) (parts r (.tail _ (.head _))) condL condR
        (Expr.isVoid_of_isCondition (typed.part (.head _)) condL)
        (Expr.isVoid_of_isCondition (typed.part (.tail _ (.head _))) condR) ty
  | assign n target value =>
      obtain ⟨-, scalar, tyN, tyV⟩ := rule
      exact simulated_assign (parts target (.head _)) (parts value (.tail _ (.head _))) tyN tyV
        (CType.isVoid_of_isScalar scalar) (tyN ▸ double)
  | opAssign n op opTy target value =>
      have ht := parts target (.head _)
      have hv := parts value (.tail _ (.head _))
      have doubleV := Expr.IsIntegral.isDouble (integral.part (.tail _ (.head _)))
      obtain ⟨-, tyN, ⟨tyV, takes, takesT⟩ | ⟨pointer, addSub, tyO, tyV⟩⟩ := rule
      · have void := CType.isVoid_of_takes takes
        exact simulated_opAssign ht hv tyN (CType.isVoid_of_takes takesT) (tyN ▸ double)
          (tyV ▸ void) doubleV void (tyV ▸ doubleV) (.inl (by rw [tyV]))
      · have void := CType.isVoid_of_isPointer pointer
        refine simulated_opAssign ht hv tyN void (tyN ▸ double) ?_ doubleV (tyO ▸ void)
          (tyO ▸ tyN ▸ double) (.inr addSub)
        rw [tyV]
        rfl
  | step n delta before target =>
      obtain ⟨-, scalar, tyN⟩ := rule
      exact simulated_step (parts target (.head _)) tyN (CType.isVoid_of_isScalar scalar)
        (tyN ▸ double) scalar
  | cond n c t f =>
      obtain ⟨cond, tyT, tyF, -⟩ := rule
      exact simulated_cond (parts c (.head _)) (parts t (.tail _ (.head _)))
        (parts f (.tail _ (.tail _ (.head _)))) cond
        (Expr.isVoid_of_isCondition (typed.part (.head _)) cond) tyT tyF
  | cast n e =>
      have doubleE := Expr.IsIntegral.isDouble (integral.part (.head _))
      refine simulated_cast (parts e (.head _)) (fun void => ?_) doubleE double
      rcases rule with ty | ⟨-, scalar, -⟩
      · rw [ty] at void
        cases void
      · exact CType.isVoid_of_isScalar scalar
  | deref n e =>
      refine simulated_deref (parts e (.head _)) ?_ double
      rw [rule.1]
      rfl
  | addrOf n e =>
      refine simulated_addrOf (parts e (.head _)) ?_
      rcases rule.2 with ty | ⟨_, _, _, ty⟩
      all_goals
        rw [ty]
        rfl
  | call | callPointer => exact integral.here.elim
  | comma n l r => exact simulated_comma (parts l (.head _)) (parts r (.tail _ (.head _))) rule.1

/-- The code of every well-typed integer expression meets its evaluation. -/
theorem simulated (canonical : ∀ t v, Γ.constant t v → t.wrap v = v) (typed : e.WellTyped Γ)
    (integral : e.IsIntegral) : Simulated link program c start room e := by
  induction typed with
  | node here parts ih =>
      exact simulated_of_parts canonical (.node here parts) integral fun part member =>
        ih part member (integral.part member)

/-! ### The code in a program -/

/-- Behind older labels, those of an expression are found where it stands. -/
theorem placed_of_fresh {depth n n' : Nat} {code before rest : UnitCode}
    (lowered : expr c depth e n = .ok (code, n')) (fresh : ∀ l ∈ before.labels, l < n)
    (link : CodeTarget → Word) : (unitCode link).Placed (before ++ (code ++ rest)) code rest := by
  have labels := (expr_address_allotted c e).1 _ _ _ _ lowered
  refine Language.placed_of_nodup ?_ fun l hl hb => ?_
  · rw [labels_unitCode]
    exact labels.nodup
  · rw [labels_unitCode] at hl hb
    exact absurd (fresh l hb) (Nat.not_lt.mpr (labels.between hl).1)

/-- The code of an integer expression leaves its value in `rax`, extended to a word, and the
memory of its evaluation outside of the `8 * e.pushes` bytes below the stack pointer; all
other registers are as before. A division that has no result faults. -/
theorem expr_preserves_meaning {depth n n' : Nat} {code before rest : UnitCode}
    (canonical : ∀ t v, Γ.constant t v → t.wrap v = v) (typed : e.WellTyped Γ)
    (integral : e.IsIntegral) (lowered : expr c depth e n = .ok (code, n'))
    (fresh : ∀ l ∈ before.labels, l < n) (fits : 8 * e.pushes ≤ 2 ^ 64) (start : Machine) :
    Meets link (before ++ (code ++ rest))
      ((c.surroundings link start (8 * e.pushes)).value e) start.memory ⟨code ++ rest, start⟩ rest
      fun v memory m =>
        (e.ty.isVoid = false → m.gp .rax = BitVec.ofInt 64 v ∧ (machineInt e.ty).Represents v) ∧
        (∀ r, r.isScratch = false → m.gp r = start.gp r) ∧ (∀ x, m.xmm x = start.xmm x) ∧
        ∀ a, 8 * e.pushes ≤ below (start.gp .rsp) a → m.memory.read a = memory.read a := by
  refine ((simulated canonical typed integral).value lowered (placed_of_fresh lowered fresh link)
    (.init start fits) ?_).mono fun v memory m left => ⟨fun void => ⟨left.rax void,
      left.represents void⟩, fun r hr => ?_, left.amid.xmm, left.amid.agrees⟩
  · simp
  · by_cases hs : r = .rsp
    · subst hs
      simpa using left.amid.rsp
    · exact left.amid.gp r hr hs

/-- `x = -7 % 4` for an `int` in the frame. -/
def remainderAssignment : Expr :=
  let n : Note := ⟨.int .int, .start⟩
  .assign n (.var n 0) (.binary n .rem (.unary n .neg (.int n 7)) (.int n 4))

/-- A frame with one variable, at address 1992, on a stack that begins at 1000. -/
def oneVariable : Context × Machine :=
  (⟨⟨[], [], []⟩, [-8]⟩, (Machine.blank.setGp .rbp 2000).setGp .rsp 1000)

theorem remainderAssignment_computes :
    ∃ code n' m, expr oneVariable.1 0 remainderAssignment 0 = .ok (code, n') ∧
      (unitCode fun _ => 0).Reaches code ⟨code, oneVariable.2⟩ ⟨[], m⟩ ∧
      m.gp .rax = -3 ∧ m.gp .rsp = 1000 := by
  let Γ : TypingContext := ⟨fun t v => t.wrap v = v, fun id ty => id = 0 ∧ ty = .int .int⟩
  have literal (v : Word) (hv : IntType.int.wrap v = v) :
      (Expr.int ⟨.int .int, .start⟩ v).WellTyped Γ := .node ⟨trivial, .inr ⟨_, rfl, hv⟩⟩ nofun
  have typed : remainderAssignment.WellTyped Γ := by
    refine .node ⟨trivial, rfl, rfl, rfl, rfl⟩ (List.forall_mem_cons.mpr ⟨.node ⟨trivial, rfl, rfl⟩ nofun,
      List.forall_mem_singleton.mpr (.node ⟨trivial, rfl, .inl ⟨rfl, rfl⟩⟩ (List.forall_mem_cons.mpr
        ⟨.node ⟨trivial, rfl, rfl⟩ (List.forall_mem_singleton.mpr (literal 7 rfl)),
          List.forall_mem_singleton.mpr (literal 4 rfl)⟩))⟩)
  have integral : remainderAssignment.IsIntegral := by
    refine .node rfl (List.forall_mem_cons.mpr ⟨.node rfl nofun, List.forall_mem_singleton.mpr
      (.node rfl (List.forall_mem_cons.mpr
        ⟨.node rfl (List.forall_mem_singleton.mpr (.node rfl nofun)),
          List.forall_mem_singleton.mpr (.node rfl nofun)⟩))⟩)
  have meets := @expr_preserves_meaning (fun _ => 0) oneVariable.1 Γ remainderAssignment 0 0 0 _ []
    [] (fun _ _ h => h) typed integral rfl nofun (by decide) oneVariable.2
  have value : (oneVariable.1.surroundings (fun _ => 0) oneVariable.2
      (8 * remainderAssignment.pushes)).value remainderAssignment oneVariable.2.memory =
        .ok (-3, oneVariable.2.memory.store 1992 4 (-3)) := rfl
  unfold Meets at meets
  rw [value] at meets
  obtain ⟨m, run, rax, gp, -⟩ := meets
  exact ⟨_, _, m, rfl, run, (rax rfl).1, gp .rsp rfl⟩

end Lowering
end LiveC
