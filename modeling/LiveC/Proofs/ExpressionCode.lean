import LiveC.Proofs.Simulation
import LiveC.Proofs.TypingRules

/-!
The code of an integer expression computes its value. The statement that carries the
induction speaks of code anywhere in a program and of a machine on which any number of
words are already pushed, as they are in front of the code of an operand.
-/

namespace LiveC

/-- No doubles and no calls occur. -/
def Expr.IsIntegral (e : Expr) : Prop :=
  e.Everywhere fun
    | .call .. | .callPointer .. => False
    | e => e.ty.isDouble = false

/-- How many words the code of an expression without calls has pushed at most. -/
def Expr.pushes : Expr → Nat
  | int .. | float .. | str .. | var .. | global .. | call .. | callPointer .. => 0
  | unary _ _ e | step _ _ _ e | cast _ e | deref _ e | addrOf _ e => e.pushes
  | binary _ _ l r | compare _ _ l r | assign _ l r => max l.pushes (r.pushes + 1)
  | opAssign _ _ _ l r => max l.pushes (max (r.pushes + 1) 2)
  | logic _ _ l r | comma _ l r => max l.pushes r.pushes
  | cond _ c t f => max c.pushes (max t.pushes f.pushes)

namespace Lowering

/-- The code of an expression meets its evaluation, and so does the code of its address. -/
structure Simulated (link : CodeTarget → Word) (program : UnitCode) (c : Context)
    (start : Machine) (room : Nat) (e : Expr) : Prop where
  value : ∀ {depth : Nat} {n n' : Label} {code : UnitCode} {stack : List Word} {memory : Memory}
    {m : Machine} {rest : UnitCode}, expr c depth e n = .ok (code, n') →
    (unitCode link).Placed program code rest → Amid start room stack memory m →
    8 * (stack.length + e.pushes) ≤ room →
    Meets link program ((c.surroundings link start room).value e) memory ⟨code ++ rest, m⟩ rest
      (Leaves start room stack e.ty)
  place : ∀ {depth : Nat} {n n' : Label} {code : UnitCode} {stack : List Word} {memory : Memory}
    {m : Machine} {rest : UnitCode}, address c depth e n = .ok (code, n') →
    (unitCode link).Placed program code rest → Amid start room stack memory m →
    8 * (stack.length + e.pushes) ≤ room →
    Meets link program ((c.surroundings link start room).place e) memory ⟨code ++ rest, m⟩ rest
      fun a memory' m' => Amid start room stack memory' m' ∧ m'.gp .rax = a

variable {link : CodeTarget → Word} {program : UnitCode} {c : Context} {start m : Machine}
  {room : Nat} {stack : List Word} {memory : Memory} {rest mid : UnitCode} {α : Type}

/-! ### Pushing and popping -/

theorem reaches_push (link : CodeTarget → Word) (program : UnitCode)
    {rest : UnitCode} (h : Amid start room stack memory m)
    (fits : 8 * (stack.length + 1) ≤ room) :
    (unitCode link).Reaches program ⟨block [.push .rax] ++ rest, m⟩ ⟨rest, m.push (m.gp .rax)⟩ ∧
      Amid start room (m.gp .rax :: stack) memory (m.push (m.gp .rax)) :=
  ⟨reaches_block (straight_cons rfl), h.push _ fits⟩

theorem straight_pop {v : Word} (h : Amid start room (v :: stack) memory m) {r : Gp}
    (hr : r.isScratch = true) :
    ∃ m', straight [.pop r] m = .ok m' ∧ Amid start room stack memory m' ∧ m'.gp r = v ∧
      ∀ s, s ≠ r → s ≠ .rsp → m'.gp s = m.gp s := by
  obtain ⟨top, amid⟩ := h.pop
  refine ⟨m.pop.2.setGp r m.pop.1, straight_cons rfl, amid.setGp hr _, ?_, fun s hs hs' => ?_⟩
  · rw [Machine.gp_setGp, if_pos rfl, top]
  · rw [Machine.gp_setGp, if_neg hs, Machine.gp_pop, if_neg hs']

/-- Straight code that computes a word keeps the pushed words. -/
theorem reaches_computes (h : Amid start room stack memory m) {is : List (Instruction Label)}
    {v : Word} (hc : Computes is m v) :
    ∃ m', (unitCode link).Reaches program ⟨block is ++ rest, m⟩ ⟨rest, m'⟩ ∧
      Amid start room stack memory m' ∧ m'.gp .rax = v := by
  obtain ⟨m', run, alike, value⟩ := hc
  exact ⟨m', reaches_block run, h.alike alike, value⟩

/-- Behind the code of two operands the left one is in `rax` and the right one in `rcx`. -/
theorem operands_meets {l r : Expr} (hl : Simulated link program c start room l)
    (hr : Simulated link program c start room r) (voidL : l.ty.isVoid = false)
    (voidR : r.ty.isVoid = false) (doubleL : l.ty.isDouble = false)
    (doubleR : r.ty.isDouble = false) {depth depth' : Nat} {n k n' : Label} {left right : UnitCode}
    (lowerL : expr c depth l n = .ok (left, k)) (lowerR : expr c depth' r k = .ok (right, n'))
    (placed : (unitCode link).Placed program (operands left right l.ty r.ty) mid)
    (h : Amid start room stack memory m)
    (fits : 8 * (stack.length + max l.pushes (r.pushes + 1)) ≤ room)
    {f : Int → Int → Evaluation α} {Q : α → Memory → Machine → Prop}
    (behind : ∀ a b memory' m', Amid start room stack memory' m' →
      m'.gp .rax = BitVec.ofInt 64 a → m'.gp .rcx = BitVec.ofInt 64 b →
      (machineInt l.ty).Represents a → (machineInt r.ty).Represents b →
      Meets link program (f a b) memory' ⟨mid, m'⟩ rest Q) :
    Meets link program (do
        let a ← (c.surroundings link start room).value l
        let b ← (c.surroundings link start room).value r
        f a b)
      memory ⟨operands left right l.ty r.ty ++ mid, m⟩ rest Q := by
  simp only [operands, pushValue, doubleL, doubleR, Bool.false_eq_true, if_false,
    Language.placed_append, List.append_assoc] at placed ⊢
  obtain ⟨placedL, -, placedR, -⟩ := placed
  refine (hl.value lowerL placedL h (by omega)).bind fun a memory₁ m₁ _ left => ?_
  obtain ⟨push, pushed⟩ := reaches_push link program left.amid
    (by omega)
  refine .of_reaches push ((hr.value lowerR placedR pushed ?_).bind fun b memory₂ m₂ _ right => ?_)
  · simp only [List.length_cons]
    omega
  · have moved := right.amid.setGp (r := .rcx) rfl (m₂.gp .rax)
    obtain ⟨m₃, pop, amid, rax, others⟩ := straight_pop moved (r := .rax) rfl
    refine .of_reaches (reaches_block ((straight_cons rfl).trans pop)) ?_
    refine behind a b memory₂ m₃ amid (rax.trans (left.rax voidL)) ?_ (left.represents voidL)
      (right.represents voidR)
    rw [others .rcx (by decide) (by decide), Machine.gp_setGp, if_pos rfl, right.rax voidR]

/-! ### Constants and objects -/

theorem simulated_int {n : Note} {v : Word} (canonical : (machineInt n.ty).wrap v = v) :
    Simulated link program c start room (.int n v) where
  value {_ _ _ _ _ _ _ _} lowered _ h _ := by
    obtain ⟨rfl, rfl⟩ := pure_eq_ok.mp lowered
    obtain ⟨m', run, amid, rax⟩ := reaches_computes h (computes_settingWord _ v)
    refine Meets.pure run ⟨amid, fun _ => ?_, fun _ => IntType.represents_value canonical⟩
    rw [rax, IntType.ofInt_value]
  place lowered := absurd lowered (address_ne_ok rfl)

theorem reaches_linkedAddress (h : Amid start room stack memory m) (target : CodeTarget)
    (expected : Option SymbolKind) :
    (unitCode link).Reaches program ⟨linkedAddress target expected ++ rest, m⟩
        ⟨rest, m.setGp .rax (link target)⟩ ∧
      Amid start room stack memory (m.setGp .rax (link target)) :=
  ⟨Language.reaches_next rfl, h.setGp rfl _⟩

theorem gp_setGp_self (m : Machine) (r : Gp) (v : Word) : (m.setGp r v).gp r = v := by
  rw [Machine.gp_setGp, if_pos rfl]

theorem simulated_str {n : Note} {id : Nat} (hty : machineInt n.ty = .ulong) :
    Simulated link program c start room (.str n id) where
  value {_ _ _ _ _ _ _ _} lowered _ h _ := by
    obtain ⟨place, found, rfl, rfl⟩ := stringAddress_eq_ok.mp lowered
    obtain ⟨run, amid⟩ := reaches_linkedAddress h (.place place.1 place.2) none
    refine Meets.pure run ⟨amid, fun _ => ?_, fun _ => hty ▸ represents_toNat _⟩
    rw [gp_setGp_self, ofInt_toNat, Context.surroundings]
    simp [found]
  place {_ _ _ _ _ _ _ _} lowered _ h _ := by
    obtain ⟨place, found, rfl, rfl⟩ := stringAddress_eq_ok.mp lowered
    obtain ⟨run, amid⟩ := reaches_linkedAddress h (.place place.1 place.2) none
    refine Meets.pure run ⟨amid, ?_⟩
    rw [gp_setGp_self, Context.surroundings]
    simp [found]

theorem locate_variable (h : Amid start room stack memory m) {id : Nat} {offset : BitVec 32}
    (found : c.offsets[id]? = some offset) :
    m.locate ⟨.rbp, offset⟩ = (c.surroundings link start room).varAt id := by
  simp [Machine.locate, Context.surroundings, found, h.gp .rbp rfl (by decide)]

theorem Loaded.leaves {before m' : Machine} {ty : CType} {v : Int} {memory' : Memory}
    (h : Loaded start room stack memory before ty v memory' m') :
    Leaves start room stack ty v memory' m' := h.1 ▸ h.2.1

theorem simulated_var {n : Note} {id : Nat} (hd : n.ty.isDouble = false) :
    Simulated link program c start room (.var n id) where
  value {_ _ _ _ _ _ _ _} lowered _ h _ := by
    simp only [expr, bind_eq_ok, variableAddress_eq_ok, pure_eq_ok] at lowered
    obtain ⟨_, _, ⟨offset, found, rfl, rfl⟩, rfl, rfl⟩ := lowered
    rw [Surroundings.value, ← locate_variable h found]
    exact (read_meets h hd _).mono fun _ _ _ loaded => loaded.leaves
  place {_ _ _ _ _ _ _ _} lowered _ h _ := by
    simp only [address, bind_eq_ok, variableAddress_eq_ok, pure_eq_ok] at lowered
    obtain ⟨_, _, ⟨offset, found, rfl, rfl⟩, rfl, rfl⟩ := lowered
    rw [Surroundings.place, ← locate_variable h found]
    exact Meets.pure (reaches_block (straight_cons rfl)) ⟨h.setGp rfl _, gp_setGp_self _ _ _⟩

theorem simulated_global {n : Note} {name : String} (hd : n.ty.isDouble = false) :
    Simulated link program c start room (.global n name) where
  value {_ _ _ _ _ _ m _} lowered _ h _ := by
    obtain ⟨rfl, rfl⟩ := pure_eq_ok.mp lowered
    rw [List.append_assoc, Surroundings.value]
    obtain ⟨run, amid⟩ := reaches_linkedAddress h (c.layout.target name) _
    refine .of_reaches run ?_
    have located : (m.setGp .rax (link (c.layout.target name))).locate ⟨.rax, 0⟩ =
        (c.surroundings link start room).globalAt name := by
      rw [locate_rax, gp_setGp_self]
      rfl
    rw [← located]
    exact (read_meets amid hd _).mono fun _ _ _ loaded => loaded.leaves
  place {_ _ _ _ _ _ _ _} lowered _ h _ := by
    obtain ⟨rfl, rfl⟩ := pure_eq_ok.mp lowered
    obtain ⟨run, amid⟩ := reaches_linkedAddress h (c.layout.target name) _
    exact Meets.pure run ⟨amid, gp_setGp_self _ _ _⟩

theorem simulated_deref {n : Note} {e : Expr} (he : Simulated link program c start room e)
    (void : e.ty.isVoid = false) (hd : n.ty.isDouble = false) :
    Simulated link program c start room (.deref n e) where
  value {_ _ _ _ _ _ _ _} lowered placed h fits := by
    simp only [expr, bind_eq_ok, pure_eq_ok] at lowered
    obtain ⟨code, _, lower, rfl, rfl⟩ := lowered
    rw [List.append_assoc, Surroundings.value]
    rw [Language.placed_append] at placed
    refine (he.value lower placed.1 h fits).bind fun a memory' m' _ left => ?_
    rw [← left.rax void, ← locate_rax m']
    exact (read_meets left.amid hd _).mono fun _ _ _ loaded => loaded.leaves
  place {_ _ _ _ _ _ _ _} lowered placed h fits := by
    rw [Surroundings.place]
    exact (he.value lowered placed h fits).bind fun a memory' m' _ left =>
      Meets.pure (.refl _) ⟨left.amid, left.rax void⟩

/-- The address of an object needs the code of its place only: what lies there may be a double. -/
theorem simulated_addrOf_of_place {n : Note} {e : Expr} (hty : machineInt n.ty = .ulong)
    (place : ∀ {depth : Nat} {n n' : Label} {code : UnitCode} {stack : List Word} {memory : Memory}
      {m : Machine} {rest : UnitCode}, address c depth e n = .ok (code, n') →
      (unitCode link).Placed program code rest → Amid start room stack memory m →
      8 * (stack.length + e.pushes) ≤ room →
      Meets link program ((c.surroundings link start room).place e) memory ⟨code ++ rest, m⟩ rest
        fun a memory' m' => Amid start room stack memory' m' ∧ m'.gp .rax = a) :
    Simulated link program c start room (.addrOf n e) where
  value {_ _ _ _ _ _ _ _} lowered placed h fits := by
    rw [Surroundings.value]
    refine (place lowered placed h fits).bind fun a memory' m' _ left => ?_
    refine Meets.pure (.refl _) ⟨left.1, fun _ => ?_, fun _ => hty ▸ represents_toNat a⟩
    rw [left.2, ofInt_toNat]
  place lowered := absurd lowered (address_ne_ok rfl)

theorem simulated_addrOf {n : Note} {e : Expr} (he : Simulated link program c start room e)
    (hty : machineInt n.ty = .ulong) :
    Simulated link program c start room (.addrOf n e) :=
  simulated_addrOf_of_place hty he.place

/-! ### Operators -/

theorem simulated_unary {n : Note} {op : UnaryOp} {e : Expr}
    (he : Simulated link program c start room e) (void : e.ty.isVoid = false)
    (hd : n.ty.isDouble = false) :
    Simulated link program c start room (.unary n op e) where
  value {_ _ _ _ _ _ _ _} lowered placed h fits := by
    simp only [expr, bind_eq_ok, pure_eq_ok] at lowered
    obtain ⟨code, _, lower, rfl, rfl⟩ := lowered
    rw [List.append_assoc, Surroundings.value]
    rw [Language.placed_append] at placed
    refine (he.value lower placed.1 h fits).bind fun a memory' m' _ left => ?_
    obtain ⟨is, isCode, computes⟩ : ∃ is, unaryOp op n.ty = block is ∧
        Computes is m' (BitVec.ofInt 64 ((machineInt n.ty).reduce (op.apply a))) := by
      cases op with
      | neg =>
          rw [← UnaryOp.wrap_neg, ← left.rax void]
          exact ⟨_, by simp only [unaryOp, hd, Bool.false_eq_true, if_false], computes_neg _ m'⟩
      | bitNot =>
          rw [← UnaryOp.wrap_bitNot, ← left.rax void]
          exact ⟨_, rfl, computes_bitNot _ m'⟩
    obtain ⟨m₂, run, amid, rax⟩ := reaches_computes left.amid computes
    rw [isCode]
    exact Meets.pure run ⟨amid, fun _ => rax, fun _ => IntType.represents_reduce _ _⟩
  place lowered := absurd lowered (address_ne_ok rfl)

/-- The code of an operation on the operands in `rax` and `rcx`. -/
theorem integerOp_meets (h : Amid start room stack memory m) {op : BinaryOp} {ty : CType}
    {a b : Int} (rax : m.gp .rax = BitVec.ofInt 64 a) (rcx : m.gp .rcx = BitVec.ofInt 64 b)
    (ha : (machineInt ty).Represents a)
    (hb : (machineInt ty).Represents b ∨ op = .add ∨ op = .sub)
    {f : Int → Evaluation α} {Q : α → Memory → Machine → Prop}
    (behind : ∀ r m', Amid start room stack memory m' →
      m'.gp .rax = BitVec.ofInt 64 ((machineInt ty).reduce r) →
      Meets link program (f r) memory ⟨mid, m'⟩ rest Q) :
    Meets link program ((liftM (op.apply a b) : Evaluation Int) >>= f) memory
      ⟨integerOp op ty ++ mid, m⟩ rest Q := by
  have spec := integerOperation_apply op ha hb rax rcx
  refine Meets.lift_bind (fun e => ?_) (fun u e => ?_) fun r e => ?_
  · rw [e] at spec
    exact halts_block spec.2
  · rw [e] at spec
    exact spec.1
  · rw [e] at spec
    obtain ⟨m', run, amid, value⟩ := reaches_computes h spec
    exact .of_reaches run (behind r m' amid value)

theorem simulated_binary {n : Note} {op : BinaryOp} {l r : Expr}
    (hl : Simulated link program c start room l) (hr : Simulated link program c start room r)
    (scalar : l.ty.isVoid = false ∧ l.ty.isDouble = false ∧ r.ty.isVoid = false ∧
      r.ty.isDouble = false)
    (tyL : machineInt l.ty = machineInt n.ty) (hd : n.ty.isDouble = false)
    (tyR : machineInt r.ty = machineInt n.ty ∨ op = .add ∨ op = .sub) :
    Simulated link program c start room (.binary n op l r) where
  value {_ _ _ _ _ _ _ _} lowered placed h fits := by
    simp only [expr, bind_eq_ok, pure_eq_ok, operation, hd, Bool.false_eq_true, if_false] at lowered
    obtain ⟨left, _, lowerL, right, _, lowerR, _, _, ⟨rfl, rfl⟩, rfl, rfl⟩ := lowered
    rw [List.append_assoc, Surroundings.value]
    rw [Language.placed_append] at placed
    refine operands_meets hl hr scalar.1 scalar.2.2.1 scalar.2.1 scalar.2.2.2 lowerL lowerR
      placed.1 h fits fun a b memory' m' amid rax rcx ha hb => ?_
    have hb : (machineInt n.ty).Represents b ∨ op = .add ∨ op = .sub :=
      tyR.imp_left fun e => by rwa [← e]
    refine integerOp_meets amid rax rcx (tyL ▸ ha) hb fun v m₂ amid₂ value => ?_
    exact Meets.pure (.refl _) ⟨amid₂, fun _ => value, fun _ => IntType.represents_reduce _ _⟩
  place lowered := absurd lowered (address_ne_ok rfl)

theorem simulated_compare {n : Note} {op : CompareOp} {l r : Expr}
    (hl : Simulated link program c start room l) (hr : Simulated link program c start room r)
    (scalar : l.ty.isVoid = false ∧ l.ty.isDouble = false ∧ r.ty.isVoid = false ∧
      r.ty.isDouble = false)
    (same : machineInt r.ty = machineInt l.ty) (hty : n.ty = .int .int) :
    Simulated link program c start room (.compare n op l r) where
  value {_ _ _ _ _ _ _ _} lowered placed h fits := by
    simp only [expr, bind_eq_ok, pure_eq_ok] at lowered
    obtain ⟨left, _, lowerL, right, _, lowerR, rfl, rfl⟩ := lowered
    rw [List.append_assoc, Surroundings.value]
    rw [Language.placed_append] at placed
    refine operands_meets hl hr scalar.1 scalar.2.2.1 scalar.2.1 scalar.2.2.2 lowerL lowerR
      placed.1 h fits fun a b memory' m' amid rax rcx ha hb => ?_
    have computes := computes_comparison op (machineInt l.ty).signed m'
    rw [rax, rcx, IntType.order_ofInt ha (same ▸ hb)] at computes
    obtain ⟨m₂, run, amid₂, value⟩ := reaches_computes amid computes
    refine Meets.pure ?_ ⟨amid₂, fun _ => ?_, fun _ => ?_⟩
    · simpa only [comparison, scalar.2.1, Bool.false_eq_true, if_false] using run
    · rw [value]
      cases op.holds (compare a b) <;> rfl
    · rw [Expr.ty, Expr.note, hty]
      split <;> decide
  place lowered := absurd lowered (address_ne_ok rfl)

/-! ### Control flow -/

theorem holds_equal (v : Word) : Condition.equal.holds (.ofResult v) = (v == 0) := rfl

theorem holds_notEqual (v : Word) : Condition.notEqual.holds (.ofResult v) = (v != 0) := rfl

/-- A branch goes to the label if its condition holds of the value in `rax`, and on if not. -/
theorem reaches_test (rest : UnitCode) (h : Amid start room stack memory m) (cond : Condition)
    {l : Label} {target : UnitCode} (hl : (unitCode link).seek? l program = some target) :
    ∃ m', (unitCode link).Reaches program ⟨branch cond l ++ rest, m⟩
        ⟨if cond.holds (.ofResult (m.gp .rax)) then target else rest, m'⟩ ∧
      Amid start room stack memory m' ∧ m'.gp .rax = m.gp .rax := by
  refine ⟨{ m with flags := .ofResult (m.gp .rax &&& m.gp .rax) }, ?_, h.alike (.setFlags m _), rfl⟩
  refine .trans (Language.reaches_next rfl) ?_
  split
  case isTrue hc =>
    refine Language.reaches_branch (l := l) ?_ hl
    simp only [unitCode, Instruction.effect, BitVec.and_self, hc, if_true]
  case isFalse hc =>
    refine Language.reaches_next ?_
    simp only [unitCode, Instruction.effect, BitVec.and_self, hc, Bool.false_eq_true, if_false]

theorem reaches_label (l : Label) (m : Machine) :
    (unitCode link).Reaches program ⟨.label l :: rest, m⟩ ⟨rest, m⟩ :=
  Language.reaches_next rfl

theorem reaches_jump {l : Label} {target : UnitCode} (m : Machine)
    (hl : (unitCode link).seek? l program = some target) :
    (unitCode link).Reaches program ⟨block [.jmp l] ++ rest, m⟩ ⟨target, m⟩ :=
  Language.reaches_branch rfl hl

/-- Conditions are 0 or 1. -/
theorem value_of_isCondition {s : Surroundings} {e : Expr} (he : e.IsCondition) {v : Int}
    {memory memory' : Memory} (h : s.value e memory = .ok (v, memory')) : v = 0 ∨ v = 1 := by
  cases e with
  | int n w =>
      obtain ⟨rfl, _⟩ := pure_eq_ok.mp h
      rcases he with rfl | rfl
      · exact .inl (by simp [IntType.value])
      · exact .inr (by simp [IntType.value])
  | compare n op l r =>
      simp only [Surroundings.value, bind_eq_ok, pure_eq_ok] at h
      obtain ⟨_, _, _, _, _, _, rfl, _⟩ := h
      split <;> simp
  | logic n op l r =>
      cases op <;>
      · simp only [Surroundings.value, bind_eq_ok] at h
        obtain ⟨a, _, _, h⟩ := h
        split at h
        · exact (pure_eq_ok.mp h).1 ▸ by simp
        · obtain ⟨b, _, _, h⟩ := bind_eq_ok.mp h
          rw [← (pure_eq_ok.mp h).1]
          split <;> simp
  | _ => exact he.elim

theorem simulated_logic {n : Note} {op : LogicOp} {l r : Expr}
    (hl : Simulated link program c start room l) (hr : Simulated link program c start room r)
    (condL : l.IsCondition) (condR : r.IsCondition) (voidL : l.ty.isVoid = false)
    (voidR : r.ty.isVoid = false) (hty : n.ty = .int .int) :
    Simulated link program c start room (.logic n op l r) where
  value {_ stop _ _ stack _ _ rest} lowered placed h fits := by
    simp only [expr, bind_eq_ok, pure_eq_ok, newLabel_eq_ok] at lowered
    obtain ⟨_, _, ⟨rfl, rfl⟩, left, _, lowerL, right, _, lowerR, rfl, rfl⟩ := lowered
    change 8 * (stack.length + max l.pushes r.pushes) ≤ room at fits
    simp only [Language.placed_append, List.append_assoc] at placed ⊢
    obtain ⟨placedL, -, placedR, stopPlaced, -⟩ := placed
    have stopAt := stopPlaced _ rfl
    have bit {v : Int} (hv : v = 0 ∨ v = 1) : IntType.int.Represents v := by
      rcases hv with rfl | rfl <;> decide
    have leaves {v : Int} {memory' : Memory} {m' : Machine} (hv : v = 0 ∨ v = 1)
        (amid : Amid start room stack memory' m') (rax : m'.gp .rax = BitVec.ofInt 64 v) :
        Leaves start room stack (Expr.logic n op l r).ty v memory' m' := by
      refine ⟨amid, fun _ => rax, fun _ => ?_⟩
      rw [Expr.ty, Expr.note, hty]
      exact bit hv
    have second {memory' : Memory} {m' : Machine} (amid : Amid start room stack memory' m') :
        Meets link program (do
          let b ← (c.surroundings link start room).value r
          return if b = 0 then 0 else 1) memory' ⟨right ++ .label stop :: rest, m'⟩ rest
          (Leaves start room stack (Expr.logic n op l r).ty) := by
      refine (hr.value lowerR placedR amid (by omega)).bind fun b memory₂ m₂ evalR right => ?_
      have hb := value_of_isCondition condR evalR
      refine Meets.pure (reaches_label _ _) (leaves (by split <;> simp) right.amid ?_)
      rw [right.rax voidR]
      rcases hb with rfl | rfl <;> rfl
    cases op with
    | and =>
        rw [Surroundings.value]
        refine (hl.value lowerL placedL h (by omega)).bind fun a memory₁ m₁ evalL left => ?_
        obtain ⟨m₂, run, amid, rax⟩ := reaches_test (right ++ .label stop :: rest)
          left.amid .equal stopAt
        rw [holds_equal, left.rax voidL] at run
        rw [left.rax voidL] at rax
        rcases value_of_isCondition condL evalL with rfl | rfl
        · exact Meets.pure (run.trans (reaches_label _ _)) (leaves (.inl rfl) amid rax)
        · exact .of_reaches run (second amid)
    | or =>
        rw [Surroundings.value]
        refine (hl.value lowerL placedL h (by omega)).bind fun a memory₁ m₁ evalL left => ?_
        obtain ⟨m₂, run, amid, rax⟩ := reaches_test (right ++ .label stop :: rest)
          left.amid .notEqual stopAt
        rw [holds_notEqual, left.rax voidL] at run
        rw [left.rax voidL] at rax
        rcases value_of_isCondition condL evalL with rfl | rfl
        · exact .of_reaches run (second amid)
        · exact Meets.pure (run.trans (reaches_label _ _)) (leaves (.inr rfl) amid rax)
  place lowered := absurd lowered (address_ne_ok rfl)

end Lowering
end LiveC
