import LiveC.Proofs.Labels
import LiveC.Proofs.ParserState

/-!
Lowering of what the parser hands on never fails: expressions and statements that are well
typed and ready have code, wherever their context has a place for each variable and string
literal, and a function has code unless its frame is too large.
-/

namespace LiveC
namespace Lowering

/-- Lowering succeeds, whatever labels have been made. -/
def Succeeds {α : Type} (x : Lowering α) : Prop := ∀ n, ∃ a n', x n = .ok (a, n')

namespace Succeeds

variable {α β : Type} {x : Lowering α} {f : α → Lowering β}

theorem pure {a : α} : Succeeds (Pure.pure a : Lowering α) := fun n => ⟨a, n, rfl⟩

theorem bind (h : Succeeds x) (hf : ∀ a, Succeeds (f a)) : Succeeds (x >>= f) := by
  intro n
  obtain ⟨a, k, run⟩ := h n
  obtain ⟨b, n', run'⟩ := hf a k
  exact ⟨b, n', bind_eq_ok.mpr ⟨a, k, run, run'⟩⟩

theorem ite {c : Prop} [Decidable c] {y : Lowering α} (hx : c → Succeeds x) (hy : ¬c → Succeeds y) :
    Succeeds (if c then x else y) := by
  split
  case isTrue h => exact hx h
  case isFalse h => exact hy h

theorem newLabel : Succeeds Lowering.newLabel := fun n => ⟨n, n + 1, rfl⟩

end Succeeds

/-! ### Operators -/

theorem storeValue_succeeds {ty : CType} (h : ty.isScalar = true) (a : Address) :
    Succeeds (storeValue ty a) := by
  cases ty with
  | int | pointer | double => exact .pure
  | void | array | function => cases h

theorem operation_succeeds {op : BinaryOp} {ty : CType}
    (h : Expr.Takes op ty ∨ ty.isPointer = true) : Succeeds (operation op ty) := by
  refine .ite (fun double => ?_) fun _ => .pure
  cases ty with
  | double =>
      cases op with
      | add | sub | mul | div => exact .pure
      | rem | shl | shr | bitAnd | bitOr | bitXor => rcases h with h | h <;> cases h
  | void | int | pointer | array | function => cases double

theorem conversion_succeeds (source target : CType) : Succeeds (conversion source target) := by
  refine .ite (fun _ => .pure) fun _ => ?_
  cases source.isDouble <;> cases target.isDouble
  case false.true =>
    exact .ite (fun _ => .bind .newLabel fun _ => .bind .newLabel fun _ => .pure) fun _ => .pure
  all_goals exact .pure

theorem stepping_succeeds {delta : Word} (h : (delta.setWidth 32).signExtend 64 = delta)
    (ty : CType) (before : Bool) : Succeeds (stepping ty delta before) := by
  unfold stepping
  refine .ite (fun _ => .pure) fun _ => ?_
  dsimp only
  rw [if_neg (not_not_intro h)]
  exact .pure

theorem compound_succeeds {op : BinaryOp} {opTy targetTy : CType}
    (compute : Expr.Takes op opTy ∨ opTy.isPointer = true) (scalar : targetTy.isScalar = true)
    (valueTy : CType) (target value : UnitCode) :
    Succeeds (compound op opTy targetTy valueTy target value) :=
  .bind (conversion_succeeds _ _) fun _ => .bind (operation_succeeds compute) fun _ =>
    .bind (conversion_succeeds _ _) fun _ => .bind (storeValue_succeeds scalar _) fun _ => .pure

/-! ### Arguments -/

/-- The arguments of given types find registers behind those that are taken. -/
def Passes (taken : ArgumentRegisters) (tys : List CType) : Prop :=
  taken.general + (tys.filter (!·.isDouble)).length ≤ maxIntArgs ∧
    taken.vector + (tys.filter (·.isDouble)).length ≤ maxDoubleArgs

theorem passes_of_fitsRegisters {tys : List CType} (h : Expr.fitsRegisters tys = true) :
    Passes {} tys := by
  simp only [Expr.fitsRegisters, Bool.and_eq_true, decide_eq_true_eq] at h
  simpa [Passes] using h

theorem Passes.cons {taken : ArgumentRegisters} {ty : CType} {tys : List CType}
    (h : Passes taken (ty :: tys)) :
    ∃ r taken', taken.assign? (bankOf ty) = some (r, taken') ∧ Passes taken' tys := by
  obtain ⟨general, vector⟩ := h
  unfold bankOf
  cases double : ty.isDouble with
  | true =>
      simp only [List.filter_cons, double, Bool.not_true, Bool.false_eq_true, if_false, if_true,
        List.length_cons] at general vector
      have free : taken.vector < ArgumentRegisters.vectorRegisters.length :=
        Nat.lt_of_lt_of_le (by omega : taken.vector < maxDoubleArgs) (by decide)
      refine ⟨.xmm ArgumentRegisters.vectorRegisters[taken.vector],
        { taken with vector := taken.vector + 1 }, ?_, general, by dsimp only; omega⟩
      rw [if_pos rfl, ArgumentRegisters.assign?, List.getElem?_eq_getElem free, Option.map_some]
  | false =>
      simp only [List.filter_cons, double, Bool.not_false, Bool.false_eq_true, if_false, if_true,
        List.length_cons] at general vector
      have free : taken.general < ArgumentRegisters.generalRegisters.length :=
        Nat.lt_of_lt_of_le (by omega : taken.general < maxIntArgs) (by decide)
      refine ⟨.gp ArgumentRegisters.generalRegisters[taken.general],
        { taken with general := taken.general + 1 }, ?_, by dsimp only; omega, vector⟩
      rw [if_neg nofun, ArgumentRegisters.assign?, List.getElem?_eq_getElem free, Option.map_some]

theorem Passes.assignAll? {taken : ArgumentRegisters} {tys : List CType} (h : Passes taken tys) :
    ∃ r, ArgumentRegisters.assignAll? taken (tys.map bankOf) = some r := by
  induction tys generalizing taken with
  | nil => exact ⟨_, rfl⟩
  | cons ty tys ih =>
      obtain ⟨r, taken', first, others⟩ := h.cons
      obtain ⟨rs, last⟩ := ih others
      exact ⟨(r :: rs.1, rs.2), by simp [ArgumentRegisters.assignAll?, first, last]⟩

theorem calling_succeeds {argTys : List CType} (h : Expr.fitsRegisters argTys = true) (depth : Nat)
    (signature : Signature) (call : UnitCode) : Succeeds (calling depth signature argTys call) := by
  obtain ⟨r, assigned⟩ := (passes_of_fitsRegisters h).assignAll?
  unfold calling
  rw [assigned]
  exact .pure

/-! ### Expressions -/

/-- A context has a place for every variable and every string literal. -/
structure Context.Covers (c : Context) (Γ : TypingContext) (strings : Nat) : Prop where
  locals : ∀ id ty, Γ.varType id ty → id < c.offsets.length
  strings : strings ≤ c.layout.strings.length

variable {c : Context} {Γ : TypingContext} {strings : Nat}

theorem variableAddress_succeeds {id : Nat} (h : id < c.offsets.length) :
    Succeeds (c.variableAddress id) := by
  unfold Context.variableAddress
  rw [List.getElem?_eq_getElem h]
  exact .pure

theorem stringAddress_succeeds {id : Nat} (h : id < c.layout.strings.length) :
    Succeeds (c.stringAddress id) := by
  unfold Context.stringAddress
  rw [List.getElem?_eq_getElem h]
  exact .pure

theorem arguments_succeeds {args : List Expr} (h : ∀ a ∈ args, ∀ depth, Succeeds (expr c depth a))
    (depth : Nat) : Succeeds (arguments c depth args) := by
  induction args generalizing depth with
  | nil => exact .pure
  | cons a args ih =>
      obtain ⟨first, others⟩ := List.forall_mem_cons.mp h
      simp only [arguments]
      exact .bind (first depth) fun _ => .bind (ih others _) fun _ => .pure

theorem isPlace_of_isLvalue {e : Expr} (h : e.isLvalue = true) : e.isPlace = true := by
  cases e with
  | var | global | deref => rfl
  | _ => cases h

/-- Every expression has code, and so has the address of whatever designates an object. -/
theorem expr_address_succeed (covers : c.Covers Γ strings) {e : Expr} (typed : e.WellTyped Γ)
    (ready : e.Ready strings) :
    (∀ depth, Succeeds (expr c depth e)) ∧
      (e.isPlace = true → ∀ depth, Succeeds (address c depth e)) := by
  induction e with
  | int n v | float n v => exact ⟨fun _ => .pure, nofun⟩
  | str n id =>
      have known := Nat.lt_of_lt_of_le ready.here.2.2 covers.strings
      exact ⟨fun _ => stringAddress_succeeds known, fun _ _ => stringAddress_succeeds known⟩
  | var n id =>
      have known := variableAddress_succeeds (covers.locals id _ typed.here.2)
      exact ⟨fun _ => .bind known fun _ => .pure, fun _ _ => .bind known fun _ => .pure⟩
  | global n name => exact ⟨fun _ => .pure, fun _ _ => .pure⟩
  | deref n e ih =>
      have h := (ih (typed.part (.head _)) (ready.part (.head _))).1
      exact ⟨fun _ => .bind (h _) fun _ => .pure, fun _ => h⟩
  | addrOf n e ih =>
      exact ⟨(ih (typed.part (.head _)) (ready.part (.head _))).2 typed.here.2.1, nofun⟩
  | unary n op e ih =>
      have h := (ih (typed.part (.head _)) (ready.part (.head _))).1
      exact ⟨fun _ => .bind (h _) fun _ => .pure, nofun⟩
  | binary n op l r ihl ihr =>
      have hl := (ihl (typed.part (.head _)) (ready.part (.head _))).1
      have hr := (ihr (typed.part (.tail _ (.head _))) (ready.part (.tail _ (.head _)))).1
      have compute : Expr.Takes op n.ty ∨ n.ty.isPointer = true :=
        typed.here.2.2.imp And.right And.left
      exact ⟨fun _ => .bind (hl _) fun _ => .bind (hr _) fun _ =>
        .bind (operation_succeeds compute) fun _ => .pure, nofun⟩
  | compare n op l r ihl ihr =>
      have hl := (ihl (typed.part (.head _)) (ready.part (.head _))).1
      have hr := (ihr (typed.part (.tail _ (.head _))) (ready.part (.tail _ (.head _)))).1
      exact ⟨fun _ => .bind (hl _) fun _ => .bind (hr _) fun _ => .pure, nofun⟩
  | logic n op l r ihl ihr =>
      have hl := (ihl (typed.part (.head _)) (ready.part (.head _))).1
      have hr := (ihr (typed.part (.tail _ (.head _))) (ready.part (.tail _ (.head _)))).1
      exact ⟨fun _ => .bind .newLabel fun _ => .bind (hl _) fun _ => .bind (hr _) fun _ => .pure,
        nofun⟩
  | assign n target value iht ihv =>
      obtain ⟨lvalue, scalar, -, -⟩ := typed.here.2
      have ht := (iht (typed.part (.head _)) (ready.part (.head _))).2 (isPlace_of_isLvalue lvalue)
      have hv := (ihv (typed.part (.tail _ (.head _))) (ready.part (.tail _ (.head _)))).1
      refine ⟨fun depth => ?_, nofun⟩
      by_cases variable' : ∃ k id, target = .var k id
      · obtain ⟨k, id, rfl⟩ := variable'
        have known := covers.locals id _ (typed.part (.head _)).here.2
        exact .bind (hv _) fun _ => .bind (variableAddress_succeeds known) fun a =>
          .bind (storeValue_succeeds scalar a) fun _ => .pure
      · rw [expr_assign fun k id e => variable' ⟨k, id, e⟩]
        exact .bind (ht _) fun _ => .bind (hv _) fun _ =>
          .bind (storeValue_succeeds scalar _) fun _ => .pure
  | opAssign n op ty target value iht ihv =>
      obtain ⟨lvalue, -, operands⟩ := typed.here.2
      have ht := (iht (typed.part (.head _)) (ready.part (.head _))).2 (isPlace_of_isLvalue lvalue)
      have hv := (ihv (typed.part (.tail _ (.head _))) (ready.part (.tail _ (.head _)))).1
      have compute : Expr.Takes op ty ∨ ty.isPointer = true :=
        operands.imp (fun h => h.2.1) fun h => by rw [h.2.2.1]; exact h.1
      have scalar : target.ty.isScalar = true := by
        rcases operands with ⟨-, -, takes⟩ | ⟨pointer, -⟩
        · exact CType.isScalar_of_isArithmetic (CType.isArithmetic_of_takes takes)
        · exact CType.isScalar_of_isPointer pointer
      exact ⟨fun _ => .bind (ht _) fun _ => .bind (hv _) fun _ =>
        compound_succeeds compute scalar _ _ _, nofun⟩
  | step n delta before target iht =>
      obtain ⟨lvalue, -, -⟩ := typed.here.2
      have ht := (iht (typed.part (.head _)) (ready.part (.head _))).2 (isPlace_of_isLvalue lvalue)
      exact ⟨fun _ => .bind (ht _) fun _ => .bind (stepping_succeeds ready.here.2.2 _ _) fun _ =>
        .pure, nofun⟩
  | cond n c t f ihc iht ihf =>
      have hc := (ihc (typed.part (.head _)) (ready.part (.head _))).1
      have ht := (iht (typed.part (.tail _ (.head _))) (ready.part (.tail _ (.head _)))).1
      have hf := (ihf (typed.part (.tail _ (.tail _ (.head _))))
        (ready.part (.tail _ (.tail _ (.head _))))).1
      exact ⟨fun _ => .bind .newLabel fun _ => .bind .newLabel fun _ => .bind (hc _) fun _ =>
        .bind (ht _) fun _ => .bind (hf _) fun _ => .pure, nofun⟩
  | cast n e ih =>
      have h := (ih (typed.part (.head _)) (ready.part (.head _))).1
      exact ⟨fun _ => .bind (h _) fun _ => .bind (conversion_succeeds _ _) fun _ => .pure, nofun⟩
  | call n name s args ih =>
      obtain ⟨-, -, -, -, -, fits⟩ := typed.here.2
      have h := arguments_succeeds fun a member =>
        (ih a member (typed.part member) (ready.part member)).1
      exact ⟨fun _ => .bind (h _) fun _ => .bind (calling_succeeds fits _ _ _) fun _ => .pure, nofun⟩
  | callPointer n s callee args ihc ih =>
      obtain ⟨-, -, -, -, -, fits⟩ := typed.here.2
      have hc := (ihc (typed.part (.head _)) (ready.part (.head _))).1
      have h := arguments_succeeds fun a member =>
        (ih a member (typed.part (.tail _ member)) (ready.part (.tail _ member))).1
      exact ⟨fun _ => .bind (h _) fun _ => .bind (hc _) fun _ =>
        .bind (calling_succeeds fits _ _ _) fun _ => .pure, nofun⟩
  | comma n l r ihl ihr =>
      have hl := (ihl (typed.part (.head _)) (ready.part (.head _))).1
      have hr := (ihr (typed.part (.tail _ (.head _))) (ready.part (.tail _ (.head _)))).1
      exact ⟨fun _ => .bind (hl _) fun _ => .bind (hr _) fun _ => .pure, nofun⟩

theorem expr_succeeds (covers : c.Covers Γ strings) {e : Expr} (typed : e.WellTyped Γ)
    (ready : e.Ready strings) (depth : Nat) : Succeeds (expr c depth e) :=
  (expr_address_succeed covers typed ready).1 depth

/-! ### Statements -/

theorem initStores_succeeds (covers : c.Covers Γ strings) {stores : List InitStore}
    (typed : ∀ s ∈ stores, s.value.WellTyped Γ ∧ s.value.ty.isScalar = true)
    (ready : ∀ s ∈ stores, s.value.Ready strings) (offset : BitVec 32) :
    Succeeds (initStores c offset stores) := by
  induction stores with
  | nil => exact .pure
  | cons s stores ih =>
      obtain ⟨⟨typedS, scalar⟩, typed⟩ := List.forall_mem_cons.mp typed
      obtain ⟨readyS, ready⟩ := List.forall_mem_cons.mp ready
      exact .bind (expr_succeeds covers typedS readyS _) fun _ =>
        .bind (storeValue_succeeds scalar _) fun _ => .bind (ih typed ready) fun _ => .pure

theorem skipping_succeeds (covers : c.Covers Γ strings) {e : Expr} (typed : e.WellTyped Γ)
    (ready : e.Ready strings) (l : Label) : Succeeds (skipping c e l) :=
  .bind (expr_succeeds covers typed ready _) fun _ => .pure

theorem optional_succeeds (covers : c.Covers Γ strings) {e : Option Expr}
    (typed : ∀ e' ∈ e, e'.WellTyped Γ) (ready : ∀ e' ∈ e, e'.Ready strings) :
    Succeeds (optional c e) := by
  cases e with
  | none => exact .pure
  | some e => exact expr_succeeds covers (typed e rfl) (ready e rfl) _

theorem skippingOptional_succeeds (covers : c.Covers Γ strings) {e : Option Expr}
    (typed : ∀ e' ∈ e, e'.WellTyped Γ) (ready : ∀ e' ∈ e, e'.Ready strings) (l : Label) :
    Succeeds (skippingOptional c l e) := by
  cases e with
  | none => exact .pure
  | some e => exact skipping_succeeds covers (typed e rfl) (ready e rfl) l

variable {fc : FunctionContext} {ret : CType}

theorem stmts_succeeds {body : List Stmt} {loop : Option LoopLabels}
    (h : ∀ s ∈ body, Succeeds (stmt fc loop s)) : Succeeds (stmts fc loop body) := by
  induction body with
  | nil => exact .pure
  | cons s body ih =>
      obtain ⟨first, others⟩ := List.forall_mem_cons.mp h
      exact .bind first fun _ => .bind (ih others) fun _ => .pure

/-- Every statement has code; jumps out of loops have some where a loop is open. -/
theorem stmt_succeeds (covers : fc.toContext.Covers Γ strings) {s : Stmt} {inLoop : Prop}
    {loop : Option LoopLabels} (inside : inLoop → loop.isSome = true) (typed : s.WellTyped Γ ret)
    (ready : s.Ready strings fc.offsets.length inLoop) : Succeeds (stmt fc loop s) := by
  induction s generalizing inLoop loop with
  | expr e => exact expr_succeeds covers typed ready _
  | init id zero stores =>
      exact .bind (variableAddress_succeeds ready.1) fun _ =>
        .bind (initStores_succeeds covers typed ready.2 _) fun _ => .pure
  | block body ih =>
      refine stmts_succeeds fun s member => ih s member inside ?_ ?_
      · exact Stmt.allWellTyped_iff.mp typed s member
      · exact Stmt.allReady_iff.mp ready s member
  | ite e t f iht ihf =>
      obtain ⟨⟨typedE, -⟩, typedT, typedF⟩ := typed
      obtain ⟨readyE, readyT, readyF⟩ := ready
      have test := skipping_succeeds covers typedE readyE
      have yes := iht inside typedT readyT
      cases f with
      | none => exact .bind .newLabel fun _ => .bind (test _) fun _ => .bind yes fun _ => .pure
      | some f =>
          have no := ihf f rfl inside typedF readyF
          exact .bind .newLabel fun _ => .bind (test _) fun _ => .bind yes fun _ =>
            .bind .newLabel fun _ => .bind no fun _ => .pure
  | whileLoop e body ih =>
      obtain ⟨⟨typedE, -⟩, typedB⟩ := typed
      exact .bind .newLabel fun _ => .bind .newLabel fun _ =>
        .bind (skipping_succeeds covers typedE ready.1 _) fun _ =>
          .bind (ih (fun _ => rfl) typedB ready.2) fun _ => .pure
  | doWhileLoop body e ih =>
      obtain ⟨⟨typedE, -⟩, typedB⟩ := typed
      exact .bind .newLabel fun _ => .bind .newLabel fun _ => .bind .newLabel fun _ =>
        .bind (ih (fun _ => rfl) typedB ready.2) fun _ =>
          .bind (expr_succeeds covers typedE ready.1 _) fun _ => .pure
  | forLoop start e step body ihs ihb =>
      obtain ⟨typedS, typedE, typedP, typedB⟩ := typed
      obtain ⟨readyS, readyE, readyP, readyB⟩ := ready
      have first : Succeeds (optionalStmt fc loop start) := by
        cases start with
        | none => exact .pure
        | some s => exact ihs s rfl inside typedS readyS
      exact .bind first fun _ => .bind .newLabel fun _ => .bind .newLabel fun _ =>
        .bind .newLabel fun _ =>
          .bind (skippingOptional_succeeds covers (fun e member => (typedE e member).1) readyE _) fun _ =>
            .bind (ihb (fun _ => rfl) typedB readyB) fun _ =>
              .bind (optional_succeeds covers typedP readyP) fun _ => .pure
  | breakLoop | continueLoop =>
      obtain ⟨l, rfl⟩ := Option.isSome_iff_exists.mp (inside ready)
      exact .pure
  | returnValue value =>
      exact .bind (optional_succeeds covers (fun e member => (typed e member).1) ready) fun _ => .pure
  | empty => exact .pure

/-! ### Functions -/

theorem spillParameters_succeeds {tys : List CType} {i : Nat} {taken : ArgumentRegisters}
    (passes : Passes taken tys) (slots : i + tys.length ≤ c.offsets.length) :
    Succeeds (spillParameters c i taken tys) := by
  induction tys generalizing i taken with
  | nil => exact .pure
  | cons ty tys ih =>
      rw [List.length_cons] at slots
      obtain ⟨r, taken', assigned, others⟩ := passes.cons
      simp only [spillParameters, assigned]
      exact .bind (variableAddress_succeeds (by omega)) fun _ =>
        .bind (ih others (by omega)) fun _ => .pure

/-- A frame with another slot, which is the lowest. -/
structure Allocated (f : Frame) (size align : Nat) (f' : Frame) : Prop where
  used : f'.used =
    Frame.alignDown (f.used + max size 1 + (max align 1 - 1)) (max align 1)
  slots : f'.slots = f.slots ++ [-(f'.used : Int)]
  stop_lt : f.used + max size 1 + (max align 1 - 1) < Frame.numberLimit
  used_le : f'.used ≤ Frame.maxSize

theorem allocated_of_allocate? {f f' : Frame} {size align : Nat} {offset : Int}
    (h : f.allocate? size align = some (offset, f')) : Allocated f size align f' := by
  unfold Frame.allocate? at h
  dsimp only at h
  split at h
  case isTrue fits =>
    cases h
    exact ⟨rfl, rfl, fits.2.1, fits.2.2⟩
  case isFalse => cases h

/-- A frame has a slot for each variable, unless it gets too large. -/
theorem allocateLocals_cases (f : Frame) (params : Nat) (vars : List LocalVar) :
    (∃ name, allocateLocals f params vars = .error (.frameTooLarge name)) ∨
      ∃ f', allocateLocals f params vars = .ok f' ∧
        f'.slots.length = f.slots.length + vars.length := by
  induction vars generalizing f params with
  | nil => exact .inr ⟨f, rfl, rfl⟩
  | cons v vars ih =>
      unfold allocateLocals
      cases slot : if 0 < params then f.allocate? 8 8 else f.allocate? v.ty.size v.ty.align with
      | none => exact .inl ⟨v.name, rfl⟩
      | some r =>
          have one : r.2.slots.length = f.slots.length + 1 := by
            split at slot <;>
              rw [(allocated_of_allocate? slot).slots, List.length_append, List.length_singleton]
          refine (ih r.2 (params - 1)).imp id fun ⟨f', run, slots⟩ => ⟨f', run, ?_⟩
          rw [slots, one, List.length_cons]
          omega

end Lowering
end LiveC
