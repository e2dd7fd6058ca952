import LiveC.Typing.Operator

/-!
Expressions without their places. No typing step looks at a place: applied to expressions without
places it gives what it gives otherwise, without places.
-/

namespace LiveC

/-- Where what has no place is. -/
def Location.nowhere : Location := ⟨0, 0⟩

def Note.bare (n : Note) : Note := { n with loc := .nowhere }

def SemanticNotice.bare (n : SemanticNotice) : SemanticNotice := { n with loc := .nowhere }

def SemanticFault.bare (f : SemanticFault) : SemanticFault := { f with loc := .nowhere }

namespace Expr

mutual

/-- The expression without its places. -/
def bare : Expr → Expr
  | int n v => int n.bare v
  | float n v => float n.bare v
  | str n id => str n.bare id
  | var n id => var n.bare id
  | global n name => global n.bare name
  | unary n op e => unary n.bare op (bare e)
  | binary n op l r => binary n.bare op (bare l) (bare r)
  | compare n op l r => compare n.bare op (bare l) (bare r)
  | logic n op l r => logic n.bare op (bare l) (bare r)
  | assign n t v => assign n.bare (bare t) (bare v)
  | opAssign n op ty t v => opAssign n.bare op ty (bare t) (bare v)
  | step n d b t => step n.bare d b (bare t)
  | cond n c t f => cond n.bare (bare c) (bare t) (bare f)
  | cast n e => cast n.bare (bare e)
  | deref n e => deref n.bare (bare e)
  | addrOf n e => addrOf n.bare (bare e)
  | call n name s args => call n.bare name s (bareAll args)
  | callPointer n s c args => callPointer n.bare s (bare c) (bareAll args)
  | comma n l r => comma n.bare (bare l) (bare r)

def bareAll : List Expr → List Expr
  | [] => []
  | e :: es => bare e :: bareAll es

end

theorem bareAll_eq (es : List Expr) : bareAll es = es.map bare := by
  induction es with
  | nil => rfl
  | cons e es ih => rw [bareAll, ih, List.map_cons]

variable (e l r : Expr) (n : Note) (loc : Location)

/-! ### What expressions are -/

@[simp] theorem note_bare : e.bare.note = e.note.bare := by
  cases e <;> simp only [bare, note]

@[simp] theorem ty_bare : e.bare.ty = e.ty := by
  rw [ty, note_bare]
  rfl

@[simp] theorem loc_bare : e.bare.loc = .nowhere := by
  rw [Expr.loc, note_bare]
  rfl

@[simp] theorem withNote_bare : (e.withNote n).bare = e.bare.withNote n.bare := by
  cases e <;> simp only [bare, withNote]

@[simp] theorem isLvalue_bare : e.bare.isLvalue = e.isLvalue := by
  cases e <;> rfl

@[simp] theorem isBoolean_bare : e.bare.isBoolean = e.isBoolean := by
  cases e <;> rfl

@[simp] theorem intValue?_bare : e.bare.intValue? = e.intValue? := by
  cases e <;> rfl

mutual

@[simp] theorem height_bare : (e : Expr) → e.bare.height = e.height
  | int .. | float .. | str .. | var .. | global .. => by simp only [bare, height]
  | unary _ _ e | step _ _ _ e | cast _ e | deref _ e | addrOf _ e => by
    simp only [bare, height, height_bare e]
  | binary _ _ l r | compare _ _ l r | logic _ _ l r | assign _ l r | opAssign _ _ _ l r
  | comma _ l r => by simp only [bare, height, height_bare l, height_bare r]
  | cond _ c t f => by simp only [bare, height, height_bare c, height_bare t, height_bare f]
  | call _ _ _ args => by simp only [bare, height, heightAll_bare args]
  | callPointer _ _ c args => by simp only [bare, height, height_bare c, heightAll_bare args]

theorem heightAll_bare : (es : List Expr) → heightAll (bareAll es) = heightAll es
  | [] => rfl
  | e :: es => by simp only [bareAll, heightAll, height_bare e, heightAll_bare es]

end

/-! ### Conversions and folding -/

@[simp] theorem rvalue_bare : e.rvalue.bare = e.bare.rvalue := by
  unfold rvalue
  rw [ty_bare]
  split <;> simp only [bare, Note.bare, loc_bare]

@[simp] theorem convert_bare (target : CType) :
    (e.convert target).bare = e.bare.convert target := by
  unfold convert
  rw [ty_bare]
  split
  · rfl
  · cases e <;> cases target <;> rfl

theorem zero_bare : (zero n).bare = zero n.bare := by
  obtain ⟨ty, loc⟩ := n
  cases ty <;> simp only [zero, bare, Note.bare]

theorem compareNode_bare (op : CompareOp) :
    (compareNode op l r loc).bare = compareNode op l.bare r.bare .nowhere := by
  cases l with
  | int => cases r <;> rfl
  | _ => rfl

theorem fold_bare (op : BinaryOp) : (fold op l r n).bare = fold op l.bare r.bare n.bare := by
  obtain ⟨ty, loc⟩ := n
  cases l with
  | int m a =>
      cases r with
      | int k b =>
          cases ty with
          | int t =>
              simp only [fold, bare, Note.bare]
              cases op.foldInt? t a b <;> rfl
          | _ => rfl
      | _ => rfl
  | float m a =>
      cases r with
      | float k b =>
          cases ty with
          | double =>
              simp only [fold, bare, Note.bare]
              cases op.foldDouble? a b <;> rfl
          | _ => rfl
      | _ => rfl
  | _ => rfl

theorem scaleIndex_bare (pointer : CType) :
    (e.scaleIndex pointer).bare = e.bare.scaleIndex pointer := by
  unfold scaleIndex
  dsimp only
  split
  · exact convert_bare ..
  · rw [fold_bare, convert_bare]
    simp only [bare, Note.bare, ← convert_bare, loc_bare]

theorem pointerOffset_bare (op : BinaryOp) :
    (pointerOffset op l r loc).bare = pointerOffset op l.bare r.bare .nowhere := by
  simp only [pointerOffset, bare, scaleIndex_bare, ty_bare, Note.bare]

theorem pointerDifference_bare (pointee : CType) :
    (pointerDifference l r pointee loc).bare =
      pointerDifference l.bare r.bare pointee .nowhere := by
  unfold pointerDifference
  dsimp only
  split <;> simp only [bare, convert_bare, Note.bare]

end Expr

/-! ### Typing steps -/

namespace Typing

/-- Without places, a typing step is another one. -/
structure Bare {α β : Type} (f : α → β) (x : Typing α) (y : Typing β) : Prop where
  run : ∀ ws, y.run (ws.map SemanticNotice.bare) = match x.run ws with
    | .ok (a, us) => .ok (f a, us.map SemanticNotice.bare)
    | .error e => .error e.bare

namespace Bare

variable {α β γ δ : Type} {f : α → β} {g : γ → δ} {x x' : Typing α} {y y' : Typing β}

theorem pure {a : α} {b : β} (h : f a = b) : Bare f (Pure.pure a) (Pure.pure b) := by
  subst h
  exact ⟨fun _ => rfl⟩

theorem fail (loc : Location) (e : SemanticError) :
    Bare f (Typing.fail loc e) (Typing.fail .nowhere e) := ⟨fun _ => rfl⟩

theorem failed (loc : Location) (e : SemanticError) {k : γ → Typing α} {k' : δ → Typing β} :
    Bare f (Typing.fail loc e >>= k) (Typing.fail .nowhere e >>= k') := ⟨fun _ => rfl⟩

theorem warn (loc : Location) (w : SemanticWarning) :
    Bare (id : Unit → Unit) (Typing.warn loc w) (Typing.warn .nowhere w) := by
  refine ⟨fun ws => ?_⟩
  have run (loc : Location) (ws : List SemanticNotice) :
      (Typing.warn loc w).run ws = .ok ((), ws ++ [⟨loc, w⟩]) := rfl
  rw [run, run]
  simp only [List.map_append, List.map_cons, List.map_nil, SemanticNotice.bare, id]

theorem bind {k : α → Typing γ} {k' : β → Typing δ} (h : Bare f x y)
    (behind : ∀ a, Bare g (k a) (k' (f a))) : Bare g (x >>= k) (y >>= k') := by
  refine ⟨fun ws => ?_⟩
  rw [StateT.run_bind, StateT.run_bind, h.run ws]
  cases x.run ws with
  | error e => rfl
  | ok r => exact (behind r.1).run r.2

theorem ite {c : Prop} {_ : Decidable c} (h : c → Bare f x y) (h' : ¬c → Bare f x' y') :
    Bare f (if c then x else x') (if c then y else y') := by
  split
  case isTrue holds => exact h holds
  case isFalse fails => exact h' fails

end Bare

end Typing

namespace Expr

open Typing

variable (e l r : Expr) (loc : Location)

/-! ### Binary operators -/

theorem arithmetic_bare (op : BinaryOp) :
    Bare bare (arithmetic op l r loc) (arithmetic op l.bare r.bare .nowhere) := by
  unfold arithmetic
  rw [ty_bare, ty_bare]
  split
  case h_1 | h_2 =>
    exact .ite (fun _ => .fail ..) fun _ => .pure (pointerOffset_bare ..)
  case h_3 => exact .pure (pointerOffset_bare ..)
  case h_4 => exact .ite (fun _ => .fail ..) fun _ => .pure (pointerDifference_bare ..)
  case h_5 =>
    refine .ite (fun _ => .failed ..) fun _ => ?_
    dsimp only
    rw [← convert_bare, ← convert_bare, intValue?_bare]
    exact .ite (fun _ => .bind (.warn ..) fun _ => .pure (fold_bare ..)) fun _ =>
      .pure (fold_bare ..)

theorem comparison_bare (op : CompareOp) :
    Bare bare (comparison op l r loc) (comparison op l.bare r.bare .nowhere) := by
  unfold comparison
  rw [ty_bare, ty_bare, intValue?_bare, intValue?_bare]
  simp only [← convert_bare]
  refine .ite (fun _ => .pure (compareNode_bare ..)) fun _ => ?_
  split
  case h_1 => exact .pure (compareNode_bare ..)
  case h_2 | h_3 =>
    exact .ite (fun _ => .bind (.warn ..) fun _ => .pure (compareNode_bare ..)) fun _ =>
      .pure (compareNode_bare ..)
  case h_4 => exact .fail ..

theorem condition_bare : Bare bare e.condition e.bare.condition := by
  unfold condition
  simp only [← rvalue_bare, ty_bare, isBoolean_bare, loc_bare]
  refine .ite (fun _ => .fail ..) fun _ => .ite (fun _ => .pure rfl) fun _ => .pure ?_
  rw [compareNode_bare, zero_bare]
  rfl

theorem logical_bare (op : LogicOp) :
    Bare bare (logical op l r loc) (logical op l.bare r.bare .nowhere) := by
  refine .bind (condition_bare l) fun l => .bind (condition_bare r) fun r => ?_
  rw [intValue?_bare, intValue?_bare]
  split
  · exact .pure rfl
  · exact .pure rfl

theorem armsType_bare (t f : Expr) :
    Bare id (armsType t f loc) (armsType t.bare f.bare .nowhere) := by
  unfold armsType
  rw [ty_bare, ty_bare, intValue?_bare, intValue?_bare]
  refine .ite (fun _ => .pure rfl) fun _ => ?_
  split
  case h_1 => exact .pure rfl
  case h_2 => exact .ite (fun _ => .pure rfl) fun _ => .ite (fun _ => .pure rfl) fun _ => .pure rfl
  case h_3 | h_4 => exact .ite (fun _ => .pure rfl) fun _ => .fail ..
  case h_5 => exact .fail ..

theorem conditional_bare (c t f : Expr) :
    Bare bare (conditional c t f loc) (conditional c.bare t.bare f.bare .nowhere) := by
  refine .bind (condition_bare c) fun c => ?_
  simp only [← rvalue_bare]
  refine .bind (armsType_bare ..) fun ty => ?_
  refine .ite (fun _ => .pure (by rw [bare]; rfl)) fun _ => ?_
  rw [intValue?_bare]
  simp only [← convert_bare]
  split
  · exact .pure (apply_ite ..)
  · exact .pure (by rw [bare]; rfl)

/-! ### Assignment -/

theorem assignConvert_bare (target : CType) :
    Bare bare (e.assignConvert target loc) (e.bare.assignConvert target .nowhere) := by
  unfold assignConvert
  simp only [← rvalue_bare, ty_bare, intValue?_bare, ← convert_bare]
  have converted :
      Bare bare (pure (e.rvalue.convert target)) (pure (e.rvalue.convert target).bare) :=
    .pure rfl
  have warned (w : SemanticWarning) : Bare bare
      (do Typing.warn loc w; pure (e.rvalue.convert target))
      (do Typing.warn .nowhere w; pure (e.rvalue.convert target).bare) :=
    .bind (.warn ..) fun _ => converted
  refine .ite (fun _ => ?_) fun _ => converted
  split
  case h_1 => exact .ite (fun _ => warned _) fun _ => converted
  case h_2 => exact .ite (fun _ => warned _) fun _ => converted
  case h_3 => exact warned _
  case h_4 => exact .failed ..

theorem requireAssignable_bare :
    Bare id (e.requireAssignable loc) (e.bare.requireAssignable .nowhere) := by
  unfold requireAssignable
  rw [isLvalue_bare, ty_bare]
  exact .ite (fun _ => .fail ..) fun _ => .pure rfl

theorem assignment_bare (target value : Expr) :
    Bare bare (target.assignment value loc) (target.bare.assignment value.bare .nowhere) := by
  unfold assignment
  rw [ty_bare]
  refine .bind (assignConvert_bare ..) fun value => .pure ?_
  rw [bare]
  rfl

theorem opAssignment_bare (op : BinaryOp) (target value : Expr) :
    Bare bare (opAssignment op target value loc)
      (opAssignment op target.bare value.bare .nowhere) := by
  unfold opAssignment
  simp only [← rvalue_bare, ty_bare, ← convert_bare]
  refine .ite (fun _ => .ite (fun _ => .failed ..) fun _ => .pure ?_) fun _ =>
    .ite (fun _ => .failed ..) fun _ => .pure ?_
  · rw [bare, scaleIndex_bare]
    rfl
  · rw [bare]
    rfl

theorem stepNode_bare (increment before : Bool) :
    Bare bare (e.stepNode increment before loc) (e.bare.stepNode increment before .nowhere) := by
  unfold stepNode
  rw [isLvalue_bare, ty_bare]
  refine .ite (fun _ => .fail ..) fun _ => .pure ?_
  rw [bare]
  rfl

/-! ### Unary operators -/

theorem address_bare : Bare bare (e.address loc) (e.bare.address .nowhere) := by
  cases e with
  | deref m pointer => exact .pure (withNote_bare ..)
  | _ =>
      simp only [address, bare]
      exact .ite (fun _ => .pure (by simp only [bare]; rfl)) fun _ => .fail ..

theorem indirection_bare : Bare bare (e.indirection loc) (e.bare.indirection .nowhere) := by
  unfold indirection
  simp only [← rvalue_bare, ty_bare]
  split
  case h_1 pointee _ =>
    refine .ite (fun _ => .fail ..) fun _ => ?_
    cases e.rvalue with
    | addrOf m object =>
        change Bare bare (if object.ty = pointee then _ else _)
          (if object.bare.ty = pointee then _ else _)
        rw [ty_bare]
        exact .ite (fun _ => .pure rfl) fun _ => .pure rfl
    | _ => exact .pure rfl
  case h_2 => exact .fail ..

theorem promotedOperand_bare (op : Punct) (valid : CType → Bool) :
    Bare bare (promotedOperand op valid e loc) (promotedOperand op valid e.bare .nowhere) := by
  unfold promotedOperand
  simp only [← rvalue_bare, ty_bare, ← convert_bare]
  exact .ite (fun _ => .pure rfl) fun _ => .fail ..

theorem plus_bare : Bare bare (e.plus loc) (e.bare.plus .nowhere) := promotedOperand_bare ..

theorem negation_bare : Bare bare (e.negation loc) (e.bare.negation .nowhere) := by
  refine .bind (promotedOperand_bare ..) fun e => ?_
  cases e with
  | int n v =>
      obtain ⟨ty, place⟩ := n
      cases ty <;> exact .pure rfl
  | _ => exact .pure rfl

theorem complement_bare : Bare bare (e.complement loc) (e.bare.complement .nowhere) := by
  refine .bind (promotedOperand_bare ..) fun e => ?_
  cases e with
  | int n v =>
      obtain ⟨ty, place⟩ := n
      cases ty <;> exact .pure rfl
  | _ => exact .pure rfl

theorem logicalNot_bare : Bare bare (e.logicalNot loc) (e.bare.logicalNot .nowhere) := by
  unfold logicalNot
  simp only [← rvalue_bare, ty_bare]
  refine .ite (fun _ => .pure ?_) fun _ => .fail ..
  rw [compareNode_bare, zero_bare]
  rfl

theorem sizeOf_bare (ty : CType) : Bare bare (sizeOf ty loc) (sizeOf ty .nowhere) :=
  .ite (fun _ => .pure rfl) fun _ => .fail ..

/-! ### Calls -/

/-- The callee without places. -/
def Callee.bare : Callee → Callee
  | .direct name s => .direct name s
  | .pointer p s => .pointer p.bare s

theorem Callee.signature_bare (c : Callee) : c.bare.signature = c.signature := by
  cases c <;> rfl

theorem Callee.name_bare (c : Callee) : c.bare.name = c.name := by
  cases c <;> rfl

theorem callee_bare : Bare Callee.bare (e.callee loc) (e.bare.callee .nowhere) := by
  have pointer := e.rvalue_bare
  have pointee : e.bare.rvalue.ty = e.rvalue.ty := by rw [← pointer, ty_bare]
  have type := e.ty_bare
  cases e with
  | global n name =>
      unfold callee
      rw [type, bare] at *
      cases (global n name).ty.signature? with
      | some s => exact .pure rfl
      | none =>
          dsimp only
          rw [pointee]
          cases (global n name).rvalue.ty.pointee?.bind CType.signature? with
          | some s => exact .pure (congrArg (Callee.pointer · s) pointer)
          | none => exact .fail ..
  | _ =>
      unfold callee
      rw [bare] at *
      dsimp only
      rw [pointee, type]
      split
      · exact .pure (congrArg (Callee.pointer · _) pointer)
      · exact .fail ..

/-- An argument with its place. -/
def bareArgument (a : Location × Expr) : Location × Expr := (.nowhere, a.2.bare)

theorem promotedArgument_bare :
    Bare bare (e.promotedArgument loc) (e.bare.promotedArgument .nowhere) := by
  unfold promotedArgument
  simp only [← rvalue_bare, ty_bare, ← convert_bare]
  exact .ite (fun _ => .pure rfl) fun _ => .fail ..

theorem convertArguments_bare (params : List CType) (args : List (Location × Expr)) :
    Bare (List.map bare) (convertArguments params args)
      (convertArguments params (args.map bareArgument)) := by
  induction args generalizing params with
  | nil => cases params <;> exact .pure rfl
  | cons a args ih =>
      cases params with
      | nil =>
          exact .bind (promotedArgument_bare ..) fun e => .bind (ih []) fun es => .pure rfl
      | cons p params =>
          exact .bind (assignConvert_bare ..) fun e => .bind (ih params) fun es => .pure rfl

theorem callNode_bare (c : Callee) (args : List (Location × Expr)) :
    Bare bare (callNode c args loc) (callNode c.bare (args.map bareArgument) .nowhere) := by
  unfold callNode
  simp only [c.signature_bare, c.name_bare, List.length_map]
  refine .ite (fun _ => .failed ..) fun _ => ?_
  refine .bind (convertArguments_bare ..) fun args => ?_
  have types : (args.map bare).map Expr.ty = args.map Expr.ty := by
    rw [List.map_map]
    exact List.map_congr_left fun e _ => e.ty_bare
  rw [types]
  refine .ite (fun _ => .failed ..) fun _ => ?_
  cases c with
  | direct name s => exact .pure (by rw [bare, bareAll_eq]; rfl)
  | pointer p s => exact .pure (by rw [bare, bareAll_eq]; rfl)

end Expr

end LiveC
