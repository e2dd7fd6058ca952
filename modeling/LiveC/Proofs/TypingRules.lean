import LiveC.Program.Unit
import LiveC.Typing.Operator

/-!
Expressions and statements as trees: induction over them, and properties that hold at every
node of an expression.

The typing rules that code generation relies on, one for each kind of node. A well-typed
expression obeys them everywhere. The rules leave open which words may stand as constants
of an integer type and what the variables of a function are.
-/

namespace LiveC
namespace Expr

/-- What an address may be taken of. -/
def isPlace : Expr → Bool
  | var .. | global .. | deref .. | str .. => true
  | _ => false

/-- The direct subexpressions. -/
def parts : Expr → List Expr
  | int .. | float .. | str .. | var .. | global .. => []
  | unary _ _ e | step _ _ _ e | cast _ e | deref _ e | addrOf _ e => [e]
  | binary _ _ l r | compare _ _ l r | logic _ _ l r | assign _ l r | opAssign _ _ _ l r
  | comma _ l r => [l, r]
  | cond _ c t f => [c, t, f]
  | call _ _ _ args => args
  | callPointer _ _ c args => c :: args

/-- A property of every node of an expression. -/
inductive Everywhere (p : Expr → Prop) : Expr → Prop where
  | node {e : Expr} (here : p e) (parts : ∀ part ∈ e.parts, Everywhere p part) : Everywhere p e

theorem everywhere_iff {p : Expr → Prop} {e : Expr} :
    e.Everywhere p ↔ p e ∧ ∀ part ∈ e.parts, part.Everywhere p :=
  ⟨fun | .node here parts => ⟨here, parts⟩, fun h => .node h.1 h.2⟩

theorem Everywhere.here {p : Expr → Prop} {e : Expr} (h : e.Everywhere p) : p e :=
  (everywhere_iff.mp h).1

theorem Everywhere.part {p : Expr → Prop} {e part : Expr} (h : e.Everywhere p)
    (member : part ∈ e.parts) : part.Everywhere p := (everywhere_iff.mp h).2 part member

theorem Everywhere.mono {p q : Expr → Prop} (hpq : ∀ e, p e → q e) {e : Expr}
    (h : e.Everywhere p) : e.Everywhere q := by
  induction h with
  | node here _ ih => exact .node (hpq _ here) ih

theorem Everywhere.leaf {p : Expr → Prop} {e : Expr} (here : p e) (parts : e.parts = []) :
    e.Everywhere p :=
  .node here fun part member => by simp [parts] at member

theorem Everywhere.one {p : Expr → Prop} {e a : Expr} (here : p e) (parts : e.parts = [a])
    (ha : a.Everywhere p) : e.Everywhere p :=
  .node here fun part member => by
    rw [parts] at member
    exact List.mem_singleton.mp member ▸ ha

theorem Everywhere.two {p : Expr → Prop} {e a b : Expr} (here : p e) (parts : e.parts = [a, b])
    (ha : a.Everywhere p) (hb : b.Everywhere p) : e.Everywhere p :=
  .node here (by
    rw [parts]
    exact List.forall_mem_cons.mpr ⟨ha, List.forall_mem_singleton.mpr hb⟩)

theorem Everywhere.three {p : Expr → Prop} {e a b c : Expr} (here : p e)
    (parts : e.parts = [a, b, c]) (ha : a.Everywhere p) (hb : b.Everywhere p)
    (hc : c.Everywhere p) : e.Everywhere p :=
  .node here (by
    rw [parts]
    exact List.forall_mem_cons.mpr ⟨ha, List.forall_mem_cons.mpr
      ⟨hb, List.forall_mem_singleton.mpr hc⟩⟩)

/-- Induction over expressions, the arguments of calls included. -/
@[elab_as_elim, induction_eliminator]
theorem induction {motive : Expr → Prop}
    (int : ∀ n v, motive (int n v)) (float : ∀ n v, motive (float n v))
    (str : ∀ n id, motive (str n id)) (var : ∀ n id, motive (var n id))
    (global : ∀ n name, motive (global n name))
    (unary : ∀ n op e, motive e → motive (unary n op e))
    (binary : ∀ n op l r, motive l → motive r → motive (binary n op l r))
    (compare : ∀ n op l r, motive l → motive r → motive (compare n op l r))
    (logic : ∀ n op l r, motive l → motive r → motive (logic n op l r))
    (assign : ∀ n target value, motive target → motive value → motive (assign n target value))
    (opAssign : ∀ n op ty target value, motive target → motive value →
      motive (opAssign n op ty target value))
    (step : ∀ n delta before target, motive target → motive (step n delta before target))
    (cond : ∀ n c t f, motive c → motive t → motive f → motive (cond n c t f))
    (cast : ∀ n e, motive e → motive (cast n e)) (deref : ∀ n e, motive e → motive (deref n e))
    (addrOf : ∀ n e, motive e → motive (addrOf n e))
    (call : ∀ n name s args, (∀ a ∈ args, motive a) → motive (call n name s args))
    (callPointer : ∀ n s c args, motive c → (∀ a ∈ args, motive a) →
      motive (callPointer n s c args))
    (comma : ∀ n l r, motive l → motive r → motive (comma n l r)) (e : Expr) : motive e :=
  Expr.rec (motive_1 := motive) (motive_2 := fun args => ∀ a ∈ args, motive a)
    int float str var global unary binary compare logic assign opAssign step cond cast deref
    addrOf call callPointer comma nofun
    (fun _ _ first others => List.forall_mem_cons.mpr ⟨first, others⟩) e

end Expr

/-- Induction over statements, those in blocks and optional ones included. -/
@[elab_as_elim, induction_eliminator]
theorem Stmt.induction {motive : Stmt → Prop} (expr : ∀ e, motive (expr e))
    (init : ∀ id zero stores, motive (init id zero stores))
    (block : ∀ body, (∀ s ∈ body, motive s) → motive (block body))
    (ite : ∀ c t f, motive t → (∀ s ∈ f, motive s) → motive (ite c t f))
    (whileLoop : ∀ c body, motive body → motive (.while c body))
    (doWhileLoop : ∀ body c, motive body → motive (doWhile body c))
    (forLoop : ∀ start c step body, (∀ s ∈ start, motive s) → motive body →
      motive (.for start c step body))
    (breakLoop : motive .break) (continueLoop : motive .continue)
    (returnValue : ∀ value, motive (.return value)) (empty : motive empty) (s : Stmt) : motive s :=
  Stmt.rec (motive_1 := motive) (motive_2 := fun body => ∀ s ∈ body, motive s)
    (motive_3 := fun s? => ∀ s ∈ s?, motive s)
    expr init block ite whileLoop doWhileLoop forLoop breakLoop continueLoop returnValue empty nofun
    (fun _ _ first others => List.forall_mem_cons.mpr ⟨first, others⟩) nofun
    (fun _ h _ e => Option.mem_some.mp e ▸ h) s

namespace Stmt

/-- The direct substatements. -/
def subs : Stmt → List Stmt
  | .block body => body
  | .ite _ t f => t :: f.toList
  | .while _ body | .doWhile body _ => [body]
  | .for start _ _ body => start.toList ++ [body]
  | _ => []

/-- The expressions of a statement itself. -/
def exprs : Stmt → List Expr
  | .expr e | .ite e _ _ | .while e _ | .doWhile _ e => [e]
  | .init _ _ stores => stores.map InitStore.value
  | .for _ e step _ => e.toList ++ step.toList
  | .return value => value.toList
  | _ => []

/-- A property of every expression of a statement. -/
inductive Throughout (p : Expr → Prop) : Stmt → Prop where
  | node {s : Stmt} (exprs : ∀ e ∈ s.exprs, p e) (subs : ∀ t ∈ s.subs, Throughout p t) :
      Throughout p s

namespace Throughout

variable {p q : Expr → Prop} {s : Stmt}

/-- A statement without substatements. -/
theorem leaf (exprs : ∀ e ∈ s.exprs, p e) (subs : s.subs = []) : s.Throughout p :=
  .node exprs fun t member => by simp [subs] at member

/-- A statement without expressions of its own. -/
theorem inner (exprs : s.exprs = []) (subs : ∀ t ∈ s.subs, t.Throughout p) : s.Throughout p :=
  .node (fun e member => by simp [exprs] at member) subs

theorem expr (h : s.Throughout p) {e : Expr} (member : e ∈ s.exprs) : p e := by
  cases h with
  | node exprs subs => exact exprs e member

theorem sub (h : s.Throughout p) {t : Stmt} (member : t ∈ s.subs) : t.Throughout p := by
  cases h with
  | node exprs subs => exact subs t member

theorem mono (hpq : ∀ e, p e → q e) (h : s.Throughout p) : s.Throughout q := by
  induction h with
  | node exprs _ ih => exact .node (fun e member => hpq e (exprs e member)) ih

end Throughout

end Stmt

end LiveC

/-! ## Typing rules -/

namespace LiveC

namespace CType

mutual

/-- No function returns an array or a function. -/
def WellFormed : CType → Prop
  | void | int _ | double => True
  | pointer t | array t _ => WellFormed t
  | function ret params _ _ =>
      ret.isArray = false ∧ ret.isFunction = false ∧ WellFormed ret ∧ AllWellFormed params

def AllWellFormed : List CType → Prop
  | [] => True
  | t :: ts => WellFormed t ∧ AllWellFormed ts

end

end CType

/-- What the typing rules refer to. -/
structure TypingContext where
  /-- The words that are constants of an integer type. -/
  constant : IntType → Word → Prop
  /-- The types of the variables of a function, by number. -/
  varType : Nat → CType → Prop

namespace Expr

/-- The value is 0 or 1 by the form of the expression. -/
def IsCondition : Expr → Prop
  | compare .. | logic .. => True
  | int _ v => v = 0 ∨ v = 1
  | _ => False

/-- A prototype gives the types of the first arguments, and of all without an ellipsis;
others are promoted scalars. -/
def Arguments (s : Signature) (args : List Expr) : Prop :=
  let fixed := if s.unspecified then [] else s.params
  (args.take fixed.length).map Expr.ty = fixed ∧
    (s.unspecified = false → s.variadic = false → args.length = fixed.length) ∧
    (∀ e ∈ args.drop fixed.length, e.ty.isScalar = true ∧ e.ty.promote = e.ty) ∧
    fitsRegisters (args.map Expr.ty) = true

/-- The operands of an operation that is carried out in a type. -/
def Takes (op : BinaryOp) (ty : CType) : Prop :=
  match op with
  | .add | .sub | .mul | .div => ty.isArithmetic = true
  | _ => ty.isInteger = true

/-- The typing rule at a node. -/
def Rule (Γ : TypingContext) : Expr → Prop
  | int n v => n.ty.isPointer = true ∨ ∃ t, n.ty = .int t ∧ Γ.constant t v
  | float n _ => n.ty = .double
  | str n _ => ∃ length, n.ty = .array (.int .char) (some length)
  | var n id => Γ.varType id n.ty
  | global _ _ => True
  | unary n op e =>
      e.ty = n.ty ∧
        match op with
        | .neg => n.ty.isArithmetic = true
        | .bitNot => n.ty.isInteger = true
  | binary n op l r =>
      l.ty = n.ty ∧
        (r.ty = n.ty ∧ Takes op n.ty ∨
          n.ty.isPointer = true ∧ (op = .add ∨ op = .sub) ∧ r.ty = .int .long)
  | compare n _ l r =>
      n.ty = .int .int ∧
        (l.ty = r.ty ∧ l.ty.isArithmetic = true ∨ l.ty.isPointer = true ∧ r.ty.isPointer = true)
  | logic n _ l r => n.ty = .int .int ∧ l.IsCondition ∧ r.IsCondition
  | assign n target value =>
      target.isLvalue = true ∧ target.ty.isScalar = true ∧ n.ty = target.ty ∧
        value.ty = target.ty
  | opAssign n op opTy target value =>
      target.isLvalue = true ∧ n.ty = target.ty ∧
        (value.ty = opTy ∧ Takes op opTy ∧ Takes op target.ty ∨
          target.ty.isPointer = true ∧ (op = .add ∨ op = .sub) ∧ opTy = target.ty ∧
            value.ty = .int .long)
  | step n _ _ target =>
      target.isLvalue = true ∧ target.ty.isScalar = true ∧ n.ty = target.ty
  | cond n c t f =>
      c.IsCondition ∧ t.ty = n.ty ∧ f.ty = n.ty ∧ (n.ty.isScalar = true ∨ n.ty = .void)
  | cast n e =>
      n.ty = .void ∨ n.ty.isScalar = true ∧ e.ty.isScalar = true ∧
        ¬(n.ty.isDouble = true ∧ e.ty.isPointer = true) ∧
        ¬(n.ty.isPointer = true ∧ e.ty.isDouble = true)
  | deref n e => e.ty = .pointer n.ty ∧ n.ty ≠ .void
  | addrOf n e =>
      e.isPlace = true ∧
        (n.ty = .pointer e.ty ∨ ∃ element length, e.ty = .array element length ∧
          n.ty = .pointer element)
  | call n _ s args => (CType.ofSignature s).WellFormed ∧ n.ty = s.ret ∧ Arguments s args
  | callPointer n s callee args =>
      n.ty = s.ret ∧ callee.ty = .pointer (.ofSignature s) ∧ Arguments s args
  | comma n _ r => n.ty = r.ty ∧ n.ty.isArray = false ∧ n.ty.isFunction = false

/-- Every node obeys its rule and has a type that C has. -/
def WellTyped (Γ : TypingContext) (e : Expr) : Prop :=
  e.Everywhere fun e => e.ty.WellFormed ∧ e.Rule Γ

/-- A well-typed expression that decides what is executed or evaluated next. -/
def Controls (Γ : TypingContext) (e : Expr) : Prop := e.WellTyped Γ ∧ e.IsCondition

end Expr

namespace Stmt

variable (Γ : TypingContext) (ret : CType)

mutual

/-- The expressions of a statement, in a function that returns `ret`. -/
def WellTyped : Stmt → Prop
  | expr e => e.WellTyped Γ
  | init _ _ stores => ∀ s ∈ stores, s.value.WellTyped Γ ∧ s.value.ty.isScalar = true
  | block body => AllWellTyped body
  | ite c t f => c.Controls Γ ∧ WellTyped t ∧ OptionalWellTyped f
  | .while c body | doWhile body c => c.Controls Γ ∧ WellTyped body
  | .for start c step body =>
      OptionalWellTyped start ∧ (∀ e ∈ c, e.Controls Γ) ∧ (∀ e ∈ step, e.WellTyped Γ) ∧
        WellTyped body
  | .return value => ∀ e ∈ value, e.WellTyped Γ ∧ (ret.isVoid = false → e.ty = ret)
  | .break | .continue | empty => True

def AllWellTyped : List Stmt → Prop
  | [] => True
  | s :: rest => WellTyped s ∧ AllWellTyped rest

def OptionalWellTyped : Option Stmt → Prop
  | some s => WellTyped s
  | none => True

end

variable {Γ ret} in
theorem allWellTyped_iff {body : List Stmt} :
    AllWellTyped Γ ret body ↔ ∀ s ∈ body, s.WellTyped Γ ret := by
  induction body with
  | nil => exact ⟨fun _ => nofun, fun _ => trivial⟩
  | cons s body ih => rw [AllWellTyped, ih, List.forall_mem_cons]

end Stmt

/-- The variables of a function, by number. -/
def TypingContext.ofLocals (constant : IntType → Word → Prop) (locals : List LocalVar) :
    TypingContext :=
  ⟨constant, fun id ty => ∃ v, locals[id]? = some v ∧ v.ty = ty⟩

def Function.WellTyped (constant : IntType → Word → Prop) (f : Function) : Prop :=
  Stmt.AllWellTyped (.ofLocals constant f.locals) f.signature.ret f.body

/-- The integers of a static object are constants of types of their sizes. -/
def GlobalVar.WellTyped (constant : IntType → Word → Prop) (g : GlobalVar) : Prop :=
  ∀ items ∈ g.init, ∀ i ∈ items, ∀ v size, i.value = .int v size →
    ∃ t : IntType, t.size = size ∧ constant t v

structure TranslationUnit.WellTyped (constant : IntType → Word → Prop) (u : TranslationUnit) :
    Prop where
  functions : ∀ f ∈ u.functions, f.WellTyped constant
  globals : ∀ g ∈ u.globals, g.WellTyped constant

end LiveC
