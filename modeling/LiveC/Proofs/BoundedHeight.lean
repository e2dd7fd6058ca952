import LiveC.Parser.Source
import LiveC.Proofs.FileTransitions
import LiveC.Proofs.Parsing
import LiveC.Proofs.TypingRules
import LiveC.Typing.Operator
import Mathlib.Data.List.Chain
import Mathlib.Order.Bounds.Basic

/-!
Heights of trees, and their bound. The height of an expression is the greatest number of
expressions on a way down from it, arguments and callees included (`isGreatest_height`). Every
typing step adds a bounded number of nodes to its operands.

Expressions and statements are bounded in height, however long a source is. Only operands of
binary operators and chains of commas are checked against `maxExprHeight`; what stands above them
is bounded by the levels of nesting that are left: each level adds at most five nodes to an
expression and one statement to those around it. Statements in each other are counted by
`Stmt.Shallow`.
-/

namespace LiveC
namespace Expr

variable {e l r : Expr}

/-- A way down from an expression, each expression on it a direct part of the one before. -/
def IsPath (e : Expr) (path : List Expr) : Prop :=
  (e :: path).IsChain fun e part => part ∈ e.parts

theorem height_int (n : Note) (value : Word) : (int n value).height = 1 := rfl

theorem height_float (n : Note) (value : Double) : (float n value).height = 1 := rfl

theorem height_cast (n : Note) (e : Expr) : (cast n e).height = e.height + 1 := rfl

theorem height_binary (n : Note) (op : BinaryOp) (l r : Expr) :
    (binary n op l r).height = max l.height r.height + 1 := rfl

theorem height_compare (n : Note) (op : CompareOp) (l r : Expr) :
    (compare n op l r).height = max l.height r.height + 1 := rfl

theorem height_assign (n : Note) (target value : Expr) :
    (assign n target value).height = max target.height value.height + 1 := rfl

theorem height_opAssign (n : Note) (op : BinaryOp) (opTy : CType) (target value : Expr) :
    (opAssign n op opTy target value).height = max target.height value.height + 1 := rfl

theorem height_cond (n : Note) (c t f : Expr) :
    (cond n c t f).height = max (max c.height t.height) f.height + 1 := rfl

theorem heightAll_le_iff {es : List Expr} {n : Nat} :
    heightAll es ≤ n ↔ ∀ e ∈ es, e.height ≤ n := by
  induction es with
  | nil => exact ⟨fun _ => nofun, fun _ => Nat.zero_le n⟩
  | cons e es ih => rw [heightAll, Nat.max_le, ih, List.forall_mem_cons]

/-- A node is one higher than the highest of its parts. -/
theorem height_eq (e : Expr) : e.height = heightAll e.parts + 1 := by
  cases e <;> simp [height, parts, heightAll, Nat.max_assoc]

theorem one_le_height (e : Expr) : 1 ≤ e.height := by
  rw [height_eq]
  exact Nat.le_add_left 1 _

theorem height_lt_of_mem_parts {part : Expr} (h : part ∈ e.parts) : part.height < e.height := by
  rw [e.height_eq]
  exact Nat.lt_succ_of_le (heightAll_le_iff.mp (Nat.le_refl _) part h)

/-- Some part of a node that is no leaf is one lower. -/
theorem exists_part_of_height {n : Nat} (h : e.height = n + 2) :
    ∃ part ∈ e.parts, part.height = n + 1 := by
  rw [height_eq] at h
  by_contra lower
  have below : heightAll e.parts ≤ n := heightAll_le_iff.mpr fun part member => by
    have le := heightAll_le_iff.mp (Nat.le_refl _) part member
    have ne : part.height ≠ n + 1 := fun same => lower ⟨part, member, same⟩
    omega
  omega

theorem IsPath.length_lt {path : List Expr} (h : e.IsPath path) : path.length < e.height := by
  induction path generalizing e with
  | nil => exact e.one_le_height
  | cons part path ih =>
      obtain ⟨member, rest⟩ := List.isChain_cons_cons.mp h
      exact Nat.lt_of_le_of_lt (ih rest) (height_lt_of_mem_parts member)

theorem exists_path {n : Nat} (h : e.height = n + 1) : ∃ path, e.IsPath path ∧ path.length = n := by
  induction n generalizing e with
  | zero => exact ⟨[], .singleton e, rfl⟩
  | succ n ih =>
      obtain ⟨part, member, height⟩ := exists_part_of_height h
      obtain ⟨path, down, length⟩ := ih height
      exact ⟨part :: path, down.cons_cons member, congrArg Nat.succ length⟩

/-- The height counts the expressions on the longest way down. -/
theorem isGreatest_height (e : Expr) :
    IsGreatest {n | ∃ path, e.IsPath path ∧ n = (e :: path).length} e.height := by
  constructor
  · obtain ⟨path, down, length⟩ := exists_path (Nat.sub_add_cancel e.one_le_height).symm
    refine ⟨path, down, ?_⟩
    rw [List.length_cons, length, Nat.sub_add_cancel e.one_le_height]
  · rintro _ ⟨path, down, rfl⟩
    exact down.length_lt

/-- No expression in a tree is higher than the tree. -/
theorem everywhere_height_le {n : Nat} (h : e.height ≤ n) :
    e.Everywhere fun part => part.height ≤ n := by
  induction hm : e.height using Nat.strong_induction_on generalizing e with
  | _ m ih =>
      refine .node h fun part member => ?_
      have lower := height_lt_of_mem_parts member
      exact ih part.height (hm ▸ lower) (Nat.le_trans lower.le h) rfl

/-! ### What conversions add -/

theorem height_rvalue_le (e : Expr) : e.rvalue.height ≤ e.height + 1 := by
  unfold rvalue
  split
  · exact Nat.le_refl _
  · exact Nat.le_refl _
  · exact Nat.le_succ _

theorem height_convert_le (e : Expr) (target : CType) :
    (e.convert target).height ≤ e.height + 1 := by
  unfold convert
  dsimp only
  split
  · exact Nat.le_succ _
  · split <;> simp only [height_int, height_float, height_cast] <;> omega

theorem height_compareNode_le (op : CompareOp) (l r : Expr) (loc : Location) :
    (compareNode op l r loc).height ≤ max l.height r.height + 1 := by
  unfold compareNode
  dsimp only
  split <;> simp only [height_int, height_compare] <;> omega

theorem height_zero (n : Note) : (zero n).height = 1 := by
  unfold zero
  split <;> simp only [height_int, height_float]

theorem height_fold_le (op : BinaryOp) (l r : Expr) (n : Note) :
    (fold op l r n).height ≤ max l.height r.height + 1 := by
  unfold fold
  split
  · split <;> simp only [height_int, height_binary] <;> omega
  · split <;> simp only [height_float, height_binary] <;> omega
  · simp only [height_binary, Nat.le_refl]

theorem height_scaleIndex_le (index : Expr) (pointer : CType) :
    (scaleIndex index pointer).height ≤ index.height + 2 := by
  unfold scaleIndex
  dsimp only
  have converted := height_convert_le index (.int .long)
  split
  · omega
  · refine Nat.le_trans (height_fold_le ..) ?_
    simp only [height_int]
    omega

open Typing

theorem condition_height (e : Expr) : e.condition.Yields fun c => c.height ≤ e.height + 2 := by
  have decayed := height_rvalue_le e
  refine .ite (fun _ => .fail) fun _ =>
    .ite (fun _ => .pure (Nat.le_succ_of_le decayed)) fun _ => ?_
  refine .pure (Nat.le_trans (height_compareNode_le ..) ?_)
  rw [height_zero]
  have := e.rvalue.one_le_height
  omega

theorem assignConvert_height (e : Expr) (target : CType) (loc : Location) :
    (e.assignConvert target loc).Yields fun c => c.height ≤ e.height + 2 := by
  have converted : (e.rvalue.convert target).height ≤ e.height + 2 :=
    Nat.le_trans (height_convert_le ..) (Nat.succ_le_succ (height_rvalue_le e))
  have done : (Pure.pure (e.rvalue.convert target) : Typing Expr).Yields
      fun c => c.height ≤ e.height + 2 := .pure converted
  unfold assignConvert
  refine .ite (fun _ => ?_) fun _ => done
  split
  · exact .ite (fun _ => .skip fun _ => done) fun _ => done
  · exact .ite (fun _ => .skip fun _ => done) fun _ => done
  · exact .skip fun _ => done
  · exact .bind (P := fun _ => False) .fail nofun

/-! ### What operators add -/

theorem conditional_height (c t f : Expr) (loc : Location) :
    (conditional c t f loc).Yields fun e =>
      e.height ≤ max c.height (max t.height f.height) + 3 := by
  have decayedYes := height_rvalue_le t
  have decayedNo := height_rvalue_le f
  refine .bind (condition_height c) fun d condition => .skip fun ty => ?_
  have convertedYes := height_convert_le t.rvalue ty
  have convertedNo := height_convert_le f.rvalue ty
  refine .ite (fun _ => .pure ?_) fun _ => ?_
  · simp only [height_cond]
    omega
  · dsimp only
    split
    · refine .pure ?_
      split <;> omega
    · refine .pure ?_
      simp only [height_cond]
      omega

theorem assignment_height (target value : Expr) (loc : Location) :
    (target.assignment value loc).Yields fun e =>
      e.height ≤ max target.height (value.height + 2) + 1 := by
  refine .bind (assignConvert_height value target.ty loc) fun converted le => .pure ?_
  simp only [height_assign]
  omega

theorem opAssignment_height (op : BinaryOp) (target value : Expr) (loc : Location) :
    (opAssignment op target value loc).Yields fun e =>
      e.height ≤ max target.height (value.height + 3) + 1 := by
  have decayed := height_rvalue_le value
  refine .ite (fun _ => .guard fun _ => .pure ?_) fun _ => .guard fun _ => .pure ?_
  · have scaled := height_scaleIndex_le value.rvalue target.ty
    simp only [height_opAssign]
    omega
  · have converted := height_convert_le value.rvalue (operationType op target.ty value.rvalue.ty)
    simp only [height_opAssign]
    omega

end Expr

namespace Stmt

variable {s : Stmt} {m n : Nat}

/-- A way down from a statement, each statement on it directly in the one before. -/
def IsPath (s : Stmt) (path : List Stmt) : Prop := (s :: path).IsChain fun s sub => sub ∈ s.subs

/-- Not more than so many statements stand in each other. -/
def Shallow : Nat → Stmt → Prop
  | 0, _ => False
  | n + 1, s => ∀ sub ∈ s.subs, Shallow n sub

theorem Shallow.mono (h : s.Shallow m) (le : m ≤ n) : s.Shallow n := by
  induction m generalizing s n with
  | zero => exact h.elim
  | succ m ih =>
      cases n with
      | zero => exact absurd le (Nat.not_succ_le_zero m)
      | succ n => exact fun sub member => ih (h sub member) (Nat.le_of_succ_le_succ le)

theorem Shallow.leaf (subs : s.subs = []) : s.Shallow (n + 1) := by
  intro sub member
  rw [subs] at member
  cases member

/-- No way down is longer than statements stand in each other. -/
theorem Shallow.length_lt {path : List Stmt} (h : s.Shallow n) (down : s.IsPath path) :
    path.length < n := by
  induction path generalizing s n with
  | nil =>
      cases n with
      | zero => exact h.elim
      | succ n => exact Nat.succ_pos n
  | cons sub path ih =>
      cases n with
      | zero => exact h.elim
      | succ n =>
          obtain ⟨member, rest⟩ := List.isChain_cons_cons.mp down
          exact Nat.succ_lt_succ (ih (h sub member) rest)

end Stmt
end LiveC

/-! ### The bound -/

namespace LiveC

/-- The greatest height of an expression that is read with so many levels of nesting left. -/
def heightLimit (levels : Nat) : Nat := maxExprHeight + 5 * levels

theorem heightLimit_succ (levels : Nat) : heightLimit (levels + 1) = heightLimit levels + 5 := rfl

theorem maxExprHeight_le (levels : Nat) : maxExprHeight ≤ heightLimit levels :=
  Nat.le_add_right _ _

theorem heightLimit_mono {m n : Nat} (h : m ≤ n) : heightLimit m ≤ heightLimit n :=
  Nat.add_le_add_left (Nat.mul_le_mul_left 5 h) _

/-- Neither the expressions of a statement nor the statements in it are too high. -/
structure Stmt.Low (limit depth : Nat) (s : Stmt) : Prop where
  shallow : s.Shallow depth
  exprs : s.Throughout fun e => e.height ≤ limit

namespace Stmt

variable {s : Stmt} {limit limit' depth depth' : Nat}

theorem Low.mono (h : s.Low limit depth) (exprs : limit ≤ limit') (subs : depth ≤ depth') :
    s.Low limit' depth' :=
  ⟨h.shallow.mono subs, h.exprs.mono fun _ le => Nat.le_trans le exprs⟩

theorem Low.node (exprs : ∀ e ∈ s.exprs, e.height ≤ limit)
    (subs : ∀ sub ∈ s.subs, sub.Low limit depth) :
    s.Low limit (depth + 1) :=
  ⟨fun sub member => (subs sub member).shallow,
    .node exprs fun sub member => (subs sub member).exprs⟩

theorem Low.leaf (exprs : ∀ e ∈ s.exprs, e.height ≤ limit) (subs : s.subs = []) :
    s.Low limit (depth + 1) :=
  ⟨.leaf subs, .leaf exprs subs⟩

/-- Statements in a row that are not too high. -/
def AllLow (limit depth : Nat) (body : List Stmt) : Prop := ∀ s ∈ body, s.Low limit depth

theorem AllLow.mono {body : List Stmt} (h : AllLow limit depth body) (exprs : limit ≤ limit')
    (subs : depth ≤ depth') : AllLow limit' depth' body :=
  fun s member => (h s member).mono exprs subs

theorem AllLow.nil : AllLow limit depth [] := nofun

theorem AllLow.append {body more : List Stmt} (h : AllLow limit depth body)
    (k : AllLow limit depth more) : AllLow limit depth (body ++ more) :=
  List.forall_mem_append.mpr ⟨h, k⟩

theorem Low.block {body : List Stmt} (h : AllLow limit depth body) :
    (Stmt.block body).Low limit (depth + 1) :=
  .node nofun h

end Stmt

namespace Parser

variable {R : ParserState → ParserState → Prop} {T : Transition R} {g : Productions}
  {α β : Type} {p : Parser α} {f : α → Parser β} {P : α → Prop} {Q : β → Prop} {n : Nat}

/-- A run moves on, and what it gives has a property. -/
abbrev Gives (T : Transition R) (p : Parser α) (P : α → Prop) : Prop := Keeps T.course True p P

theorem Gives.bind (h : Gives T p P) (hf : ∀ a, P a → Gives T (f a) Q) : Gives T (p >>= f) Q := by
  intro s
  have run := h s
  rw [bind_run]
  cases hp : p s with
  | error e t =>
      rw [hp] at run
      exact run
  | ok a t =>
      rw [hp] at run
      have given := (run.2 trivial trivial trivial).2
      exact .after run.1 (fun _ _ _ => ⟨trivial, trivial⟩) ((hf a given).pre (fun _ => trivial) t)

theorem Gives.map {h : α → β} (hp : Gives T p P) (hq : ∀ a, P a → Q (h a)) :
    Gives T (h <$> p) Q :=
  Keeps.map hp fun a _ => hq a

theorem Gives.mono {P' : α → Prop} (h : Gives T p P) (hp : ∀ a, P a → P' a) : Gives T p P' :=
  h.post fun a _ => hp a

theorem Gives.typed {t : Typing α} (h : t.Yields P) : Gives T (typed t) P := by
  intro s
  unfold Parser.typed
  cases run : t.run s.warnings with
  | ok r => exact ⟨⟨List.suffix_rfl, T.warnings s _⟩, fun _ _ _ => ⟨trivial, h _ r.1 r.2 run⟩⟩
  | error f => exact ⟨T.course.refl s, fun _ _ _ => trivial⟩

/-- Every step keeps an invariant. -/
theorem Gives.iterate {I : α → Prop} {step : α → Parser (ForInStep α)}
    (h : ∀ a, Gives T (step a) fun r => I a → I r.value) {a : α} (start : I a) :
    Gives T (Parser.iterate step a) I :=
  (Keeps.iterate (fun a => Keeps.mono (h a) (fun _ => trivial) fun _ pre kept => kept pre.2) a).pre
    fun _ => ⟨trivial, start⟩

theorem Gives.between {enter leave : ParserState → ParserState} (h : Gives T p P)
    (enterRest : ∀ s, (enter s).rest = s.rest) (leaveRest : ∀ s, (leave s).rest = s.rest)
    (step : ∀ s t, R (enter s) t → R s (leave t)) : Gives T (Parser.between enter leave p) P := by
  intro s
  have moved := Moves.between (h.post fun _ _ _ => trivial) enterRest leaveRest step s
  have run := h (enter s)
  unfold Parser.between at moved ⊢
  cases hp : p (enter s) with
  | error e t =>
      rw [hp] at moved
      exact moved
  | ok a t =>
      rw [hp] at moved run
      exact ⟨moved.1, fun _ _ _ => ⟨trivial, (run.2 trivial trivial trivial).2⟩⟩

end Parser

open LiveC.Parser in
/-- What the productions hand on with so many levels of nesting left is not too high. -/
structure Productions.Low {R : ParserState → ParserState → Prop} (T : Transition R) (n : Nat)
    (g : Productions) : Prop where
  moving : g.Moving T
  assignment : Gives T g.assignment fun e => e.height ≤ heightLimit n
  conditional : Gives T g.conditional fun e => e.height ≤ heightLimit n
  localInit (ty : CType) (offset : Nat) :
    Gives T (g.localInit ty offset) fun r => ∀ s ∈ r.2, s.value.height ≤ heightLimit n
  statement : Gives T g.statement (Stmt.Low (heightLimit n) (n + 2))

namespace Parser

variable {R : ParserState → ParserState → Prop} {T : Transition R} {g : Productions} {n : Nat}

/-! ### Expressions -/

theorem bounded_gives (e : Expr) : Gives T (bounded e) fun e => e.height ≤ maxExprHeight :=
  .ite (fun _ => .throw) fun le => .pure fun _ => Nat.le_of_not_lt le

theorem binary_gives (moving : g.Moving T) (level : Nat) :
    Gives T (binary g level) fun e => e.height ≤ maxExprHeight := by
  induction level with
  | zero => exact moving.cast.skip fun e => bounded_gives e
  | succ level ih =>
      refine ih.bind fun e le => Gives.iterate (fun l => ?_) le
      refine peekPunct?_moves.skip fun p => ?_
      split
      case h_1 op _ =>
        refine .ite (fun _ => ?_) fun _ => .pure fun _ => id
        refine next_moves.skip fun t => (binary_moves moving level).skip fun r => ?_
        exact (typed_moves _).skip fun e => (bounded_gives e).bind fun _ le => .pure fun _ _ => le
      case h_2 => exact .pure fun _ => id

section Productions

variable (low : g.Low T n)
include low

theorem expression_gives : Gives T (expression g) fun e => e.height ≤ heightLimit n := by
  refine low.assignment.bind fun e le => Gives.iterate (fun l => ?_) le
  refine (check_moves _).skip fun _ => .ite (fun _ => ?_) fun _ => .pure fun _ => id
  refine next_moves.skip fun t => low.moving.assignment.skip fun r => ?_
  exact (bounded_gives _).bind fun _ le => .pure fun _ _ => Nat.le_trans le (maxExprHeight_le n)

theorem conditional_gives : Gives T (conditional g) fun e => e.height ≤ heightLimit n + 3 := by
  refine (binary_gives low.moving _).bind fun c condition => (check_moves _).skip fun _ => ?_
  have operand := maxExprHeight_le n
  refine .ite (fun _ => ?_) fun _ => .pure fun _ => by omega
  refine next_moves.skip fun t => (expression_gives low).bind fun yes first => ?_
  refine (expect_moves _).skip fun _ => low.conditional.bind fun no second => ?_
  exact (Gives.typed (Expr.conditional_height c yes no t.loc)).mono fun e le => by omega

theorem assignment_gives : Gives T (assignment g) fun e => e.height ≤ heightLimit (n + 1) := by
  rw [heightLimit_succ]
  refine (conditional_gives low).bind fun target left => peekPunct?_moves.skip fun p => ?_
  split
  case h_1 => exact .pure fun _ => by omega
  case h_2 op? _ =>
    refine next_moves.skip fun t => (typed_moves _).skip fun _ => ?_
    refine low.assignment.bind fun value right => ?_
    cases op? with
    | none => exact .mono (.typed (Expr.assignment_height target value t.loc)) fun e le => by omega
    | some op =>
        exact .mono (.typed (Expr.opAssignment_height op target value t.loc)) fun e le => by omega

/-! ### Initialisers -/

omit low in
theorem elements_gives {ι : Type} {P : ι → Prop} {element : Nat → Parser (List ι)}
    (h : ∀ i, Gives T (element i) fun items => ∀ i ∈ items, P i) (length : Option Nat) :
    Gives T (elements element length) fun r => ∀ i ∈ r.2, P i := by
  refine Gives.iterate (I := fun r : Nat × List ι => ∀ i ∈ r.2, P i) (fun r => ?_) nofun
  refine (check_moves _).skip fun _ => .ite (fun _ => .pure fun _ => id) fun _ => ?_
  refine .ite (fun _ => loc_moves.skip fun _ => .throw_bind) fun _ => ?_
  refine (h r.1).bind fun items more => (eat_moves _).skip fun _ => ?_
  exact .ite (fun _ => .pure fun _ before => List.forall_mem_append.mpr ⟨before, more⟩) fun _ =>
    .pure fun _ before => List.forall_mem_append.mpr ⟨before, more⟩

omit low in
theorem height_byteStores (note : Note) (offset : Nat) (bytes : List UInt8) :
    ∀ s ∈ InitForm.byteStores note offset bytes, s.value.height = 1 := by
  induction bytes generalizing offset with
  | nil => exact nofun
  | cons b bytes ih =>
      rw [InitForm.byteStores]
      dsimp only
      split
      · exact ih (offset + 1)
      · exact List.forall_mem_cons.mpr ⟨by simp only [Expr.height], ih (offset + 1)⟩

theorem initializer_gives {nested : CType → Nat → Parser (CType × List InitStore)}
    (inner : ∀ ty offset, Gives T (nested ty offset) fun r =>
      ∀ s ∈ r.2, s.value.height ≤ heightLimit n) (ty : CType) (offset : Nat) :
    Gives T (initializer g .automatic nested ty offset) fun r =>
      ∀ s ∈ r.2, s.value.height ≤ heightLimit (n + 1) := by
  have scalar (e : Expr) (le : e.height ≤ heightLimit n) (ty : CType) (loc : Location) :
      Gives T (do
        let item ← typed do InitForm.automatic.scalar ty offset (← e.assignConvert ty loc) loc
        return (ty, [item])) fun r : CType × List InitStore =>
          ∀ s ∈ r.2, s.value.height ≤ heightLimit (n + 1) := by
    have store : Typing.Yields (do
        let converted ← e.assignConvert ty loc
        InitForm.automatic.scalar ty offset converted loc) fun s : InitStore =>
          s.value.height ≤ heightLimit (n + 1) :=
      (Expr.assignConvert_height e ty loc).bind fun _ low => .pure (by
        rw [heightLimit_succ]
        exact Nat.le_trans low (by omega))
    exact (Gives.typed store).bind fun s le => .pure fun _ => List.forall_mem_singleton.mpr le
  unfold initializer
  refine loc_moves.skip fun loc => ?_
  split
  case h_1 element length =>
    refine (stringForArray_moves element).skip fun bytes => ?_
    split
    case h_1 =>
      refine .pure fun _ s member => ?_
      rw [height_byteStores _ _ _ s member]
      exact Nat.le_trans (by decide) (maxExprHeight_le (n + 1))
    case h_2 =>
      refine (eat_moves _).skip fun _ => .ite (fun _ => ?_) fun _ => .throw_bind
      refine (elements_gives (P := fun s => s.value.height ≤ heightLimit n) (fun i =>
        (inner _ _).map fun _ => id) length).bind fun r all => (expect_moves _).skip fun _ => ?_
      exact .pure fun _ s member => Nat.le_trans (all s member) (heightLimit_mono (Nat.le_succ n))
  case h_2 =>
    refine (eat_moves _).skip fun _ => low.assignment.bind fun e le => .ite (fun _ => ?_) fun _ =>
      scalar e le _ _
    exact (eat_moves _).skip fun _ => (expect_moves _).skip fun _ => scalar e le _ _

/-! ### Declarations in blocks -/

theorem localVariable_gives (name : String) (ty : CType) (loc : Location) :
    Gives T (localVariable g name ty loc) (Stmt.AllLow (heightLimit n) 1) := by
  have declare (ty : CType) (stmts : List Stmt) (h : Stmt.AllLow (heightLimit n) 1 stmts)
      (id : Nat) : Gives T (do
        if !ty.isComplete then refuse loc (.unknownSize name)
        modify fun s => { s with locals := s.locals ++ [⟨name, ty⟩] }
        bind name (.local id)
        return stmts) (Stmt.AllLow (heightLimit n) 1) := by
    refine .guard fun _ => .skip (Moves.modify (fun _ => List.suffix_rfl) fun s =>
      T.locals s _) fun _ => ?_
    exact (bind_moves _ _).skip fun _ => .pure fun _ => h
  refine .guard fun _ => Keeps.get.skip fun s => (eat_moves _).skip fun _ => .ite (fun _ => ?_)
    fun _ => declare ty [] .nil _
  refine (low.localInit ty 0).bind fun r le => declare r.1 _ (List.forall_mem_singleton.mpr ?_) _
  refine .leaf (fun e member => ?_) rfl
  obtain ⟨store, inStores, rfl⟩ := List.mem_map.mp member
  exact le store inStores

theorem blockDeclarator_gives (spec : DeclSpec) :
    Gives T (blockDeclarator g spec) (Stmt.AllLow (heightLimit n) 1) := by
  have moving := low.moving
  refine (moving.declarator _ false).skip fun d => skipAttributes_moves.skip fun _ => ?_
  split
  case h_1 => exact loc_moves.skip fun _ => peek_moves.skip fun _ => .throw
  case h_2 name loc _ =>
    have named (b : Binding) : Gives T (do
        bind name b
        return ([] : List Stmt)) (Stmt.AllLow (heightLimit n) 1) :=
      (bind_moves name b).skip fun _ => .pure fun _ => .nil
    refine .ite (fun _ => named _) fun _ => .ite (fun _ => ?_) fun _ => ?_
    · exact (declareFunction_moves _ _ _ _).skip fun _ => named _
    · split
      case h_1 =>
        intro s
        rw [findSymbol?_bind]
        refine .ite (fun undeclared => ?_) fun _ => named _ s
        exact .bind (setSymbol_moves (SymbolTable.settles_insert_undeclared
          (Option.isNone_iff_eq_none.mp undeclared))) fun _ => (named _).pre fun _ => trivial
      case h_2 =>
        exact (staticLocal_moves (each_moves moving) moving.fills spec name d.ty loc).skip fun _ =>
          .pure fun _ => .nil
      case h_3 => exact localVariable_gives low name d.ty loc

theorem blockDeclaration_gives :
    Gives T (blockDeclaration g) (Stmt.AllLow (heightLimit n) 1) := by
  refine declSpecifiers_moves.skip fun spec => (eat_moves _).skip fun _ =>
    .ite (fun _ => .pure fun _ => .nil) fun _ => Gives.iterate (fun stmts => ?_) .nil
  refine (blockDeclarator_gives low spec).bind fun more h => (eat_moves _).skip fun _ => ?_
  exact .ite (fun _ => .pure fun _ before => before.append h) fun _ =>
    (expect_moves _).skip fun _ => .pure fun _ before => before.append h

/-! ### Statements -/

theorem item_gives : Gives T (item g) (Stmt.AllLow (heightLimit n) (n + 2)) := by
  refine peek_moves.skip fun t => (startsDeclaration_moves t).skip fun _ => .ite (fun _ => ?_)
    fun _ => low.statement.bind fun s h => .pure fun _ => List.forall_mem_singleton.mpr h
  exact (blockDeclaration_gives low).mono fun _ h => h.mono (Nat.le_refl _) (Nat.le_add_left 1 _)

theorem blockItems_gives : Gives T (blockItems g) (Stmt.AllLow (heightLimit n) (n + 2)) := by
  have items : Gives T (iterate (blockStep g) []) (Stmt.AllLow (heightLimit n) (n + 2)) := by
    refine Gives.iterate (fun stmts => ?_) .nil
    refine (check_moves _).skip fun _ => .ite (fun _ => .pure fun _ => id) fun _ => ?_
    refine atEnd_moves.skip fun _ => .ite (fun _ => loc_moves.skip fun _ => .throw_bind) fun _ => ?_
    have more : Gives T (blockItem g) (Stmt.AllLow (heightLimit n) (n + 2)) :=
      Keeps.tryCatch (p := item g) (item_gives low) fun e =>
        (recover_moves true e).skip fun _ => .pure fun _ => .nil
    exact more.bind fun more h => .pure fun _ before => before.append h
  exact items.bind fun stmts h => (expect_moves _).skip fun _ => .pure fun _ => h

theorem controlling_gives : Gives T (controlling g) fun e => e.height ≤ heightLimit (n + 1) := by
  refine (expect_moves _).skip fun _ => (expression_gives low).bind fun e le => ?_
  refine (Gives.typed (Expr.condition_height e)).bind fun c le => (expect_moves _).skip fun _ => ?_
  exact .pure fun _ => by
    rw [heightLimit_succ]
    omega

theorem loopBody_gives : Gives T (loopBody g) (Stmt.Low (heightLimit n) (n + 2)) :=
  Gives.between low.statement (fun _ => rfl) (fun _ => rfl) fun _ _ => T.loop

theorem forStatement_gives : Gives T (forStatement g) (Stmt.Low (heightLimit (n + 1)) (n + 3)) := by
  have limit : heightLimit n ≤ heightLimit (n + 1) := heightLimit_mono (Nat.le_succ n)
  -- What is behind each of the three clauses, the last one first.
  have body (start : Option Stmt) (c step : Option Expr)
      (first : ∀ s ∈ start, s.Low (heightLimit n) (n + 2))
      (test : ∀ e ∈ c, e.height ≤ heightLimit (n + 1))
      (next : ∀ e ∈ step, e.height ≤ heightLimit (n + 1)) : Gives T (do
      expect .rparen
      return Stmt.for start c step (← loopBody g)) (Stmt.Low (heightLimit (n + 1)) (n + 3)) := by
    refine (expect_moves _).skip fun _ => (loopBody_gives low).bind fun body h => .pure fun _ => ?_
    refine .node (fun e member => ?_) fun s member => ?_
    · obtain inTest | inStep := List.mem_append.mp member
      · exact test e (Option.mem_toList.mp inTest)
      · exact next e (Option.mem_toList.mp inStep)
    · refine .mono ?_ limit (Nat.le_refl _)
      obtain inStart | rfl := List.mem_append.mp member |>.imp_right List.mem_singleton.mp
      · exact first s (Option.mem_toList.mp inStart)
      · exact h
  have step (start : Option Stmt) (c : Option Expr)
      (first : ∀ s ∈ start, s.Low (heightLimit n) (n + 2))
      (test : ∀ e ∈ c, e.height ≤ heightLimit (n + 1)) : Gives T (do
      expect .semicolon
      let step ← if ← check .rparen then pure none else some <$> expression g
      expect .rparen
      return Stmt.for start c step (← loopBody g)) (Stmt.Low (heightLimit (n + 1)) (n + 3)) := by
    refine (expect_moves _).skip fun _ => (check_moves _).skip fun _ => .ite
      (fun _ => body start c none first test nofun) fun _ => ?_
    refine Gives.bind ((expression_gives low).map (Q := fun step =>
      ∀ e ∈ step, e.height ≤ heightLimit (n + 1)) fun e le => ?_) fun _ => body _ _ _ first test
    rintro _ ⟨⟩
    exact Nat.le_trans le limit
  have condition (start : Option Stmt) (first : ∀ s ∈ start, s.Low (heightLimit n) (n + 2)) :
      Gives T (do
        let c ← if ← check .semicolon then pure none
          else some <$> typed (← expression g).condition
        expect .semicolon
        let step ← if ← check .rparen then pure none else some <$> expression g
        expect .rparen
        return Stmt.for start c step (← loopBody g)) (Stmt.Low (heightLimit (n + 1)) (n + 3)) := by
    refine (check_moves _).skip fun _ => .ite (fun _ => step start none first nofun) fun _ => ?_
    refine (expression_gives low).bind fun e le => ?_
    refine Gives.bind ((Gives.typed (Expr.condition_height e)).map (Q := fun c =>
      ∀ e ∈ c, e.height ≤ heightLimit (n + 1)) fun c higher => ?_) fun _ => step _ _ first
    rintro _ ⟨⟩
    rw [heightLimit_succ]
    omega
  refine (expect_moves _).skip fun _ => (eat_moves _).skip fun _ => peek_moves.skip fun t => ?_
  refine (startsDeclaration_moves t).skip fun _ => .ite (fun _ => condition none nofun) fun _ =>
    .ite (fun _ => ?_) fun _ => ?_
  · refine (blockDeclaration_gives low).bind fun stmts h => condition _ ?_
    rintro _ ⟨⟩
    exact (Stmt.Low.block h).mono (Nat.le_refl _) (Nat.le_add_left 2 n)
  · refine (expression_gives low).bind fun e le => (expect_moves _).skip fun _ => condition _ ?_
    rintro _ ⟨⟩
    exact .leaf (List.forall_mem_singleton.mpr le) rfl

theorem returnStatement_gives (loc : Location) :
    Gives T (returnStatement g loc) (Stmt.Low (heightLimit (n + 1)) (n + 3)) := by
  have returned (e : Expr) (le : e.height ≤ heightLimit n + 2) :
      (Stmt.return (some e)).Low (heightLimit (n + 1)) (n + 3) := by
    refine .leaf (List.forall_mem_singleton.mpr ?_) rfl
    rw [heightLimit_succ]
    omega
  have nothing : (Stmt.return none).Low (heightLimit (n + 1)) (n + 3) :=
    .leaf (List.forall_mem_nil _) rfl
  refine Keeps.get.skip fun s => ?_
  dsimp only
  refine (eat_moves _).skip fun _ => .ite (fun _ => ?_) fun _ => ?_
  · exact .ite (fun _ => (warn_moves _ _).skip fun _ => .pure fun _ => nothing) fun _ =>
      .pure fun _ => nothing
  · refine (expression_gives low).bind fun e le => (expect_moves _).skip fun _ => ?_
    have given := returned e (Nat.le_add_right_of_le le)
    refine .ite (fun _ => ?_) fun _ => (Gives.typed (Expr.assignConvert_height e _ loc)).bind
      fun converted higher => .pure fun _ => returned converted (by omega)
    exact .ite (fun _ => (warn_moves _ _).skip fun _ => .pure fun _ => given) fun _ =>
      .pure fun _ => given

theorem statement_gives : Gives T (statement g) (Stmt.Low (heightLimit (n + 1)) (n + 3)) := by
  have limit : heightLimit n ≤ heightLimit (n + 1) := heightLimit_mono (Nat.le_succ n)
  have higher {s : Stmt} (h : s.Low (heightLimit n) (n + 2)) :
      s.Low (heightLimit (n + 1)) (n + 2) := h.mono limit (Nat.le_refl _)
  refine peek_moves.skip fun t => ?_
  dsimp only
  split
  case h_1 =>
    refine next_moves.skip fun _ => (controlling_gives low).bind fun c test => ?_
    refine low.statement.bind fun yes first => (eatKeyword_moves _).skip fun _ => .ite (fun _ => ?_)
      fun _ => .pure fun _ => ?_
    · refine Gives.bind (low.statement.map (Q := fun no =>
        ∀ s ∈ no, s.Low (heightLimit n) (n + 2)) fun s h => ?_) fun no second => .pure fun _ => ?_
      · rintro _ ⟨⟩
        exact h
      · refine .node (List.forall_mem_singleton.mpr test) (List.forall_mem_cons.mpr
          ⟨higher first, fun s member => higher (second s (Option.mem_toList.mp member))⟩)
    · exact .node (List.forall_mem_singleton.mpr test)
        (List.forall_mem_singleton.mpr (higher first))
  case h_2 =>
    refine next_moves.skip fun _ => (controlling_gives low).bind fun c test => ?_
    refine (loopBody_gives low).bind fun body h => .pure fun _ => ?_
    exact .node (List.forall_mem_singleton.mpr test) (List.forall_mem_singleton.mpr (higher h))
  case h_3 =>
    refine next_moves.skip fun _ => (loopBody_gives low).bind fun body h => ?_
    refine (eatKeyword_moves _).skip fun _ => .ite (fun _ => ?_) fun _ =>
      peek_moves.skip fun _ => .throw_bind
    refine (controlling_gives low).bind fun c test => (expect_moves _).skip fun _ =>
      .pure fun _ => ?_
    exact .node (List.forall_mem_singleton.mpr test) (List.forall_mem_singleton.mpr (higher h))
  case h_4 =>
    exact next_moves.skip fun _ => Gives.between (forStatement_gives low) (fun _ => rfl)
      (fun _ => rfl) fun _ _ => T.block
  case h_5 | h_6 =>
    exact next_moves.skip fun _ => Keeps.get.skip fun _ => .guard fun _ =>
      (expect_moves _).skip fun _ => .pure fun _ => .leaf (List.forall_mem_nil _) rfl
  case h_7 => exact next_moves.skip fun _ => returnStatement_gives low _
  case h_8 | h_9 | h_10 | h_11 => exact .throw
  case h_12 =>
    have inside : Gives T (inBlock (blockItems g)) (Stmt.AllLow (heightLimit n) (n + 2)) :=
      Gives.between (blockItems_gives low) (fun _ => rfl) (fun _ => rfl) fun _ _ => T.block
    exact next_moves.skip fun _ => inside.bind fun body h => .pure fun _ =>
      .block fun s member => higher (h s member)
  case h_13 =>
    exact next_moves.skip fun _ => .pure fun _ => .leaf (List.forall_mem_nil _) rfl
  case h_14 =>
    refine (expression_gives low).bind fun e le => (expect_moves _).skip fun _ => .pure fun _ => ?_
    exact .leaf (List.forall_mem_singleton.mpr (Nat.le_trans le limit)) rfl

end Productions

/-! ### Levels of nesting -/

theorem refused_low : Productions.refused.Low T 0 where
  moving := productions_moving 0
  assignment := loc_moves.skip fun _ => .throw
  conditional := loc_moves.skip fun _ => .throw
  localInit _ _ := loc_moves.skip fun _ => .throw
  statement := loc_moves.skip fun _ => .throw

theorem productions_low (n : Nat) : (productions n).Low T n := by
  induction n with
  | zero => exact refused_low
  | succ n ih =>
      exact {
        moving := productions_moving (n + 1)
        assignment := assignment_gives ih
        conditional := (conditional_gives ih).mono fun _ le => Nat.le_trans le (by
          rw [heightLimit_succ]
          omega)
        localInit := initializer_gives ih ih.localInit
        statement := statement_gives ih }

/-! ### Functions of a unit -/

/-- The relation of states that have the same functions. -/
theorem sameFunctions : FileTransition fun s t => t.unit.functions = s.unit.functions where
  refl _ := rfl
  trans h k := k.trans h
  rest _ _ := rfl
  warnings _ _ := rfl
  errors _ _ := rfl
  bind _ _ _ := rfl
  bindFile _ _ _ := rfl
  symbol _ _ _ _ := rfl
  strings _ _ := rfl
  locals _ _ := rfl
  staticLocals _ _ := rfl
  global _ _ _ := rfl
  block h := h
  loop h := h
  forget _ _ := rfl

/-- The bodies of the functions read so far are not too high. -/
def lowCourse : Course where
  le _ _ := True
  refl _ := trivial
  trans _ _ := trivial
  within _ := True
  within_of_le _ _ := trivial
  valid s := ∀ f ∈ s.unit.functions,
    Stmt.AllLow (heightLimit maxNesting) (maxNesting + 2) f.body

variable {α : Type} {H : Prop} {p : Parser α} {P : α → Prop}

/-- A run that adds no function. -/
theorem Gives.low (h : Gives sameFunctions.toTransition p P) : Keeps lowCourse H p P := by
  intro s
  have run := h s
  cases hp : p s with
  | ok a t =>
      rw [hp] at run
      obtain ⟨⟨-, same⟩, given⟩ := run
      refine ⟨trivial, fun _ _ valid => ⟨fun f member => valid f (same ▸ member), ?_⟩⟩
      exact (given trivial trivial trivial).2
  | error e t =>
      rw [hp] at run
      obtain ⟨⟨-, same⟩, -⟩ := run
      exact ⟨trivial, fun _ _ valid f member => valid f (same ▸ member)⟩

/-- A change of the state that leaves the functions alone. -/
theorem modify_low {f : ParserState → ParserState}
    (same : ∀ s, (f s).unit.functions = s.unit.functions) :
    Keeps lowCourse H (modify f) fun _ => True :=
  .modify (fun _ => trivial) fun s _ _ valid function member => valid function (same s ▸ member)

theorem setSymbol_low (name : String) (symbol : GlobalSymbol) :
    Keeps lowCourse H (setSymbol name symbol) fun _ => True :=
  modify_low fun _ => rfl

section Unit

variable (low : g.Low sameFunctions.toTransition maxNesting)
include low

theorem functionDefinition_low (spec : DeclSpec) (d : Declarator) (signature : Signature) :
    Keeps lowCourse H (functionDefinition g spec d signature) fun _ => True := by
  unfold functionDefinition
  split
  case h_1 => exact (Gives.low loc_moves).skip fun _ => (Gives.low peek_moves).skip fun _ => .throw
  case h_2 name loc _ =>
    refine .ite (fun _ => .throw_bind) fun _ => .guard fun _ => .guard fun _ => ?_
    refine Keeps.get.skip fun _ => .guard fun _ => ?_
    refine (Gives.low (declareFunction_moves _ _ _ _)).skip fun _ => Keeps.get.skip fun _ => ?_
    refine (setSymbol_low _ _).skip fun _ => (Gives.low (bindFile_moves _ _)).skip fun _ => ?_
    refine .skip (modify_low fun _ => rfl) fun _ => ?_
    refine (Gives.low (bindParameters_moves sameFunctions _)).skip fun _ => ?_
    refine (Gives.low (expect_moves _)).skip fun _ =>
    (Gives.low (blockItems_gives low)).bind fun body => ?_
    refine .modify (fun _ => trivial) fun s _ pre valid => ?_
    exact List.forall_mem_append.mpr ⟨valid, List.forall_mem_singleton.mpr pre.2⟩

theorem fileDeclaratorStep_low (spec : DeclSpec) (first : Bool) :
    Keeps lowCourse H (fileDeclaratorStep g spec first) fun _ => True := by
  have moving := low.moving
  refine (Gives.low (moving.declarator _ false)).skip fun d => ?_
  refine (Gives.low skipAttributes_moves).skip fun _ =>
    (Gives.low (check_moves _)).skip fun body => ?_
  have declare : Keeps lowCourse H (do
      fileDeclaration g spec d
      if ← eat .comma then return ForInStep.yield false
      else
        expect .semicolon
        return ForInStep.done false) fun _ => True := by
    refine (Gives.low (fileDeclaration_moves sameFunctions moving spec d)).skip fun _ => ?_
    refine (Gives.low (eat_moves _)).skip fun _ => .ite (fun _ => .done) fun _ => ?_
    exact (Gives.low (expect_moves _)).skip fun _ => .done
  dsimp only
  split
  case h_1 signature _ =>
    refine .ite (fun _ => ?_) fun _ => declare
    exact (functionDefinition_low low spec d signature).skip fun _ => .done
  case h_2 => exact declare

theorem externalDeclaration_low : Keeps lowCourse H (externalDeclaration g) fun _ => True := by
  refine (Gives.low (eat_moves _)).skip fun _ => .ite (fun _ => .done) fun _ => ?_
  refine (Gives.low declSpecifiers_moves).skip fun spec =>
    (Gives.low (eat_moves _)).skip fun _ => ?_
  refine .ite (fun _ => .done) fun _ => .skip (P := fun _ => True) ?_ fun _ => .done
  exact (Keeps.iterate (I := fun _ => True) (fileDeclaratorStep_low low spec) true).pre
    fun pre => ⟨pre, trivial⟩

theorem translationUnit_low : Keeps lowCourse H (translationUnit g) fun _ => True := by
  refine (Keeps.iterate (I := fun _ => True) (fun _ => ?_) ()).pre fun pre => ⟨pre, trivial⟩
  refine (Gives.low atEnd_moves).skip fun _ => .ite (fun _ => .done) fun _ => ?_
  refine .skip (P := fun _ => True) (.tryCatch (externalDeclaration_low low) fun e => ?_)
    fun _ => .done
  exact (modify_low (fun _ => rfl)).skip fun _ => Gives.low (recover_moves false e)

end Unit
end Parser

/-- The functions of an accepted source are low, however long it is. -/
theorem low_of_parseTokens {tokens : List Token} {p : Parsed} (h : parseTokens tokens = .ok p) :
    ∀ f ∈ p.unit.functions, Stmt.AllLow (heightLimit maxNesting) (maxNesting + 2) f.body := by
  obtain ⟨s, t, run, unit, start⟩ := Parser.run_of_parseTokens h
  have kept := Parser.translationUnit_low (H := True)
    (Parser.productions_low (T := Parser.sameFunctions.toTransition) maxNesting) s
  rw [run] at kept
  rw [← unit]
  refine (kept.2 trivial trivial ?_).1
  intro f member
  rw [start] at member
  cases member

/-- The height of every expression of an accepted source counts the expressions on the longest way
down from it, callees and arguments included. It is bounded, and so is the number of statements in
each other, however long the source is. -/
theorem boundedHeight_of_parseTokens {tokens : List Token} {p : Parsed}
    (h : parseTokens tokens = .ok p) :
    ∀ f ∈ p.unit.functions, ∀ s ∈ f.body,
      (∀ path, s.IsPath path → (s :: path).length ≤ maxNesting + 2) ∧
      s.Throughout fun e => e.Everywhere fun e =>
        IsGreatest {n | ∃ path, e.IsPath path ∧ n = (e :: path).length} e.height ∧
          e.height ≤ maxExprHeight + 5 * maxNesting := by
  intro f isFunction s inBody
  have low := low_of_parseTokens h f isFunction s inBody
  refine ⟨fun path down => low.shallow.length_lt down, low.exprs.mono fun e le => ?_⟩
  exact (Expr.everywhere_height_le le).mono fun e le => ⟨e.isGreatest_height, le⟩

/-- Calls as arguments of calls, and statements in each other. -/
theorem boundedHeight_of_nestedCalls :
    let source := "int f() { for (int i = f(1); i;) if (f(i, f(f(2)) + 1)) return i ? f(3) : i; return 0; }"
    ∃ text p, tokenize source [] = .ok text ∧ parseTokens text.tokens = .ok p ∧
      p.unit.functions.length = 1 ∧ ∀ f ∈ p.unit.functions, ∀ s ∈ f.body,
        (∀ path, s.IsPath path → (s :: path).length ≤ 130) ∧
        s.Throughout fun e => e.Everywhere fun e =>
          IsGreatest {n | ∃ path, e.IsPath path ∧ n = (e :: path).length} e.height ∧
            e.height ≤ 896 := by
  intro source
  have accepted : (tokenize source []).toOption.any (fun text =>
      (parseTokens text.tokens).toOption.any (·.unit.functions.length = 1)) = true := by
    rw [tokenize_of_bytes (Text.toByteChars_of_all ?_)]
    all_goals decide +kernel
  obtain ⟨text, scanned, accepted⟩ := exists_of_toOption_any accepted
  obtain ⟨p, run, one⟩ := exists_of_toOption_any accepted
  exact ⟨text, p, scanned, run, of_decide_eq_true one, boundedHeight_of_parseTokens run⟩

end LiveC
