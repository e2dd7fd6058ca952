import LiveC.Proofs.BalancedCode
import Mathlib.Logic.Relation

/-!
The depth that the lowering of an expression is given is the number of words that are pushed
where its code is run, and between statements nothing is pushed.
-/

namespace LiveC

namespace Lowering

/-- A part of code is run where so many words are pushed. -/
def Within (whole : UnitCode) (h : Nat) (part : UnitCode) (k : Nat) : Prop :=
  ∃ before after : UnitCode, whole = before ++ (part ++ after) ∧ before.pushed h = k

namespace Within

variable {whole part others code : UnitCode} {h k j h' : Nat}

theorem refl : Within code h code h := ⟨[], [], by simp, rfl⟩

theorem trans (w : Within whole h code k) (w' : Within code k part j) : Within whole h part j := by
  obtain ⟨before, after, rfl, rfl⟩ := w
  obtain ⟨before', after', rfl, rfl⟩ := w'
  exact ⟨before ++ before', after' ++ after, by simp only [List.append_assoc], Code.pushed_append⟩

theorem left (w : Within code h part k) : Within (code ++ others) h part k := by
  obtain ⟨before, after, rfl, rfl⟩ := w
  exact ⟨before, after ++ others, by simp only [List.append_assoc], rfl⟩

theorem right (pushed : code.pushed h = h') (w : Within others h' part k) :
    Within (code ++ others) h part k := by
  obtain ⟨before, after, rfl, rfl⟩ := w
  exact ⟨code ++ before, after, by simp only [List.append_assoc], by
    rw [Code.pushed_append, pushed]⟩

end Within

variable {c : Context} {fc : FunctionContext} {depth n n' : Nat} {e : Expr} {code : UnitCode}

/-- Code that leaves the value or the address of an expression, lowered at a depth. -/
def IsCodeAt (c : Context) (depth : Nat) (e : Expr) (code : UnitCode) : Prop :=
  ∃ n n', expr c depth e n = .ok (code, n') ∨ address c depth e n = .ok (code, n')

/-- Landmarks of no use but to ask how many words code pushes. -/
def anywhere : Landmarks := ⟨fun _ => none, fun _ => True⟩

theorem IsCodeAt.pushed (h : IsCodeAt c depth e code) : code.pushed depth = depth := by
  obtain ⟨n, n', run⟩ := h
  have balanced := expr_address_balanced (M := anywhere) (c := c) (fun _ _ => trivial) e
  exact run.elim (fun run => (balanced.1 _ _ _ _ run).pushed) fun run => (balanced.2 _ _ _ _ run).pushed

/-- An expression has code that is run where as many words are pushed as the depth says that it
is lowered with, and that leaves as many; or it is a variable that is stored to. -/
def Tracked (c : Context) (whole : UnitCode) (h : Nat) (e : Expr) : Prop :=
  (∃ n id, e = .var n id) ∨
    ∃ k code, IsCodeAt c k e code ∧ code.pushed k = k ∧ Within whole h code k

namespace Tracked

variable {whole part others : UnitCode} {h h' k : Nat}

theorem here (isCode : IsCodeAt c depth e code) : Tracked c code depth e :=
  .inr ⟨depth, code, isCode, isCode.pushed, .refl⟩

theorem left (t : Tracked c code h e) : Tracked c (code ++ others) h e :=
  t.imp id fun ⟨k, part, isCode, same, w⟩ => ⟨k, part, isCode, same, w.left⟩

theorem right (pushed : code.pushed h = h') (t : Tracked c others h' e) :
    Tracked c (code ++ others) h e :=
  t.imp id fun ⟨k, part, isCode, same, w⟩ => ⟨k, part, isCode, same, w.right pushed⟩

theorem within (w : Within whole h code k) (t : Tracked c code k e) : Tracked c whole h e :=
  t.imp id fun ⟨j, part, isCode, same, w'⟩ => ⟨j, part, isCode, same, w.trans w'⟩

end Tracked

@[simp] theorem pushed_pushValue (ty : CType) (h : Nat) : Code.pushed h (pushValue ty) = h + 1 := by
  unfold pushValue
  split <;> rfl

theorem pushed_zeroing (a : Address) (size h : Nat) : Code.pushed h (zeroing a size) = h := by
  have balanced : Balanced anywhere h (zeroing a size) := .plain (plain_zeroing a size)
  exact balanced.pushed

theorem pushed_push (r : Gp) (h : Nat) : Code.pushed h (block [.push r]) = h + 1 := rfl

theorem arguments_tracked {args : List Expr} (run : arguments c depth args n = .ok (code, n')) :
    ∀ a ∈ args, Tracked c code depth a := by
  induction args generalizing depth n n' code with
  | nil => exact nofun
  | cons e es ih =>
      simp only [arguments, bind_eq_ok, pure_eq_ok] at run
      obtain ⟨first, _, hf, others, _, ho, rfl, -⟩ := run
      have isCode : IsCodeAt c depth e first := ⟨_, _, .inl hf⟩
      refine List.forall_mem_cons.mpr ⟨(Tracked.here isCode).left.left, fun a member => ?_⟩
      exact .right (by simp [isCode.pushed]) (ih ho a member)

theorem pushed_arguments {args : List Expr} (run : arguments c depth args n = .ok (code, n')) :
    code.pushed depth = depth + args.length := by
  have each := expr_address_balanced (M := anywhere) (c := c) fun _ _ => trivial
  exact (arguments_moves (fun e _ => (each e).1) run).pushed

theorem operands_tracked {l r : Expr} {left right : UnitCode} (hl : IsCodeAt c depth l left)
    (hr : IsCodeAt c (depth + 1) r right) :
    ∀ part ∈ [l, r], Tracked c (operands left right l.ty r.ty) depth part := by
  refine List.forall_mem_cons.mpr ⟨(Tracked.here hl).left.left.left, List.forall_mem_singleton.mpr ?_⟩
  exact .left (.right (by simp [hl.pushed]) (.here hr))

/-- The parts of an expression are run at the depths they are lowered with. -/
theorem parts_tracked (h : IsCodeAt c depth e code) : ∀ part ∈ e.parts, Tracked c code depth part := by
  obtain ⟨n, n', run | run⟩ := h
  · cases e with
    | int | float | str | var | global => exact nofun
    | deref m e | unary m op e =>
        simp only [expr, bind_eq_ok, pure_eq_ok] at run
        obtain ⟨code, _, he, rfl, -⟩ := run
        exact List.forall_mem_singleton.mpr (Tracked.here ⟨_, _, .inl he⟩).left
    | addrOf m e => exact List.forall_mem_singleton.mpr (.here ⟨_, _, .inr run⟩)
    | binary m op l r =>
        simp only [expr, bind_eq_ok, pure_eq_ok] at run
        obtain ⟨left, _, hl, right, _, hr, compute, _, -, rfl, -⟩ := run
        have both := operands_tracked (c := c) ⟨_, _, .inl hl⟩ ⟨_, _, .inl hr⟩
        exact fun part member => (both part member).left
    | compare m op l r =>
        simp only [expr, bind_eq_ok, pure_eq_ok] at run
        obtain ⟨left, _, hl, right, _, hr, rfl, -⟩ := run
        have both := operands_tracked (c := c) ⟨_, _, .inl hl⟩ ⟨_, _, .inl hr⟩
        exact fun part member => (both part member).left
    | logic m op l r =>
        simp only [expr, bind_eq_ok, pure_eq_ok] at run
        obtain ⟨stop, _, -, left, _, hl, right, _, hr, rfl, -⟩ := run
        have first : IsCodeAt c depth l left := ⟨_, _, .inl hl⟩
        refine List.forall_mem_cons.mpr ⟨(Tracked.here first).left.left.left,
          List.forall_mem_singleton.mpr (.left (.right ?_ (.here ⟨_, _, .inl hr⟩)))⟩
        simp [first.pushed]
    | assign m target value =>
        by_cases hvar : ∃ k id, target = .var k id
        · obtain ⟨k, id, rfl⟩ := hvar
          simp only [expr, bind_eq_ok, pure_eq_ok] at run
          obtain ⟨value, _, hv, _, _, -, store, _, hs, rfl, -⟩ := run
          exact List.forall_mem_cons.mpr ⟨.inl ⟨k, id, rfl⟩,
            List.forall_mem_singleton.mpr (Tracked.here ⟨_, _, .inl hv⟩).left⟩
        · rw [expr_assign fun k id e => hvar ⟨k, id, e⟩] at run
          simp only [bind_eq_ok, pure_eq_ok] at run
          obtain ⟨place, _, hp, value, _, hv, store, _, hs, rfl, -⟩ := run
          have first : IsCodeAt c depth target place := ⟨_, _, .inr hp⟩
          refine List.forall_mem_cons.mpr ⟨(Tracked.here first).left.left.left.left,
            List.forall_mem_singleton.mpr (.left (.left (.right ?_ (.here ⟨_, _, .inl hv⟩))))⟩
          simp [first.pushed, pushed_push]
    | opAssign m op ty target value =>
        simp only [expr, bind_eq_ok] at run
        obtain ⟨place, _, hp, value', _, hv, run⟩ := run
        simp only [compound, bind_eq_ok, pure_eq_ok] at run
        obtain ⟨widen, _, hw, compute, _, hc, narrow, _, hn, store, _, hs, rfl, -⟩ := run
        have first : IsCodeAt c depth target place := ⟨_, _, .inr hp⟩
        have both : ∀ part ∈ [target, value], Tracked c (place ++ block [.push .rax] ++ value')
            depth part := by
          refine List.forall_mem_cons.mpr ⟨(Tracked.here first).left.left,
            List.forall_mem_singleton.mpr (.right ?_ (.here ⟨_, _, .inl hv⟩))⟩
          simp [first.pushed, pushed_push]
        exact fun part member => (both part member).left.left.left.left.left.left.left.left.left
    | step m delta before target =>
        simp only [expr, bind_eq_ok, pure_eq_ok] at run
        obtain ⟨place, _, hp, code, _, hc, rfl, -⟩ := run
        exact List.forall_mem_singleton.mpr (Tracked.here ⟨_, _, .inr hp⟩).left
    | cond m e t f =>
        simp only [expr, bind_eq_ok, pure_eq_ok] at run
        obtain ⟨other, _, -, stop, _, -, test, _, he, yes, _, ht, no, _, hf, rfl, -⟩ := run
        have first : IsCodeAt c depth e test := ⟨_, _, .inl he⟩
        have second : IsCodeAt c depth t yes := ⟨_, _, .inl ht⟩
        have chosen : Tracked c (test ++ branch .equal other ++ yes) depth t :=
          .right (by simp [first.pushed]) (.here second)
        refine List.forall_mem_cons.mpr ⟨(Tracked.here first).left.left.left.left.left.left,
          List.forall_mem_cons.mpr ⟨chosen.left.left.left.left,
            List.forall_mem_singleton.mpr (.left (.right ?_ (.here ⟨_, _, .inl hf⟩)))⟩⟩
        simp [first.pushed, second.pushed]
    | cast m e =>
        simp only [expr, bind_eq_ok, pure_eq_ok] at run
        obtain ⟨code, _, he, convert, _, hc, rfl, -⟩ := run
        exact List.forall_mem_singleton.mpr (Tracked.here ⟨_, _, .inl he⟩).left
    | call m name s args =>
        simp only [expr, bind_eq_ok, pure_eq_ok] at run
        obtain ⟨pushed, _, hp, code, _, hc, rfl, -⟩ := run
        exact fun part member => (arguments_tracked hp part member).left
    | callPointer m s callee args =>
        simp only [expr, bind_eq_ok, pure_eq_ok] at run
        obtain ⟨pushed, _, hp, pointer, _, hf, code, _, hc, rfl, -⟩ := run
        refine List.forall_mem_cons.mpr ⟨.left (.left (.right (pushed_arguments hp)
          (.here ⟨_, _, .inl hf⟩))), fun part member => ?_⟩
        exact (arguments_tracked hp part member).left.left.left
    | comma m l r =>
        simp only [expr, bind_eq_ok, pure_eq_ok] at run
        obtain ⟨left, _, hl, right, _, hr, rfl, -⟩ := run
        have first : IsCodeAt c depth l left := ⟨_, _, .inl hl⟩
        exact List.forall_mem_cons.mpr ⟨(Tracked.here first).left,
          List.forall_mem_singleton.mpr (.right first.pushed (.here ⟨_, _, .inl hr⟩))⟩
  · cases e with
    | str | var | global => exact nofun
    | deref m e => exact List.forall_mem_singleton.mpr (.here ⟨_, _, .inl run⟩)
    | _ => exact absurd run (address_ne_ok rfl)

/-- So are all subexpressions. -/
theorem subexpressions_tracked (h : IsCodeAt c depth e code) {sub : Expr}
    (member : Relation.ReflTransGen (fun a b => b ∈ a.parts) e sub) : Tracked c code depth sub := by
  induction member with
  | refl => exact .here h
  | tail _ last ih =>
      rcases ih with ⟨n, id, rfl⟩ | ⟨k, part, isCode, -, w⟩
      · cases last
      · exact .within w (parts_tracked isCode _ last)

/-! ### Statements -/

/-- Some part of the code has a property, and is run with nothing pushed. -/
def Grounded (P : UnitCode → Prop) (code : UnitCode) : Prop := ∃ part, P part ∧ Within code 0 part 0

namespace Grounded

variable {P : UnitCode → Prop} {others : UnitCode}

theorem here (h : P code) : Grounded P code := ⟨code, h, .refl⟩

theorem left (g : Grounded P code) : Grounded P (code ++ others) :=
  g.imp fun _ h => ⟨h.1, h.2.left⟩

theorem right (pushed : code.pushed 0 = 0) (g : Grounded P others) : Grounded P (code ++ others) :=
  g.imp fun _ h => ⟨h.1, h.2.right pushed⟩

theorem within {whole : UnitCode} (w : Within whole 0 code 0) (g : Grounded P code) :
    Grounded P whole :=
  g.imp fun _ h => ⟨h.1, w.trans h.2⟩

end Grounded

def IsStmtCode (c : FunctionContext) (s : Stmt) (code : UnitCode) : Prop :=
  ∃ loop n n', stmt c loop s n = .ok (code, n')

theorem settled_anywhere {s : Stmt} {loop : Option LoopLabels}
    (run : stmt fc loop s n = .ok (code, n')) : Settled anywhere (exits fc loop) code :=
  stmt_settled (fun _ _ => trivial) run

theorem IsStmtCode.pushed {s : Stmt} (h : IsStmtCode fc s code) : code.pushed 0 = 0 := by
  obtain ⟨loop, n, n', run⟩ := h
  exact (settled_anywhere run).1

theorem stmts_grounded {body : List Stmt} {loop : Option LoopLabels}
    (run : stmts fc loop body n = .ok (code, n')) :
    ∀ s ∈ body, Grounded (IsStmtCode fc s) code := by
  induction body generalizing n code with
  | nil => exact nofun
  | cons s body ih =>
      obtain ⟨first, _, others, hs, ho, rfl⟩ := stmts_cons_eq_ok.mp run
      have isCode : IsStmtCode fc s first := ⟨_, _, _, hs⟩
      exact List.forall_mem_cons.mpr ⟨(Grounded.here isCode).left,
        fun t member => .right isCode.pushed (ih ho t member)⟩

theorem initStores_grounded {offset : BitVec 32} {stores : List InitStore}
    (run : initStores c offset stores n = .ok (code, n')) :
    ∀ e ∈ stores.map InitStore.value, Grounded (IsCodeAt c 0 e) code := by
  induction stores generalizing n code with
  | nil => exact nofun
  | cons s stores ih =>
      simp only [initStores, bind_eq_ok, pure_eq_ok] at run
      obtain ⟨value, _, hv, store, _, hs, others, _, ho, rfl, rfl⟩ := run
      have isCode : IsCodeAt c 0 s.value value := ⟨_, _, .inl hv⟩
      have stored : Balanced anywhere 0 store := .plain (plain_storeValue hs)
      exact List.forall_mem_cons.mpr ⟨(Grounded.here isCode).left.left,
        fun e member => .right (by simp [isCode.pushed, stored.pushed]) (ih ho e member)⟩

theorem skipping_grounded {e : Expr} {l : Label} (run : skipping c e l n = .ok (code, n')) :
    Grounded (IsCodeAt c 0 e) code ∧ code.pushed 0 = 0 := by
  simp only [skipping, bind_eq_ok, pure_eq_ok] at run
  obtain ⟨test, _, he, rfl, -⟩ := run
  have isCode : IsCodeAt c 0 e test := ⟨_, _, .inl he⟩
  exact ⟨(Grounded.here isCode).left, by simp [isCode.pushed]⟩

theorem skippingOptional_grounded {e : Option Expr} {l : Label}
    (run : skippingOptional c l e n = .ok (code, n')) :
    (∀ e' ∈ e.toList, Grounded (IsCodeAt c 0 e') code) ∧ code.pushed 0 = 0 := by
  cases e with
  | some e =>
      exact ⟨List.forall_mem_singleton.mpr (skipping_grounded run).1, (skipping_grounded run).2⟩
  | none =>
      obtain ⟨rfl, -⟩ := pure_eq_ok.mp run
      exact ⟨nofun, rfl⟩

theorem optional_grounded {e : Option Expr} (run : optional c e n = .ok (code, n')) :
    (∀ e' ∈ e.toList, Grounded (IsCodeAt c 0 e') code) ∧ code.pushed 0 = 0 := by
  cases e with
  | some e =>
      have isCode : IsCodeAt c 0 e code := ⟨_, _, .inl run⟩
      exact ⟨List.forall_mem_singleton.mpr (.here isCode), isCode.pushed⟩
  | none =>
      obtain ⟨rfl, -⟩ := pure_eq_ok.mp run
      exact ⟨nofun, rfl⟩

theorem optionalStmt_grounded {s : Option Stmt} {loop : Option LoopLabels}
    (run : optionalStmt fc loop s n = .ok (code, n')) :
    (∀ t ∈ s.toList, Grounded (IsStmtCode fc t) code) ∧ code.pushed 0 = 0 := by
  cases s with
  | some s =>
      have isCode : IsStmtCode fc s code := ⟨_, _, _, run⟩
      exact ⟨List.forall_mem_singleton.mpr (.here isCode), isCode.pushed⟩
  | none =>
      obtain ⟨rfl, -⟩ := pure_eq_ok.mp run
      exact ⟨nofun, rfl⟩

/-- The parts of a statement are run with nothing pushed. -/
theorem stmt_grounded {s : Stmt} (h : IsStmtCode fc s code) :
    (∀ t ∈ s.subs, Grounded (IsStmtCode fc t) code) ∧
      ∀ e ∈ s.exprs, Grounded (IsCodeAt fc.toContext 0 e) code := by
  obtain ⟨loop, n, n', run⟩ := h
  cases s with
  | expr e => exact ⟨nofun, List.forall_mem_singleton.mpr (.here ⟨_, _, .inl run⟩)⟩
  | init id zero stores =>
      obtain ⟨_, others, -, ho, rfl⟩ := composed_of_stmt run
      refine ⟨nofun, fun e member => .right ?_ (initStores_grounded ho e member)⟩
      split
      · exact pushed_zeroing _ _ _
      · rfl
  | block body => exact ⟨stmts_grounded run, nofun⟩
  | ite e t f =>
      cases f with
      | none =>
          obtain ⟨test, _, yes, hs, hy, rfl⟩ := composed_of_stmt run
          obtain ⟨tested, pushed⟩ := skipping_grounded hs
          exact ⟨List.forall_mem_singleton.mpr (.left (.right pushed (.here ⟨_, _, _, hy⟩))),
            List.forall_mem_singleton.mpr tested.left.left⟩
      | some f =>
          obtain ⟨test, _, yes, stop, no, hs, hy, hn, rfl⟩ := composed_of_stmt run
          obtain ⟨tested, pushed⟩ := skipping_grounded hs
          have chosen : IsStmtCode fc t yes := ⟨_, _, _, hy⟩
          have taken : Grounded (IsStmtCode fc t) (test ++ yes) := .right pushed (.here chosen)
          have refused : Grounded (IsStmtCode fc f)
              (test ++ yes ++ goto stop ++ [.label n] ++ no ++ [.label stop]) :=
            .left (.right (by simp [pushed, chosen.pushed]) (.here ⟨_, _, _, hn⟩))
          exact ⟨List.forall_mem_cons.mpr ⟨taken.left.left.left.left,
            List.forall_mem_singleton.mpr refused⟩,
            List.forall_mem_singleton.mpr tested.left.left.left.left.left⟩
  | «while» e body =>
      obtain ⟨test, _, code, hs, hb, rfl⟩ := composed_of_stmt run
      obtain ⟨tested, pushed⟩ := skipping_grounded hs
      have first : Grounded (IsCodeAt fc.toContext 0 e) (.label n :: test) :=
        tested.right (show Code.pushed 0 [.label n] = 0 from rfl)
      exact ⟨List.forall_mem_singleton.mpr (.left (.left (.right (by simp [pushed])
          (.here ⟨_, _, _, hb⟩)))), List.forall_mem_singleton.mpr first.left.left.left⟩
  | doWhile body e =>
      obtain ⟨code, _, test, hb, ht, rfl⟩ := composed_of_stmt run
      have isCode : IsStmtCode fc body code := ⟨_, _, _, hb⟩
      have first : Grounded (IsStmtCode fc body) (.label n :: code) :=
        (Grounded.here isCode).right (show Code.pushed 0 [.label n] = 0 from rfl)
      exact ⟨List.forall_mem_singleton.mpr first.left.left.left.left,
        List.forall_mem_singleton.mpr (.left (.left (.right (by simp [isCode.pushed])
          (.here ⟨_, _, .inl ht⟩))))⟩
  | «for» start e step body =>
      obtain ⟨first, top, test, _, code, _, last, hs, ht, hb, hl, rfl⟩ := composed_of_stmt run
      obtain ⟨started, pushedS⟩ := optionalStmt_grounded hs
      obtain ⟨tested, pushedT⟩ := skippingOptional_grounded ht
      obtain ⟨stepped, -⟩ := optional_grounded hl
      have isCode : IsStmtCode fc body code := ⟨_, _, _, hb⟩
      have pass : Grounded (IsStmtCode fc body) (first ++ [.label top] ++ test ++ code) :=
        .right (by simp [pushedS, pushedT]) (.here isCode)
      refine ⟨List.forall_mem_append.mpr ⟨fun t member => ?_, List.forall_mem_singleton.mpr
        pass.left.left.left.left⟩, List.forall_mem_append.mpr ⟨fun e member => ?_,
          fun e member => ?_⟩⟩
      · exact (started t member).left.left.left.left.left.left.left
      · exact .left (.left (.left (.left (.left (.right (by simp [pushedS]) (tested e member))))))
      · exact .left (.left (.right (by simp [pushedS, pushedT, isCode.pushed]) (stepped e member)))
  | «break» | «continue» => exact ⟨nofun, nofun⟩
  | «return» value =>
      obtain ⟨code, ho, rfl⟩ := composed_of_stmt run
      exact ⟨nofun, fun e member => ((optional_grounded ho).1 e member).left⟩
  | empty => exact ⟨nofun, nofun⟩

/-- So are all statements in it. -/
theorem substatements_grounded {s t : Stmt} (h : IsStmtCode fc s code)
    (member : Relation.ReflTransGen (fun a b => b ∈ a.subs) s t) :
    Grounded (IsStmtCode fc t) code := by
  induction member with
  | refl => exact .here h
  | tail _ last ih =>
      obtain ⟨part, isCode, w⟩ := ih
      exact .within w ((stmt_grounded isCode).1 _ last)

/-- Every statement of a body is run with nothing pushed and leaves nothing, and every
expression in it at the depth that it is lowered with. -/
theorem body_tracked {body : List Stmt} {loop : Option LoopLabels}
    (run : stmts fc loop body n = .ok (code, n')) {s t : Stmt} (member : s ∈ body)
    (nested : Relation.ReflTransGen (fun a b => b ∈ a.subs) s t) :
    Grounded (fun part => IsStmtCode fc t part ∧ part.pushed 0 = 0) code ∧
      ∀ e ∈ t.exprs, ∀ sub, Relation.ReflTransGen (fun a b => b ∈ a.parts) e sub →
        Tracked fc.toContext code 0 sub := by
  obtain ⟨outer, isOuter, w⟩ := stmts_grounded run s member
  obtain ⟨part, isPart, w'⟩ := substatements_grounded isOuter nested
  refine ⟨⟨part, ⟨isPart, isPart.pushed⟩, w.trans w'⟩, fun e member sub within => ?_⟩
  obtain ⟨eCode, isCode, w''⟩ := (stmt_grounded isPart).2 e member
  exact .within ((w.trans w').trans w'') (subexpressions_tracked isCode within)

end Lowering
end LiveC
