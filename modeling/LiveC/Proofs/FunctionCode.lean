import LiveC.Proofs.Segments
import LiveC.Proofs.StatementLabels

/-!
The code of statements follows their execution, one lemma for each kind of statement. The
statement that carries the induction speaks of code anywhere in a program whose labels lead
where they stand.

The code of a function preserves the control flow of its body: in the program of its unit,
runs do what the execution of the body does and end where every return leads.
-/

namespace LiveC
namespace Lowering

/-- Where the end of a statement leads: behind its code, to a label of the innermost loop,
or to the end of the function. -/
def Lands (L : Language Segment) (program : List Segment) (loop : Option LoopLabels)
    (finish : Label) (rest : List Segment) : Completion → List Segment → Prop
  | .normal, code => code = rest
  | .broke, code => ∃ l, loop = some l ∧ L.seek? l.stop program = some code
  | .continued, code => ∃ l, loop = some l ∧ L.seek? l.next program = some code
  | .returned, code => L.seek? finish program = some code

/-- The labels that the code of a statement may jump to occur. -/
def Targets (L : Language Segment) (program : List Segment) (loop : Option LoopLabels)
    (finish : Label) : Prop :=
  (∃ code, L.seek? finish program = some code) ∧
    ∀ l, loop = some l → (∃ code, L.seek? l.next program = some code) ∧
      ∃ code, L.seek? l.stop program = some code

/-- Wherever the segments stand in a program, their runs follow the execution. -/
def Performs (c : FunctionContext) (loop : Option LoopLabels) (segments : List Segment)
    (x : Meaning → Nat → Execution Completion) : Prop :=
  ∀ {A link program fuel rest}, (segmentCode A link).Placed program segments rest →
    Targets (segmentCode A link) program loop c.finish →
    Follows A link program fuel (segments ++ rest) (x A fuel)
      (Lands (segmentCode A link) program loop c.finish rest)

/-- The code can be cut into segments that perform the execution. -/
def Implements (c : FunctionContext) (loop : Option LoopLabels) (code : UnitCode)
    (x : Meaning → Nat → Execution Completion) : Prop :=
  ∃ segments, Cut c segments code ∧ Performs c loop segments x

variable {c : FunctionContext} {loop : Option LoopLabels} {n n' : Label} {code : UnitCode}
  {A : Meaning} {link : CodeTarget → Word} {program rest mid : List Segment} {fuel : Nat}

/-! ### Sequences -/

/-- Behind a statement that completes the code goes on. -/
theorem Follows.past {finish : Label} {segments : List Segment} {x : Execution Completion}
    (h : Follows A link program fuel segments x
      (Lands (segmentCode A link) program loop finish mid))
    (hm : Follows A link program fuel mid (Pure.pure .normal)
      (Lands (segmentCode A link) program loop finish rest)) :
    Follows A link program fuel segments x
      (Lands (segmentCode A link) program loop finish rest) := by
  refine h.onward fun o r landed => ?_
  cases o with
  | normal =>
      subst landed
      exact hm
  | broke | continued | returned => exact .pure landed

/-- A statement that does not complete skips what follows. -/
theorem Follows.seq {finish : Label} {segments : List Segment} {x y : Execution Completion}
    (h : Follows A link program fuel segments x
      (Lands (segmentCode A link) program loop finish mid))
    (hm : Follows A link program fuel mid y
      (Lands (segmentCode A link) program loop finish rest)) :
    Follows A link program fuel segments
      (do
        match ← x with
        | .normal => y
        | o => return o)
      (Lands (segmentCode A link) program loop finish rest) := by
  refine h.bind fun o r landed => ?_
  cases o with
  | normal =>
      subst landed
      exact hm
  | broke | continued | returned => exact .pure landed

/-! ### Simple statements -/

theorem implements_expr {e : Expr} (h : stmt c loop (.expr e) n = .ok (code, n')) :
    Implements c loop code fun A fuel => (Stmt.expr e).exec A fuel :=
  ⟨[.act (.eval e) code], .act (.eval h), fun _ _ => Follows.act.bind fun _ _ landed =>
    .pure landed⟩

theorem implements_empty (h : stmt c loop .empty n = .ok (code, n')) :
    Implements c loop code fun A fuel => Stmt.empty.exec A fuel := by
  obtain ⟨-, rfl⟩ := composed_of_stmt h
  exact ⟨[], .pieces c [], fun _ _ => .pure rfl⟩

theorem implements_break (h : stmt c loop .break n = .ok (code, n')) :
    Implements c loop code fun A fuel => Stmt.break.exec A fuel := by
  obtain ⟨-, l, rfl, rfl⟩ := composed_of_stmt h
  refine ⟨pieces (goto l.stop), .pieces c _, fun _ targets => ?_⟩
  obtain ⟨-, stop, hs⟩ := targets.2 l rfl
  exact .jump hs (.pure ⟨l, rfl, hs⟩)

theorem implements_continue (h : stmt c loop .continue n = .ok (code, n')) :
    Implements c loop code fun A fuel => Stmt.continue.exec A fuel := by
  obtain ⟨-, l, rfl, rfl⟩ := composed_of_stmt h
  refine ⟨pieces (goto l.next), .pieces c _, fun _ targets => ?_⟩
  obtain ⟨⟨next, hn⟩, -⟩ := targets.2 l rfl
  exact .jump hn (.pure ⟨l, rfl, hn⟩)

/-- The code of an expression that may be missing. -/
theorem optional_cut {e : Option Expr} (h : optional c.toContext e n = .ok (code, n')) :
    ∃ segments, Cut c segments code ∧ ∀ {A link program fuel rest},
      Follows A link program fuel (segments ++ rest) (Execution.evalOptional A e)
        fun _ r => r = rest := by
  cases e with
  | none =>
      obtain ⟨rfl, -⟩ := pure_eq_ok.mp h
      exact ⟨[], .pieces c [], .pure rfl⟩
  | some e => exact ⟨[.act (.eval e) code], .act (.eval h), .act⟩

theorem implements_return {value : Option Expr}
    (h : stmt c loop (.return value) n = .ok (code, n')) :
    Implements c loop code fun A fuel => (Stmt.return value).exec A fuel := by
  obtain ⟨code, lower, rfl⟩ := composed_of_stmt h
  obtain ⟨segments, cut, follows⟩ := optional_cut lower
  refine ⟨segments ++ pieces (goto c.finish), cut.append (.pieces c _), fun _ targets => ?_⟩
  obtain ⟨finish, hf⟩ := targets.1
  rw [List.append_assoc]
  refine follows.bind fun _ r hr => ?_
  subst hr
  exact .jump hf (.pure hf)

/-! ### Initialisation -/

theorem initStores_cut {id : Nat} {offset : BitVec 32} (found : c.offsets[id]? = some offset)
    {stores : List InitStore} (h : initStores c.toContext offset stores n = .ok (code, n')) :
    ∃ segments, Cut c segments code ∧ ∀ {A link program fuel rest},
      Follows A link program fuel (segments ++ rest) (Execution.initialise A id stores)
        fun _ r => r = rest := by
  induction stores generalizing n code with
  | nil =>
      obtain ⟨rfl, -⟩ := pure_eq_ok.mp h
      exact ⟨[], .pieces c [], .pure rfl⟩
  | cons s stores ih =>
      simp only [initStores, bind_eq_ok, pure_eq_ok] at h
      obtain ⟨value, _, hv, store, _, hs, others, _, ho, rfl, rfl⟩ := h
      obtain ⟨segments, cut, follows⟩ := ih ho
      refine ⟨.act (.eval s.value) value :: .act (.store id s.offset s.value.ty) store :: segments,
        ?_, ?_⟩
      · rw [List.append_assoc]
        exact (Cut.act (.eval hv)).append ((Cut.act (.store found hs)).append cut)
      · refine Follows.act.bind fun _ r hr => ?_
        subst hr
        refine Follows.act.bind fun _ r hr => ?_
        subst hr
        exact follows

theorem implements_init {id : Nat} {zero : Bool} {stores : List InitStore}
    (h : stmt c loop (.init id zero stores) n = .ok (code, n')) :
    Implements c loop code fun A fuel => (Stmt.init id zero stores).exec A fuel := by
  obtain ⟨offset, others, found, ho, rfl⟩ := composed_of_stmt h
  obtain ⟨segments, cut, follows⟩ := initStores_cut found ho
  cases zero with
  | true =>
      refine ⟨_, (Cut.act (.zero found)).append cut, fun _ _ => ?_⟩
      refine Follows.act.bind fun _ r hr => ?_
      subst hr
      exact follows.bind fun _ r hr => .pure hr
  | false => exact ⟨segments, cut, fun _ _ => follows.bind fun _ r hr => .pure hr⟩

/-! ### Conditions -/

theorem skipping_cut {e : Expr} {l : Label} (h : skipping c.toContext e l n = .ok (code, n')) :
    ∃ k, Cut c (.act (.eval e) k :: pieces (branch .equal l)) code := by
  simp only [skipping, bind_eq_ok, pure_eq_ok] at h
  obtain ⟨k, _, hk, rfl, rfl⟩ := h
  exact ⟨k, (Cut.act (.eval hk)).append (.pieces c _)⟩

theorem implements_ite_none {e : Expr} {t : Stmt}
    (ht : ∀ {n n' code}, stmt c loop t n = .ok (code, n') →
      Implements c loop code fun A fuel => t.exec A fuel)
    (h : stmt c loop (.ite e t none) n = .ok (code, n')) :
    Implements c loop code fun A fuel => (Stmt.ite e t none).exec A fuel := by
  obtain ⟨test, _, yes, hs, hy, rfl⟩ := composed_of_stmt h
  obtain ⟨k, cutTest⟩ := skipping_cut hs
  obtain ⟨segments, cut, performs⟩ := ht hy
  refine ⟨_, (cutTest.append cut).append (.pieces c [.label n]), fun placed targets => ?_⟩
  simp only [Language.placed_append, List.append_assoc] at placed ⊢
  obtain ⟨-, placedT, otherPlaced⟩ := placed
  refine (Follows.test false (otherPlaced.1 _ rfl)).bind fun b r hr => ?_
  subst hr
  cases b with
  | true => exact (performs placedT targets).past (.behind_label (.pure rfl))
  | false => exact .behind_label (.pure rfl)

theorem implements_ite_some {e : Expr} {t f : Stmt}
    (ht : ∀ {n n' code}, stmt c loop t n = .ok (code, n') →
      Implements c loop code fun A fuel => t.exec A fuel)
    (hf : ∀ {n n' code}, stmt c loop f n = .ok (code, n') →
      Implements c loop code fun A fuel => f.exec A fuel)
    (h : stmt c loop (.ite e t (some f)) n = .ok (code, n')) :
    Implements c loop code fun A fuel => (Stmt.ite e t (some f)).exec A fuel := by
  obtain ⟨test, _, yes, stop, no, hs, hy, hn, rfl⟩ := composed_of_stmt h
  obtain ⟨k, cutTest⟩ := skipping_cut hs
  obtain ⟨segmentsT, cutT, performsT⟩ := ht hy
  obtain ⟨segmentsF, cutF, performsF⟩ := hf hn
  refine ⟨_, ((((cutTest.append cutT).append (.pieces c (goto stop))).append
    (.pieces c [.label n])).append cutF).append (.pieces c [.label stop]), fun placed targets => ?_⟩
  simp only [Language.placed_append, List.append_assoc] at placed ⊢
  obtain ⟨-, placedT, -, otherPlaced, placedF, stopPlaced⟩ := placed
  refine (Follows.test false (otherPlaced.1 _ rfl)).bind fun b r hr => ?_
  subst hr
  cases b with
  | true =>
      exact (performsT placedT targets).past
        (.jump (stopPlaced.1 _ rfl) (.behind_label (.pure rfl)))
  | false => exact .behind_label ((performsF placedF targets).past (.behind_label (.pure rfl)))

/-! ### Loops -/

/-- A pass that begins with its condition, for a loop whose `next` leads to the end of the
pass and whose `stop` leads behind the loop. -/
theorem Follows.testFirst {l : LoopLabels} {finish : Label} {test : Execution Bool}
    {body : Execution Completion} {step : Execution Unit} {start segments next back : List Segment}
    (ht : Follows A link program fuel start test
      fun b r => r = if b = false then pieces [.label l.stop] ++ rest else segments)
    (hb : Follows A link program fuel segments body
      (Lands (segmentCode A link) program (some l) finish mid))
    (stops : (segmentCode A link).seek? l.stop program = some (pieces [.label l.stop] ++ rest))
    (goesOn : (segmentCode A link).seek? l.next program = some next)
    (hm : Follows A link program fuel mid step fun _ r => r = back)
    (hn : Follows A link program fuel next step fun _ r => r = back) :
    Follows A link program fuel start (Execution.testFirst test body step) fun
      | none, r => r = back
      | some o, r => Lands (segmentCode A link) program loop finish rest o r := by
  refine ht.bind fun b r hr => ?_
  subst hr
  cases b with
  | false => exact .behind_label (.pure rfl)
  | true =>
      refine hb.bind fun o r landed => ?_
      cases o with
      | normal =>
          subst landed
          exact hm.bind fun _ r hr => .pure hr
      | continued =>
          obtain ⟨_, ⟨⟩, hc⟩ := landed
          obtain rfl := Option.some.inj (goesOn.symm.trans hc)
          exact hn.bind fun _ r hr => .pure hr
      | broke =>
          obtain ⟨_, ⟨⟩, hs⟩ := landed
          obtain rfl := Option.some.inj (stops.symm.trans hs)
          exact .behind_label (.pure rfl)
      | returned => exact .pure landed

/-- A pass that ends with its condition. -/
theorem Follows.testLast {l : LoopLabels} {finish : Label} {test : Execution Bool}
    {body : Execution Completion} {start next back : List Segment}
    (hb : Follows A link program fuel start body
      (Lands (segmentCode A link) program (some l) finish next))
    (stops : (segmentCode A link).seek? l.stop program = some (pieces [.label l.stop] ++ rest))
    (goesOn : (segmentCode A link).seek? l.next program = some next)
    (ht : Follows A link program fuel next test
      fun b r => r = if b = true then back else pieces [.label l.stop] ++ rest) :
    Follows A link program fuel start (Execution.testLast test body) fun
      | none, r => r = back
      | some o, r => Lands (segmentCode A link) program loop finish rest o r := by
  have tested : Follows A link program fuel next
      (do return if ← test then none else some .normal) fun
        | none, r => r = back
        | some o, r => Lands (segmentCode A link) program loop finish rest o r := by
    refine ht.bind fun b r hr => ?_
    subst hr
    cases b with
    | true => exact .pure rfl
    | false => exact .behind_label (.pure rfl)
  refine hb.bind fun o r landed => ?_
  cases o with
  | normal =>
      subst landed
      exact tested
  | continued =>
      obtain ⟨_, ⟨⟩, hc⟩ := landed
      obtain rfl := Option.some.inj (goesOn.symm.trans hc)
      exact tested
  | broke =>
      obtain ⟨_, ⟨⟩, hs⟩ := landed
      obtain rfl := Option.some.inj (stops.symm.trans hs)
      exact .behind_label (.pure rfl)
  | returned => exact .pure landed

/-- The labels of a loop are targets for its body. -/
theorem Targets.inside {L : Language Segment} {l : LoopLabels} {finish : Label}
    {next stop : List Segment} (h : Targets L program loop finish)
    (hn : L.seek? l.next program = some next) (hs : L.seek? l.stop program = some stop) :
    Targets L program (some l) finish :=
  ⟨h.1, fun _ e => Option.some.inj e ▸ ⟨⟨_, hn⟩, _, hs⟩⟩

theorem implements_while {e : Expr} {body : Stmt}
    (hb : ∀ {loop n n' code}, stmt c loop body n = .ok (code, n') →
      Implements c loop code fun A fuel => body.exec A fuel)
    (h : stmt c loop (.while e body) n = .ok (code, n')) :
    Implements c loop code fun A fuel => (Stmt.while e body).exec A fuel := by
  obtain ⟨test, _, code, hs, lower, rfl⟩ := composed_of_stmt h
  obtain ⟨k, cutTest⟩ := skipping_cut hs
  obtain ⟨segments, cut, performs⟩ := hb lower
  refine ⟨_, (((((Cut.pieces c [.label n]).append cutTest).append cut).append
    (.pieces c (goto n))).append (.pieces c [.label (n + 1)])), fun placed targets => ?_⟩
  simp only [Language.placed_append, List.append_assoc] at placed ⊢
  obtain ⟨topPlaced, -, placedB, -, stopPlaced⟩ := placed
  have top := topPlaced.1 _ rfl
  have stop := stopPlaced.1 _ rfl
  refine Follows.passes (Follows.testFirst (.test false stop)
    (performs placedB (targets.inside top stop)) stop top (.jump top (.pure rfl)) ?_) (Nat.le_refl _)
  exact .pure rfl

theorem implements_doWhile {e : Expr} {body : Stmt}
    (hb : ∀ {loop n n' code}, stmt c loop body n = .ok (code, n') →
      Implements c loop code fun A fuel => body.exec A fuel)
    (h : stmt c loop (.doWhile body e) n = .ok (code, n')) :
    Implements c loop code fun A fuel => (Stmt.doWhile body e).exec A fuel := by
  obtain ⟨code, _, test, lower, ht, rfl⟩ := composed_of_stmt h
  obtain ⟨segments, cut, performs⟩ := hb lower
  refine ⟨_, ((((((Cut.pieces c [.label n]).append cut).append (.pieces c [.label (n + 1)])).append
    (.act (.eval ht))).append (.pieces c (branch .notEqual n))).append
    (.pieces c [.label (n + 1 + 1)])), fun placed targets => ?_⟩
  simp only [Language.placed_append, List.append_assoc] at placed ⊢
  obtain ⟨topPlaced, placedB, nextPlaced, -, -, stopPlaced⟩ := placed
  have top := topPlaced.1 _ rfl
  have next := nextPlaced.1 _ rfl
  have stop := stopPlaced.1 _ rfl
  exact Follows.passes (.testLast (performs placedB (targets.inside next stop)) stop next
    (.behind_label (.test true top))) (Nat.le_refl _)

/-- The condition of a `for`, which may be missing. -/
theorem testOptional_cut {e : Option Expr} {l : Label}
    (h : skippingOptional c.toContext l e n = .ok (code, n')) :
    ∃ segments, Cut c segments code ∧ ∀ {A link program fuel rest stop},
      (segmentCode A link).seek? l program = some stop →
      Follows A link program fuel (segments ++ rest) (Execution.testOptional A e)
        fun b r => r = if b = false then stop else rest := by
  cases e with
  | some e =>
      obtain ⟨k, cut⟩ := skipping_cut h
      exact ⟨_, cut, fun hl => .test false hl⟩
  | none =>
      obtain ⟨rfl, -⟩ := pure_eq_ok.mp h
      exact ⟨[], .pieces c [], fun _ => .pure rfl⟩

theorem implements_for {start : Option Stmt} {e step : Option Expr} {body : Stmt}
    (hs : ∀ {n n' code}, optionalStmt c loop start n = .ok (code, n') →
      Implements c loop code fun A fuel => Stmt.execOptional A fuel start)
    (hb : ∀ {loop n n' code}, stmt c loop body n = .ok (code, n') →
      Implements c loop code fun A fuel => body.exec A fuel)
    (h : stmt c loop (.for start e step body) n = .ok (code, n')) :
    Implements c loop code fun A fuel => (Stmt.for start e step body).exec A fuel := by
  obtain ⟨first, top, test, _, code, _, last, lowerS, ht, lowerB, hl, rfl⟩ := composed_of_stmt h
  obtain ⟨segmentsS, cutS, performsS⟩ := hs lowerS
  obtain ⟨segmentsT, cutT, tests⟩ := testOptional_cut ht
  obtain ⟨segmentsB, cutB, performsB⟩ := hb lowerB
  obtain ⟨segmentsL, cutL, steps⟩ := optional_cut hl
  refine ⟨_, (((((((cutS.append (.pieces c [.label top])).append cutT).append cutB).append
    (.pieces c [.label (top + 1)])).append cutL).append (.pieces c (goto top))).append
    (.pieces c [.label (top + 1 + 1)])), fun placed targets => ?_⟩
  simp only [Language.placed_append, List.append_assoc] at placed ⊢
  obtain ⟨placedS, topPlaced, -, placedB, nextPlaced, -, -, stopPlaced⟩ := placed
  have at_top := topPlaced.1 _ rfl
  have at_next := nextPlaced.1 _ rfl
  have at_stop := stopPlaced.1 _ rfl
  refine (performsS placedS targets).seq (Follows.passes (.testFirst (tests at_stop)
    (performsB placedB (targets.inside at_next at_stop)) at_stop at_next ?_ ?_) (Nat.le_refl _))
  all_goals
    refine .behind_label (steps.onward fun _ r hr => ?_)
    subst hr
    exact .jump at_top (.pure rfl)

/-! ### All statements -/

theorem implements_block {body : List Stmt}
    (hb : ∀ s ∈ body, ∀ {loop n n' code}, stmt c loop s n = .ok (code, n') →
      Implements c loop code fun A fuel => s.exec A fuel)
    (h : stmts c loop body n = .ok (code, n')) :
    Implements c loop code fun A fuel => Stmt.execAll A fuel body := by
  induction body generalizing n code with
  | nil =>
      obtain ⟨rfl, -⟩ := pure_eq_ok.mp h
      exact ⟨[], .pieces c [], fun _ _ => .pure rfl⟩
  | cons s body ih =>
      obtain ⟨first, _, others, hs, ho, rfl⟩ := stmts_cons_eq_ok.mp h
      obtain ⟨segments, cut, performs⟩ := hb s List.mem_cons_self hs
      obtain ⟨rest, cutR, performsR⟩ := ih (fun s hs => hb s (List.mem_cons_of_mem _ hs)) ho
      refine ⟨_, cut.append cutR, fun placed targets => ?_⟩
      rw [Language.placed_append] at placed
      rw [List.append_assoc]
      exact (performs placed.1 targets).seq (performsR placed.2 targets)

theorem implements_optional {s : Option Stmt}
    (hs : ∀ t ∈ s, ∀ {n n' code}, stmt c loop t n = .ok (code, n') →
      Implements c loop code fun A fuel => t.exec A fuel)
    (h : optionalStmt c loop s n = .ok (code, n')) :
    Implements c loop code fun A fuel => Stmt.execOptional A fuel s := by
  cases s with
  | some s => exact hs s rfl h
  | none =>
      obtain ⟨rfl, -⟩ := pure_eq_ok.mp h
      exact ⟨[], .pieces c [], fun _ _ => .pure rfl⟩

theorem implements_stmt {s : Stmt} (h : stmt c loop s n = .ok (code, n')) :
    Implements c loop code fun A fuel => s.exec A fuel := by
  induction s generalizing loop n n' code with
  | expr e => exact implements_expr h
  | init id zero stores => exact implements_init h
  | block body ih => exact implements_block (fun s hs {_ _ _ _} => ih s hs) h
  | ite e t f iht ihf =>
      cases f with
      | none => exact implements_ite_none iht h
      | some f => exact implements_ite_some iht (ihf f rfl) h
  | whileLoop e body ih => exact implements_while ih h
  | doWhileLoop body e ih => exact implements_doWhile ih h
  | forLoop start e step body ihs ihb =>
      exact implements_for (implements_optional fun s hs {_ _ _} => ihs s hs) ihb h
  | breakLoop => exact implements_break h
  | continueLoop => exact implements_continue h
  | returnValue value => exact implements_return h
  | empty => exact implements_empty h

theorem implements_body {body : List Stmt} (h : stmts c loop body n = .ok (code, n')) :
    Implements c loop code fun A fuel => Stmt.execAll A fuel body :=
  implements_block (fun _ _ {_ _ _ _} => implements_stmt) h

end Lowering
end LiveC

/-! ## Functions -/

namespace LiveC
namespace Lowering

variable {A : Meaning} {link : CodeTarget → Word}

/-- The machine on which a body falls through. -/
def fallen (m : Machine) : Machine := { m.setGp .rax 0 with flags := .ofResult 0 }

/-- The segments behind a body: zero for those that fall through, and the end. -/
def ending (finish : Label) (closing : List Segment) : List Segment :=
  pieces (literal 0) ++ (pieces [.label finish] ++ closing)

theorem runs_ending {program closing : List Segment} (finish : Label) (m : Machine) :
    (segmentCode A link).Runs program ⟨ending finish closing, m⟩
      (pieces (literal 0 ++ [.label finish])) ⟨closing, fallen m⟩ :=
  .step (Language.step_next rfl) (.step (Language.step_next rfl) (.done _))

variable (A link) in
/-- The end of a function leaves its code without another action. -/
theorem runs_epilogue {program : List Segment} (after : UnitCode) (m : Machine) :
    ∃ run q halt, (segmentCode A link).Runs program ⟨pieces (epilogue ++ after), m⟩ run q ∧
      (segmentCode A link).step program q = .error halt ∧ actions run = [] :=
  ⟨_, _, _, .step (Language.step_next rfl) (.done _), rfl, rfl⟩

/-- The actions of an execution so far. -/
def trace {α : Type} : EStateM.Result Stop Progress α → List Action
  | .ok _ s | .error _ s => s.trace

/-- What a run from the body on makes of the execution of the body. -/
def Completes (A : Meaning) (link : CodeTarget → Word) (program : List Segment) (fuel : Nat)
    (start : Point Segment) (closing : List Segment) :
    EStateM.Result Stop Progress Completion → Prop
  | .ok .returned s => ∃ run, actions run = s.trace ∧
      (segmentCode A link).Runs program start run ⟨closing, s.machine⟩
  | .ok .normal s => ∃ run, actions run = s.trace ∧
      (segmentCode A link).Runs program start run ⟨closing, fallen s.machine⟩
  | .ok _ _ => False
  | .error stop s => ∃ run q, actions run = s.trace ∧
      (segmentCode A link).Runs program start run q ∧
      match stop with
      | .fault f => (segmentCode A link).step program q = .error (.fault f)
      | .timeout => fuel ≤ run.length

variable {program segments : List Segment} {after : UnitCode} {finish : Label} {fuel : Nat}
  {x : Execution Completion} {m : Machine}

variable (fuel m) in
theorem completes_of_follows {closing : List Segment}
    (h : Follows A link program fuel segments x
      (Lands (segmentCode A link) program none finish (ending finish closing)))
    (placed : (segmentCode A link).seek? finish program =
      some (pieces [.label finish] ++ closing)) :
    Completes A link program fuel ⟨segments, m⟩ closing (x ⟨[], m⟩) := by
  have follows := h ⟨[], m⟩
  cases hx : x ⟨[], m⟩ with
  | error stop s =>
      rw [hx] at follows
      obtain ⟨run, q, runs, trace, stopped⟩ := follows
      exact ⟨run, q, trace.symm, runs, stopped⟩
  | ok o s =>
      rw [hx] at follows
      obtain ⟨run, rest, landed, runs, trace⟩ := follows
      cases o with
      | normal =>
          subst landed
          refine ⟨_, ?_, runs.trans (runs_ending finish s.machine)⟩
          rw [actions_append, trace]
          exact List.append_nil _
      | returned =>
          obtain rfl := Option.some.inj (placed.symm.trans landed)
          refine ⟨_, ?_, runs.trans (.step (Language.step_next rfl) (.done _))⟩
          rw [actions_append, trace]
          exact List.append_nil _
      | broke | continued =>
          obtain ⟨_, ⟨⟩, _⟩ := landed

/-- Every run is the start of one that some execution accounts for. -/
theorem actions_isPrefix {start : Point Segment} {r : Nat → EStateM.Result Stop Progress Completion}
    (completes : ∀ fuel, Completes A link program fuel start (pieces (epilogue ++ after)) (r fuel))
    {run : List Segment} {q : Point Segment} (h : (segmentCode A link).Runs program start run q) :
    ∃ fuel, actions run <+: trace (r fuel) := by
  refine ⟨run.length, ?_⟩
  have whole := completes run.length
  have ended {others : List Segment} {m : Machine}
      (runs : (segmentCode A link).Runs program start others ⟨pieces (epilogue ++ after), m⟩) :
      actions run <+: actions others := by
    obtain ⟨last, q, halt, runs', stops, silent⟩ := runs_epilogue A link after m
    have isPrefix := (h.isPrefix_of_halt (runs.trans runs') stops).filterMap Segment.action?
    rwa [← actions, ← actions, actions_append, silent, List.append_nil] at isPrefix
  cases hr : r run.length with
  | ok o s =>
      rw [hr] at whole
      cases o with
      | normal | returned =>
          obtain ⟨others, actions, runs⟩ := whole
          rw [trace, ← actions]
          exact ended runs
      | broke | continued => exact whole.elim
  | error stop s =>
      rw [hr] at whole
      obtain ⟨others, q', actions, runs, stopped⟩ := whole
      rw [trace, ← actions]
      cases stop with
      | fault f => exact (h.isPrefix_of_halt runs stopped).filterMap _
      | timeout => exact (h.isPrefix runs stopped).filterMap _

/-! ### Functions in their unit -/

variable (A link) in
theorem labels_program_nodup {code : UnitCode} {c : FunctionContext} (cut : Cut c program code)
    (distinct : code.labels.Nodup) : ((segmentCode A link).labels program).Nodup :=
  (cut.1 ▸ labels_segments program).nodup distinct

/-- The code of a unit can be cut, at the actions of any of its functions, so that the runs
from the body of the function on do what the execution of the body does, whatever actions
mean: they go through the same actions, arrive at the end of the function as the execution
leaves the machine (or with zero in `rax`, if the body falls through), stop with the fault of
the execution, or go on for as long as it does. There are no other runs. If the code of each
action does what the action means, the pieces of the code go the same way, and do so with a
`nop` between labels. -/
theorem functions_preserve_control_flow {layout : UnitLayout} {fs : List Function} {n : Label}
    {code : UnitCode} (lowered : functions layout 0 fs fs.length = .ok (code, n)) {f : Function}
    (member : f ∈ fs) :
    ∃ (c : FunctionContext) (opening : UnitCode) (segments : List Segment) (after : UnitCode),
      let closing := pieces (epilogue ++ after)
      let start := segments ++ ending c.finish closing
      let program := pieces opening ++ start
      c.layout = layout ∧ c.locals = f.locals ∧ Cut c program code ∧
        ∀ (A : Meaning) (link : CodeTarget → Word) (m : Machine),
          (∀ fuel, Completes A link program fuel ⟨start, m⟩ closing
            (Stmt.execAll A fuel f.body ⟨[], m⟩)) ∧
          ∀ run q, (segmentCode A link).Runs program ⟨start, m⟩ run q →
            (∃ fuel, actions run <+: trace (Stmt.execAll A fuel f.body ⟨[], m⟩)) ∧
            ((∀ a k, .act a k ∈ program → ∀ {m m' rest}, A a m = .ok m' →
                (unitCode link).Reaches code ⟨k ++ rest, m⟩ ⟨rest, m'⟩) →
              (unitCode link).Reaches code ⟨flatten start, m⟩ ⟨flatten q.code, q.machine⟩ ∧
              (flatten q.code ≠ [] → (unitCode link).Reaches code.separate
                ⟨(flatten start).separate, m⟩ ⟨(flatten q.code).separate, q.machine⟩)) := by
  have distinct := functions_nodup lowered (by omega)
  obtain ⟨before, part, behind, e, k, k', rfl, hf⟩ := functions_split lowered member
  obtain ⟨c, size, spills, body, hl, hc, hfinish, -, hb, rfl⟩ := function_eq_ok hf
  obtain ⟨segments, cut, performs⟩ := implements_body hb
  subst hfinish
  have whole : Cut c (pieces (before ++ (.label e :: prologue size ++ spills)) ++
      (segments ++ ending c.finish (pieces (epilogue ++ behind)))) _ :=
    (Cut.pieces c _).append (cut.append ((Cut.pieces c (literal 0)).append
      ((Cut.pieces c [.label c.finish]).append (.pieces c (epilogue ++ behind)))))
  simp only [List.append_assoc] at whole distinct ⊢
  refine ⟨c, before ++ (.label e :: prologue size ++ spills), segments, behind, hl, hc, ?_, ?_⟩
  · simpa only [List.append_assoc] using whole
  · intro A link m
    have labels := labels_program_nodup A link whole distinct
    have placed : (segmentCode A link).Placed
        (pieces (before ++ (.label e :: prologue size ++ spills)) ++
          ((segments ++ (pieces (literal 0) ++ pieces [.label c.finish])) ++
            pieces (epilogue ++ behind)))
        (segments ++ (pieces (literal 0) ++ pieces [.label c.finish]))
        (pieces (epilogue ++ behind)) :=
      Language.placed_of_program_nodup (by simpa only [ending, List.append_assoc] using labels)
    simp only [Language.placed_append, List.append_assoc] at placed
    obtain ⟨placedB, -, finishPlaced⟩ := placed
    have finish := finishPlaced.1 _ rfl
    have completes (fuel : Nat) := completes_of_follows fuel m
      (performs placedB ⟨⟨_, finish⟩, nofun⟩) finish
    refine ⟨completes, fun run q runs => ⟨actions_isPrefix completes runs, fun realized => ?_⟩⟩
    rw [← whole.1] at distinct realized ⊢
    have reaches := reaches_flatten distinct realized (fun s hs => List.mem_append_right _ hs) runs
    exact ⟨reaches, reaches_separate reaches⟩

/-- `while (1) break; return 2;` -/
def leavingFunction : Function :=
  let n : Note := ⟨.int .int, .start⟩
  { name := "f", signature := ⟨.int .int, [], false, false⟩, locals := [],
    body := [.while (.int n 1) .break, .return (some (.int n 2))], isStatic := false,
    loc := .start }

/-- Evaluating a number loads it, and nothing else does anything. -/
def loadingNumbers : Meaning
  | .eval (.int _ v), m => .ok (m.setGp .rax v)
  | _, m => .ok m

theorem leavingFunction_returns :
    ∃ code n, functions ⟨[("f", 0)], [], []⟩ 0 [leavingFunction] 1 = .ok (code, n) ∧
      ∃ (A : Meaning) (program start closing run : List Segment) (m : Machine),
        flatten program = code ∧ start <:+ program ∧
        (segmentCode A fun _ => 0).Runs program ⟨start, .blank⟩ run ⟨closing, m⟩ ∧
        (actions run).length = 2 ∧ m.gp .rax = 2 := by
  have lowered : functions ⟨[("f", 0)], [], []⟩ 0 [leavingFunction] [leavingFunction].length =
      .ok _ := rfl
  obtain ⟨c, opening, segments, after, -, -, cut, runs⟩ :=
    functions_preserve_control_flow lowered List.mem_cons_self
  have completes := (runs loadingNumbers (fun _ => 0) .blank).1 1
  obtain ⟨run, trace, arrives⟩ := completes
  exact ⟨_, _, rfl, loadingNumbers, _, _, _, run, _, cut.1, List.suffix_append .., arrives, by rw [trace]; rfl,
    rfl⟩

end Lowering
end LiveC
