import LiveC.Machine.Effect
import LiveC.Program.Unit
import LiveC.Proofs.Labels

/-!
The meaning of statements, as C structures them: a statement completes, or leaves the
innermost loop, or goes on with its next pass, or leaves the function. What an expression or
a store does to the machine is left open. An execution keeps the trace of what it has done;
it stops with a fault, or when a loop has made as many passes as it is given.

The code of statements with the code of each action taken as one element, and when its runs
follow an execution: they do the same actions in the same order, arrive where the way a
statement ends leads, and go on for as long as the execution does. Where the code of actions does
what they mean, the pieces reach what the segments do, and so does code in which every label has an
instruction of its own.
-/

namespace LiveC

/-- What statements do in one step. -/
inductive Action where
  | eval (e : Expr)
  /-- Stores the value at hand at an offset into a local variable. -/
  | store (id offset : Nat) (ty : CType)
  /-- Zeroes a local variable. -/
  | zero (id : Nat)

/-- How a statement ends. -/
inductive Completion where
  | normal | broke | continued | returned
  deriving DecidableEq, Repr

inductive Stop where
  | fault (f : Fault)
  | timeout
  deriving DecidableEq, Repr

structure Progress where
  trace : List Action
  machine : Machine

abbrev Execution := EStateM Stop Progress

/-- What each action does to a machine. -/
abbrev Meaning := Action → Machine → Except Fault Machine

namespace Execution

/-- The machine behind the test of `rax`. -/
def tested (m : Machine) : Machine :=
  { m with flags := .ofResult (m.gp .rax &&& m.gp .rax) }

def act (A : Meaning) (a : Action) : Execution Unit := fun s =>
  match A a s.machine with
  | .ok m => .ok () ⟨s.trace ++ [a], m⟩
  | .error f => .error (.fault f) s

/-- Evaluates a condition. -/
def test (A : Meaning) (e : Expr) : Execution Bool := do
  act A (.eval e)
  modifyGet fun s => (s.machine.gp .rax != 0, { s with machine := tested s.machine })

/-- A condition that may be missing. -/
def testOptional (A : Meaning) : Option Expr → Execution Bool
  | some e => test A e
  | none => return true

def evalOptional (A : Meaning) : Option Expr → Execution Unit
  | some e => act A (.eval e)
  | none => return

def initialise (A : Meaning) (id : Nat) : List InitStore → Execution Unit
  | [] => return
  | s :: rest => do
    act A (.eval s.value)
    act A (.store id s.offset s.value.ty)
    initialise A id rest

/-- How a loop ends, if it ends behind a pass whose body ended so. -/
def leaving? : Completion → Option Completion
  | .broke => some .normal
  | .returned => some .returned
  | .normal | .continued => none

/-- Makes passes until one ends the loop. -/
def passes (pass : Execution (Option Completion)) : Nat → Execution Completion
  | 0 => throw .timeout
  | n + 1 => do
    match ← pass with
    | some o => return o
    | none => passes pass n

/-- A pass that begins with its condition. -/
def testFirst (test : Execution Bool) (body : Execution Completion) (step : Execution Unit) :
    Execution (Option Completion) := do
  if ← test then
    match leaving? (← body) with
    | some o => return some o
    | none => do
      step
      return none
  else return some .normal

/-- A pass that ends with its condition. -/
def testLast (test : Execution Bool) (body : Execution Completion) :
    Execution (Option Completion) := do
  match leaving? (← body) with
  | some o => return some o
  | none => return if ← test then none else some .normal

end Execution

namespace Stmt

open Execution

mutual

/-- A statement, each of whose loops may make `fuel` passes at a time. -/
def exec (A : Meaning) (fuel : Nat) : Stmt → Execution Completion
  | .expr e => do
    act A (.eval e)
    return .normal
  | .init id zero stores => do
    if zero then act A (.zero id)
    initialise A id stores
    return .normal
  | .block body => execAll A fuel body
  | .ite e t f => do if ← test A e then exec A fuel t else execOptional A fuel f
  | .while e body => passes (testFirst (test A e) (exec A fuel body) (pure ())) fuel
  | .doWhile body e => passes (testLast (test A e) (exec A fuel body)) fuel
  | .for start e step body => do
    match ← execOptional A fuel start with
    | .normal =>
      passes (testFirst (testOptional A e) (exec A fuel body) (evalOptional A step)) fuel
    | o => return o
  | .break => return .broke
  | .continue => return .continued
  | .return value => do
    evalOptional A value
    return .returned
  | .empty => return .normal

/-- Statements in order, until one does not complete. -/
def execAll (A : Meaning) (fuel : Nat) : List Stmt → Execution Completion
  | [] => return .normal
  | s :: rest => do
    match ← exec A fuel s with
    | .normal => execAll A fuel rest
    | o => return o

def execOptional (A : Meaning) (fuel : Nat) : Option Stmt → Execution Completion
  | some s => exec A fuel s
  | none => return .normal

end

end Stmt

end LiveC

/-! ## Segments of code -/

namespace LiveC
namespace Lowering

/-- The code of an action, or a single piece between actions. -/
inductive Segment where
  | act (a : Action) (code : UnitCode)
  | piece (p : Piece Reference)

namespace Segment

def code : Segment → UnitCode
  | act _ code => code
  | piece p => [p]

def action? : Segment → Option Action
  | act a _ => some a
  | piece _ => none

end Segment

/-- The actions that a run has gone through. -/
def actions (run : List Segment) : List Action := run.filterMap Segment.action?

theorem actions_append (run others : List Segment) :
    actions (run ++ others) = actions run ++ actions others := List.filterMap_append

/-- What stands in segments. -/
def flatten (segments : List Segment) : UnitCode := segments.flatMap Segment.code

theorem flatten_cons (s : Segment) (segments : List Segment) :
    flatten (s :: segments) = s.code ++ flatten segments := List.flatMap_cons

theorem flatten_append (segments others : List Segment) :
    flatten (segments ++ others) = flatten segments ++ flatten others := List.flatMap_append

def pieces (code : UnitCode) : List Segment := code.map .piece

/-- Segments as labelled code: an action does what it means. -/
def segmentCode (A : Meaning) (link : CodeTarget → Word) : Language Segment where
  label?
    | .piece (.label l) => some l
    | _ => none
  effect
    | .act a _, m => (A a m).map (·, .next)
    | .piece p, m => (unitCode link).effect p m

/-- The code that belongs to an action. -/
inductive IsCodeOf (c : FunctionContext) : Action → UnitCode → Prop where
  | eval {e : Expr} {n n' : Label} {code : UnitCode}
      (h : expr c.toContext 0 e n = .ok (code, n')) : IsCodeOf c (.eval e) code
  | store {id offset : Nat} {ty : CType} {base : BitVec 32} {n n' : Label} {code : UnitCode}
      (found : c.offsets[id]? = some base)
      (h : storeValue ty ⟨.rbp, base + BitVec.ofNat 32 offset⟩ n = .ok (code, n')) :
      IsCodeOf c (.store id offset ty) code
  | zero {id : Nat} {base : BitVec 32} (found : c.offsets[id]? = some base) :
      IsCodeOf c (.zero id)
        (zeroing ⟨.rbp, base⟩ ((c.locals[id]?.map fun v => v.ty.size).getD 0))

/-- The code is cut into segments, the actions of which have the code that belongs to them. -/
def Cut (c : FunctionContext) (segments : List Segment) (code : UnitCode) : Prop :=
  flatten segments = code ∧ ∀ a k, .act a k ∈ segments → IsCodeOf c a k

variable {c : FunctionContext}

theorem Cut.append {segments others : List Segment} {code rest : UnitCode}
    (h : Cut c segments code) (ho : Cut c others rest) :
    Cut c (segments ++ others) (code ++ rest) := by
  refine ⟨by rw [flatten_append, h.1, ho.1], fun a k member => ?_⟩
  rcases List.mem_append.mp member with member | member
  · exact h.2 a k member
  · exact ho.2 a k member

theorem Cut.pieces (c : FunctionContext) (code : UnitCode) : Cut c (pieces code) code := by
  refine ⟨?_, fun a k member => ?_⟩
  · induction code with
    | nil => rfl
    | cons p code ih => exact congrArg (p :: ·) ih
  · obtain ⟨_, _, e⟩ := List.mem_map.mp member
    cases e

theorem Cut.act {a : Action} {code : UnitCode} (h : IsCodeOf c a code) :
    Cut c [.act a code] code := by
  refine ⟨List.append_nil code, fun a' k member => ?_⟩
  obtain ⟨rfl, rfl⟩ := Segment.act.inj (List.mem_singleton.mp member)
  exact h

/-! ### Following an execution -/

/-- From `code` on, runs do what the execution does from any machine on. A value of the
execution says where its run arrives. -/
def Follows (A : Meaning) (link : CodeTarget → Word) (program : List Segment) (fuel : Nat)
    {α : Type} (code : List Segment) (x : Execution α) (lands : α → List Segment → Prop) : Prop :=
  ∀ s : Progress, match x s with
    | .ok a s' => ∃ run rest, lands a rest ∧
        (segmentCode A link).Runs program ⟨code, s.machine⟩ run ⟨rest, s'.machine⟩ ∧
        s'.trace = s.trace ++ actions run
    | .error stop s' => ∃ run q,
        (segmentCode A link).Runs program ⟨code, s.machine⟩ run q ∧
        s'.trace = s.trace ++ actions run ∧
        match stop with
        | .fault f => (segmentCode A link).step program q = .error (.fault f)
        | .timeout => fuel ≤ run.length

namespace Follows

variable {A : Meaning} {link : CodeTarget → Word} {program : List Segment} {fuel : Nat}
  {α β : Type} {code rest : List Segment} {x : Execution α} {f : α → Execution β}
  {lands : α → List Segment → Prop} {behind : β → List Segment → Prop}

theorem pure {a : α} (h : lands a code) : Follows A link program fuel code (Pure.pure a) lands :=
  fun s => ⟨[], code, h, .done _, (List.append_nil s.trace).symm⟩

theorem bind (h : Follows A link program fuel code x lands)
    (hf : ∀ a rest, lands a rest → Follows A link program fuel rest (f a) behind) :
    Follows A link program fuel code (x >>= f) behind := by
  intro s
  have first := h s
  cases hx : x s with
  | error stop s' =>
      rw [hx] at first
      have run : (x >>= f) s = .error stop s' := by
        simp only [Bind.bind, EStateM.bind, hx]
      rw [run]
      exact first
  | ok a s' =>
      rw [hx] at first
      obtain ⟨run, rest, landed, runs, trace⟩ := first
      have next : (x >>= f) s = f a s' := by
        simp only [Bind.bind, EStateM.bind, hx]
      have others := hf a rest landed s'
      rw [next]
      cases hy : f a s' with
      | ok b t =>
          rw [hy] at others
          obtain ⟨run', rest', landed', runs', trace'⟩ := others
          refine ⟨run ++ run', rest', landed', runs.trans runs', ?_⟩
          rw [trace', trace, actions_append, List.append_assoc]
      | error stop t =>
          rw [hy] at others
          obtain ⟨run', q, runs', trace', stopped⟩ := others
          refine ⟨run ++ run', q, runs.trans runs', ?_, ?_⟩
          · rw [trace', trace, actions_append, List.append_assoc]
          · cases stop with
            | fault f => exact stopped
            | timeout =>
                rw [List.length_append]
                exact Nat.le_trans stopped (Nat.le_add_left ..)

/-- Goes on behind the last step of an execution. -/
theorem onward {others : α → List Segment → Prop} (h : Follows A link program fuel code x lands)
    (hl : ∀ a rest, lands a rest → Follows A link program fuel rest (Pure.pure a) others) :
    Follows A link program fuel code x others := by
  rw [← bind_pure x]
  exact h.bind hl

theorem weaken {least : Nat} (h : Follows A link program fuel code x lands)
    (le : least ≤ fuel) : Follows A link program least code x lands := by
  intro s
  have first := h s
  cases hx : x s with
  | ok a s' => rwa [hx] at first
  | error stop s' =>
      rw [hx] at first
      obtain ⟨run, q, runs, trace, stopped⟩ := first
      refine ⟨run, q, runs, trace, ?_⟩
      cases stop with
      | fault f => exact stopped
      | timeout => exact Nat.le_trans le stopped

/-- A piece that leaves the machine as it is makes runs longer by one. -/
theorem piece {p : Piece Reference}
    (step : ∀ m, (segmentCode A link).step program ⟨.piece p :: code, m⟩ = .ok ⟨rest, m⟩)
    (h : Follows A link program fuel rest x lands) :
    Follows A link program (fuel + 1) (.piece p :: code) x lands := by
  intro s
  have others := h s
  cases hx : x s with
  | error stop s' =>
      rw [hx] at others
      obtain ⟨run, q, runs, trace, stopped⟩ := others
      refine ⟨.piece p :: run, q, .step (step _) runs, trace, ?_⟩
      cases stop with
      | fault f => exact stopped
      | timeout => exact Nat.succ_le_succ stopped
  | ok a s' =>
      rw [hx] at others
      obtain ⟨run, rest', landed, runs, trace⟩ := others
      exact ⟨.piece p :: run, rest', landed, .step (step _) runs, trace⟩

theorem label {l : Label} (h : Follows A link program fuel code x lands) :
    Follows A link program (fuel + 1) (.piece (.label l) :: code) x lands :=
  piece (fun _ => Language.step_next rfl) h

theorem behind_label {l : Label} (h : Follows A link program fuel code x lands) :
    Follows A link program fuel (pieces [.label l] ++ code) x lands :=
  (label h).weaken (Nat.le_succ fuel)

theorem jump {l : Label} (hl : (segmentCode A link).seek? l program = some rest)
    (h : Follows A link program fuel rest x lands) :
    Follows A link program fuel (pieces (goto l) ++ code) x lands :=
  (piece (fun _ => Language.step_branch rfl hl) h).weaken (Nat.le_succ fuel)

theorem act {a : Action} {k : UnitCode} :
    Follows A link program fuel (.act a k :: code) (Execution.act A a) fun _ r => r = code := by
  intro s
  have effect : (segmentCode A link).effect (.act a k) s.machine =
      (A a s.machine).map (·, .next) := rfl
  unfold Execution.act
  cases hm : A a s.machine with
  | ok m =>
      rw [hm] at effect
      exact ⟨[.act a k], code, rfl, .step (Language.step_next effect) (.done _), rfl⟩
  | error f =>
      rw [hm] at effect
      exact ⟨[], _, .done _, (List.append_nil s.trace).symm, Language.step_fault effect⟩

/-- A condition and the branch that tests it: `jumps` is the value with which it is taken. -/
theorem test (jumps : Bool) {e : Expr} {k : UnitCode} {l : Label}
    (hl : (segmentCode A link).seek? l program = some rest) :
    Follows A link program fuel
      (.act (.eval e) k :: (pieces (branch (if jumps then .notEqual else .equal) l) ++ code))
      (Execution.test A e) fun b r => r = if b = jumps then rest else code := by
  refine act.bind fun _ r hr => ?_
  subst hr
  intro s
  refine ⟨pieces (branch (if jumps then .notEqual else .equal) l), _, rfl, ?_,
    (List.append_nil s.trace).symm⟩
  have tests : (segmentCode A link).effect (.piece (.instr (.test .rax .rax))) s.machine =
      .ok (Execution.tested s.machine, .next) := rfl
  refine .step (Language.step_next tests) (.step ?_ (.done _))
  have branches (cond : Condition) : (segmentCode A link).effect (.piece (.instr (.jcc cond l)))
      (Execution.tested s.machine) = .ok (Execution.tested s.machine,
        if cond.holds (.ofResult (s.machine.gp .rax &&& s.machine.gp .rax)) then .branch l
        else .next) := rfl
  by_cases taken : (s.machine.gp .rax != 0) = jumps
  · rw [if_pos taken]
    refine Language.step_branch ((branches _).trans ?_) hl
    rw [if_pos]
    cases jumps <;> simpa [Condition.holds, Flags.ofResult] using taken
  · rw [if_neg taken]
    refine Language.step_next ((branches _).trans ?_)
    rw [if_neg]
    cases jumps <;> simpa [Condition.holds, Flags.ofResult] using taken

/-- A loop: each pass that does not end it leads back to its label. -/
theorem passes {l : Label} {pass : Execution (Option Completion)}
    {ends : Completion → List Segment → Prop}
    (h : Follows A link program fuel code pass fun
      | none, r => r = .piece (.label l) :: code
      | some o, r => ends o r)
    {n : Nat} (le : n ≤ fuel) :
    Follows A link program n (.piece (.label l) :: code) (Execution.passes pass n) ends := by
  induction n with
  | zero => exact fun s => ⟨[], _, .done _, (List.append_nil s.trace).symm, Nat.zero_le _⟩
  | succ n ih =>
      refine label ((h.weaken (Nat.le_of_succ_le le)).bind fun o? r hr => ?_)
      cases o? with
      | none =>
          subst hr
          exact ih (Nat.le_of_succ_le le)
      | some o => exact pure hr

end Follows

end Lowering
end LiveC

namespace LiveC
namespace Lowering

variable {A : Meaning} {link : CodeTarget → Word} {program : List Segment}

theorem labels_segments (segments : List Segment) :
    ((segmentCode A link).labels segments).Sublist (flatten segments).labels := by
  induction segments with
  | nil => exact .refl _
  | cons s segments ih =>
      rw [flatten_cons, Code.labels_append]
      cases s with
      | act a k =>
          rw [Language.labels_cons_none rfl]
          exact ih.trans (List.sublist_append_right ..)
      | piece p =>
          cases p with
          | label l =>
              rw [Language.labels_cons_some (l := l) rfl, Segment.code, Code.labels_label]
              exact ih.cons_cons l
          | instr i | linked f r =>
              rw [Language.labels_cons_none rfl]
              exact ih.trans (List.sublist_append_right ..)

/-- A label of the program leads to the same place in its pieces. -/
theorem seek_flatten {l : Label} {rest : List Segment} (distinct : (flatten program).labels.Nodup)
    (h : (segmentCode A link).seek? l program = some rest) :
    (unitCode link).seek? l (flatten program) = some (flatten rest) := by
  induction program with
  | nil => cases h
  | cons s program ih =>
      rw [flatten_cons] at distinct ⊢
      rw [Code.labels_append, List.nodup_append] at distinct
      rw [Language.seek?_cons] at h
      split at h
      case isTrue here =>
        cases Option.some.inj h
        cases s with
        | act a k => cases here
        | piece p =>
            cases p with
            | label k =>
                cases here
                exact if_pos rfl
            | instr i | linked f r => cases here
      case isFalse =>
        have found := ih distinct.2.1 h
        have inside := Language.mem_labels_of_seek? found
        rw [labels_unitCode] at inside
        rw [Language.seek?_append fun outside => ?_, found]
        rw [labels_unitCode] at outside
        exact distinct.2.2 l outside l inside rfl

/-- Where the code of every action does what the action means, the pieces reach what the
segments do. -/
theorem reaches_flatten (distinct : (flatten program).labels.Nodup)
    (realized : ∀ a k, .act a k ∈ program → ∀ {m m' rest}, A a m = .ok m' →
      (unitCode link).Reaches (flatten program) ⟨k ++ rest, m⟩ ⟨rest, m'⟩)
    {p q : Point Segment} {run : List Segment}
    (inside : ∀ s ∈ p.code, s ∈ program)
    (h : (segmentCode A link).Runs program p run q) :
    (unitCode link).Reaches (flatten program) ⟨flatten p.code, p.machine⟩
      ⟨flatten q.code, q.machine⟩ := by
  induction h with
  | done p => exact .refl _
  | @step s rest m p _ _ first _ ih =>
      have member := inside s List.mem_cons_self
      have behind : ∀ t ∈ rest, t ∈ program := fun t ht => inside t (List.mem_cons_of_mem _ ht)
      rw [flatten_cons]
      rcases Language.step_cases first with ⟨m', he, rfl⟩ | ⟨m', l, code, he, hs, rfl⟩
      · refine .trans ?_ (ih behind)
        cases s with
        | piece p =>
            have effect : (unitCode link).effect p m = .ok (m', .next) := he
            exact Language.reaches_next effect
        | act a k =>
            cases hm : A a m with
            | error f =>
                simp only [segmentCode, hm] at he
                cases he
            | ok m₁ =>
                simp only [segmentCode, hm] at he
                cases he
                exact realized a k member hm
      · cases s with
        | piece p =>
            have effect : (unitCode link).effect p m = .ok (m', .branch l) := he
            exact (Language.reaches_branch effect (seek_flatten distinct hs)).trans
              (ih fun t ht => (Language.seek?_suffix hs).subset ht)
        | act a k =>
            simp only [segmentCode] at he
            cases hm : A a m <;> rw [hm] at he <;> cases he

/-! ### Labels with instructions of their own -/

/-- What is put between a piece and the next one: nothing, or one instruction that does
nothing, unless the piece is a label at the end of the code. -/
theorem separate_cons (p : Piece Reference) (rest : UnitCode) :
    ∃ between, Code.separate (p :: rest) = p :: (block between ++ Code.separate rest) ∧
      (between = [] ∨ (∃ l, p = .label l) ∧ (between = [.nop] ∨ between = [.trap] ∧ rest = [])) := by
  cases p with
  | instr i | linked f r => exact ⟨[], rfl, .inl rfl⟩
  | label l =>
      cases rest with
      | nil => exact ⟨[.trap], rfl, .inr ⟨⟨l, rfl⟩, .inr ⟨rfl, rfl⟩⟩⟩
      | cons p rest =>
          cases p with
          | label k => exact ⟨[.nop], rfl, .inr ⟨⟨l, rfl⟩, .inl rfl⟩⟩
          | instr i | linked f r => exact ⟨[], rfl, .inl rfl⟩

theorem seek_separate (code : UnitCode) (l : Label) :
    (unitCode link).seek? l code.separate = ((unitCode link).seek? l code).map Code.separate := by
  induction code with
  | nil => rfl
  | cons p rest ih =>
      obtain ⟨between, e, -⟩ := separate_cons p rest
      have skip : l ∉ (unitCode link).labels (block between) := by
        rw [labels_unitCode, Code.labels_block]
        exact List.not_mem_nil
      by_cases here : (unitCode link).label? p = some l
      · have found : (unitCode link).seek? l (p :: rest) = some (p :: rest) := if_pos here
        rw [found, Option.map_some, e]
        exact if_pos here
      · have further : (unitCode link).seek? l (p :: rest) = (unitCode link).seek? l rest :=
          if_neg here
        rw [further, ← ih, e]
        exact (if_neg here).trans (Language.seek?_append skip)

/-- What runs reach, they reach in code whose labels have instructions of their own. -/
theorem reaches_separate {code : UnitCode} {p q : Point (Piece Reference)}
    (h : (unitCode link).Reaches code p q) (inside : q.code ≠ []) :
    (unitCode link).Reaches code.separate ⟨Code.separate p.code, p.machine⟩
      ⟨Code.separate q.code, q.machine⟩ := by
  obtain ⟨run, h⟩ := h
  induction h with
  | done => exact .refl _
  | @step a rest m p _ _ first others ih =>
      refine .trans ?_ (ih inside)
      obtain ⟨between, e, kind⟩ := separate_cons a rest
      rw [e]
      rcases Language.step_cases first with ⟨m', he, rfl⟩ | ⟨m', l, target, he, hs, rfl⟩
      · refine (Language.reaches_next he).trans ?_
        rcases kind with rfl | ⟨-, rfl | ⟨rfl, rfl⟩⟩
        · exact .refl _
        · exact Language.reaches_next rfl
        · cases others
          exact absurd rfl inside
      · refine Language.reaches_branch he ?_
        rw [seek_separate, hs, Option.map_some]

end Lowering
end LiveC
