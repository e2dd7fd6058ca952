import Mathlib.Logic.Function.Iterate
import LiveC.Proofs.DirectiveLines
import LiveC.Proofs.MovedSource

/-!
Conditions on macros. The expansion of a macro goes through every macro of its body, a condition
looks at the token with which the body starts. Where a macro stands for one constant, the two agree
if that token is the constant; a macro that leads to the constant by way of another one is false.
-/

namespace LiveC

/-! ### Macros that stand for a constant -/

/-- A body starts with an integer constant. -/
def StartsConstant (body : List Token) : Prop :=
  ∃ value unsigned long decimal, body.head?.map Token.kind = some (.int value unsigned long decimal)

namespace MacroTable

variable {m : MacroTable} {place : Location}

theorem expand_of_plain {kind : TokenKind} (plain : ∀ name, kind ≠ .ident name) :
    m.expand place kind = [⟨kind, place⟩] := by
  rw [expand]
  exact plain

/-- Where a macro stands for one constant, its body starts with this constant or with a name. -/
theorem head?_of_expand {name : String} {body : List Token} {constant : TokenKind}
    (found : m.find? name = some body)
    (expansion : m.expand place (.ident name) = [⟨constant, place⟩]) :
    body.head?.map Token.kind = some constant ∨
      ∃ next, body.head?.map Token.kind = some (.ident next) := by
  rw [expand_of_find? found] at expansion
  obtain _ | ⟨⟨kind, loc⟩, others⟩ := body
  · cases expansion
  by_cases named : ∃ next, kind = .ident next
  · obtain ⟨next, rfl⟩ := named
    exact .inr ⟨next, rfl⟩
  · rw [not_exists] at named
    rw [List.map_cons, List.flatMap_cons, expand_of_plain named] at expansion
    obtain ⟨same, -⟩ := List.cons.inj expansion
    exact .inl (congrArg (some ∘ Token.kind) same)

end MacroTable

/-! ### Conditions with negations -/

namespace BranchCondition

variable {m : MacroTable} {name : String}

theorem holds_not_iterate (k : Nat) (c : BranchCondition) :
    (not^[k] c).holds m = Bool.not^[k] (c.holds m) := by
  induction k with
  | zero => rfl
  | succ k ih => rw [Function.iterate_succ_apply', Function.iterate_succ_apply', holds, ih]

theorem ofKinds?_negated (notOperator : name ≠ "defined") (k : Nat) :
    ofKinds? (List.replicate k (.punct .bang) ++ [.ident name]) =
      some (not^[k] (nonzero name)) := by
  induction k with
  | zero => exact if_neg notOperator
  | succ k ih =>
      rw [List.replicate_succ, List.cons_append, ofKinds?, ih, Option.map_some,
        Function.iterate_succ_apply']

/-- A condition on a macro that stands for the constant `v`. -/
theorem holds_nonzero {body : List Token} {v : Nat} {unsigned long decimal : Bool}
    {place : Location} (found : m.find? name = some body)
    (expansion : m.expand place (.ident name) = [⟨.int v unsigned long decimal, place⟩]) :
    (StartsConstant body → (nonzero name).holds m = (v != 0)) ∧
      (¬StartsConstant body → (nonzero name).holds m = false) := by
  rw [holds, found]
  obtain first | ⟨next, first⟩ := MacroTable.head?_of_expand found expansion
  all_goals
    obtain ⟨⟨kind, loc⟩, head, rfl⟩ := Option.map_eq_some_iff.mp first
    rw [Option.bind_some, head]
  · exact ⟨fun _ => rfl, fun none => absurd ⟨v, unsigned, long, decimal, first⟩ none⟩
  · refine ⟨?_, fun _ => rfl⟩
    rintro ⟨_, _, _, _, starts⟩
    cases first.symm.trans starts

end BranchCondition

/-- A text that reads as a name behind a number of negations. -/
def AsksNegated (k : Nat) (name : String) (text : List Char) (loc : Location) : Prop :=
  kinds? text loc = some (List.replicate k (.punct .bang) ++ [.ident name])

instance (k : Nat) (name : String) (text : List Char) (loc : Location) :
    Decidable (AsksNegated k name text loc) :=
  inferInstanceAs (Decidable (_ = _))

/-- With any number of negations, a name is taken for this value in conditions. -/
structure PreprocState.TakesFor (st : PreprocState) (name : String) (value : Bool) : Prop where
  condition : ∀ k text loc, AsksNegated k name text loc →
    st.condition text loc = (Bool.not^[k] value, [])
  opens : ∀ k (d : Directive), d.name = "if" → AsksNegated k name d.operand d.operandLoc →
    st.active = true → st.directive d.text d.loc = (st.openGroup (Bool.not^[k] value), .empty)
  branches : ∀ k (d : Directive) top outer, d.name = "elif" →
    AsksNegated k name d.operand d.operandLoc → st.conditionals = top :: outer →
    top.seenElse = false → top.parentActive = true → top.taken = false →
    st.directive d.text d.loc =
      ({ st with conditionals :=
          { top with active := Bool.not^[k] value, taken := Bool.not^[k] value } :: outer }, .empty)

namespace PreprocState

variable {st : PreprocState} {name : String}

theorem takesFor_of_holds (notOperator : name ≠ "defined") {value : Bool}
    (holds : (BranchCondition.nonzero name).holds st.macros = value) : st.TakesFor name value := by
  have condition (k text loc) (asks : AsksNegated k name text loc) :
      st.condition text loc = (Bool.not^[k] value, []) := by
    rw [condition_of_kinds? asks (BranchCondition.ofKinds?_negated notOperator k),
      BranchCondition.holds_not_iterate, holds]
  refine ⟨condition, fun k d isIf asks active => ?_,
    fun k d top outer isElif asks groups noElse parent untaken => ?_⟩
  · rw [directive_eq, isIf]
    show st.ifCondition _ _ = _
    rw [ifCondition, if_pos active, condition k _ _ asks]
    rfl
  · rw [directive_eq, isElif]
    show st.elif _ _ _ = _
    rw [elif, groups]
    dsimp only
    rw [noElse, parent, untaken, condition k _ _ asks]
    rfl

/-- Conditions take a macro that stands for the constant `v` for `v != 0` if its body starts with
the constant itself, and for false if its body starts with another macro. -/
theorem takesFor_constantMacro (notOperator : name ≠ "defined") {body : List Token}
    (found : st.macros.find? name = some body) {v : Nat} {unsigned long decimal : Bool}
    {place : Location}
    (expansion : st.macros.expand place (.ident name) = [⟨.int v unsigned long decimal, place⟩]) :
    (StartsConstant body → st.TakesFor name (v != 0)) ∧
      (¬StartsConstant body → st.TakesFor name false) ∧
      ∀ k text loc, AsksNegated k name text loc →
        (st.condition text loc = (Bool.not^[k] (v != 0), []) ↔ StartsConstant body ∨ v = 0) := by
  obtain ⟨constant, otherwise⟩ := BranchCondition.holds_nonzero found expansion
  have direct (starts : StartsConstant body) := takesFor_of_holds notOperator (constant starts)
  have indirect (none : ¬StartsConstant body) := takesFor_of_holds notOperator (otherwise none)
  refine ⟨direct, indirect, fun k text loc asks => ?_⟩
  by_cases starts : StartsConstant body
  · exact iff_of_true ((direct starts).condition k text loc asks) (.inl starts)
  · have negated : Function.Injective Bool.not^[k] := Bool.involutive_not.injective.iterate k
    rw [(indirect starts).condition k text loc asks, Prod.mk.injEq, negated.eq_iff,
      or_iff_right starts, eq_comm, bne_eq_false_iff_eq, and_iff_left rfl]

/-- A macro that stands for one by way of another macro is false, the other one is true. -/
theorem takesFor_chainedMacro :
    let one : Token := ⟨.int 1 false false true, ⟨1, 13⟩⟩
    let st : PreprocState :=
      { macros := ⟨[("A", [⟨.ident "ONE", ⟨2, 11⟩⟩]), ("ONE", [one])]⟩ }
    st.macros.find? "A" = some [⟨.ident "ONE", ⟨2, 11⟩⟩] ∧
      st.macros.expand .start (.ident "A") = [⟨one.kind, .start⟩] ∧ st.TakesFor "A" false ∧
      st.macros.find? "ONE" = some [one] ∧
      st.macros.expand .start (.ident "ONE") = [⟨one.kind, .start⟩] ∧ st.TakesFor "ONE" true := by
  intro one st
  have chained : st.macros.find? "A" = some [⟨.ident "ONE", ⟨2, 11⟩⟩] := by decide +kernel
  have direct : st.macros.find? "ONE" = some [one] := by decide +kernel
  have expansion : st.macros.expand .start (.ident "A") = [⟨one.kind, .start⟩] := by
    decide +kernel
  have expansion' : st.macros.expand .start (.ident "ONE") = [⟨one.kind, .start⟩] := by
    decide +kernel
  have none : ¬StartsConstant [⟨.ident "ONE", ⟨2, 11⟩⟩] := fun ⟨_, _, _, _, same⟩ => nomatch same
  have starts : StartsConstant [one] := ⟨1, false, false, true, rfl⟩
  exact ⟨chained, expansion, (takesFor_constantMacro (by decide) chained expansion).2.1 none,
    direct, expansion', (takesFor_constantMacro (by decide) direct expansion').1 starts⟩

/-- The branch behind a macro that stands for one by way of another macro is not taken. -/
theorem condition_chainedMacro :
    let one : Token := ⟨.int 1 false false true, ⟨1, 13⟩⟩
    let st : PreprocState :=
      { macros := ⟨[("A", [⟨.ident "ONE", ⟨2, 11⟩⟩]), ("ONE", [one])]⟩ }
    st.macros.expand .start (.ident "A") = [⟨one.kind, .start⟩] ∧
      AsksNegated 0 "A" " A".toList .start ∧ st.condition " A".toList .start = (false, []) ∧
      (tokenize "#define ONE 1\n#define A ONE\n#if A\nyes\n#else\nno\n#endif" []).map
          Preprocessed.tokens =
        .ok [⟨.ident "no", ⟨6, 1⟩⟩, ⟨.eof, ⟨7, 7⟩⟩] := by
  refine ⟨by decide +kernel, by decide +kernel, by decide +kernel, ?_⟩
  rw [tokenize_of_bytes (Text.toByteChars_of_all ?_)]
  all_goals decide +kernel

end PreprocState
end LiveC
