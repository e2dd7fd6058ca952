import LiveC.Proofs.SourceLines

/-!
Directives by their lines. What a directive asks or defines does not depend on where it stands,
and each leaves the open groups and the macros as its name says.
-/

namespace LiveC

/-! ### Conditions -/

/-- A condition of a branch. -/
inductive BranchCondition where
  | constant (value : Bool)
  /-- The macro has a body that starts with an integer other than zero. -/
  | nonzero (name : String)
  | defined (name : String)
  | not (c : BranchCondition)
  deriving DecidableEq

namespace BranchCondition

def holds (m : MacroTable) : BranchCondition → Bool
  | constant value => value
  | nonzero name =>
    match (m.find? name).bind List.head? with
    | some ⟨.int value _ _ _, _⟩ => value != 0
    | _ => false
  | defined name => m.contains name
  | not c => !c.holds m

/-- Reads the condition of `#if` and `#elif`. -/
def ofKinds? : List TokenKind → Option BranchCondition
  | .punct .bang :: kinds => (ofKinds? kinds).map not
  | [.int value _ _ _] => some (constant (value != 0))
  | [.char value] => some (constant (value != 0))
  | [.ident name] => if name = "defined" then none else some (nonzero name)
  | [.ident operator, .ident name] => if operator = "defined" then some (defined name) else none
  | [.ident operator, .punct .lparen, .ident name, .punct .rparen] =>
    if operator = "defined" then some (defined name) else none
  | _ => none

/-- Reads the condition of `#ifdef`. -/
def ofName? : List TokenKind → Option BranchCondition
  | .ident name :: _ => some (defined name)
  | _ => none

end BranchCondition

/-- The tokens of a text that scans without errors. -/
def kinds? (text : List Char) (loc : Location) : Option (List TokenKind) :=
  let line := ScannedLine.ofText text loc
  if line.faults.isEmpty then some (line.tokens.map Token.kind) else none

namespace Directive

/-- The condition that a directive gives for the branch behind it. -/
def condition? (d : Directive) : Option BranchCondition :=
  (kinds? d.operand d.operandLoc).bind fun kinds =>
    if d.name = "ifdef" then BranchCondition.ofName? kinds
    else if d.name = "ifndef" then (BranchCondition.ofName? kinds).map .not
    else BranchCondition.ofKinds? kinds

/-- The macros behind a directive that defines one or drops a definition. -/
def edit? (d : Directive) (m : MacroTable) : Option MacroTable :=
  if d.name = "define" then
    let (st, output) := PreprocState.define { macros := m } d.operand d.operandLoc
    if output.faults.isEmpty then some st.macros else none
  else if d.name = "undef" then some (m.erase (String.ofList (Text.trim d.operand)))
  else none

end Directive

/-! ### Relocation -/

theorem scanned_iff_kinds? {text : List Char} {loc : Location} {kinds : List TokenKind} :
    kinds? text loc = some kinds ↔
      Cursor.Scanned (Text.toByteChars (String.ofList text)) kinds := by
  have ofScanned {kinds} (h : Cursor.Scanned (Text.toByteChars (String.ofList text)) kinds) :
      kinds? text loc = some kinds := by
    obtain ⟨ts, scan, rfl⟩ := h.lexemes loc
    have same : (Cursor.ofText (String.ofList text) loc).lexemes = ts.map .ok := scan
    unfold kinds? ScannedLine.ofText
    simp [same, List.filterMap_map, Function.comp_def, Except.toOption]
  refine ⟨fun h => ?_, ofScanned⟩
  have scan := h
  unfold kinds? ScannedLine.ofText at scan
  dsimp only at scan
  split at scan
  case isFalse => cases scan
  case isTrue noFaults =>
    obtain ⟨kinds', scanned⟩ := Cursor.scanned_of_lexemes
      (c := Cursor.ofText (String.ofList text) loc) fun result member => by
        cases result with
        | ok => rfl
        | error f =>
            rw [List.isEmpty_iff, List.filterMap_eq_nil_iff] at noFaults
            cases noFaults _ member
    cases h.symm.trans (ofScanned scanned)
    exact scanned

theorem kinds?_relocate (text : List Char) (loc loc' : Location) :
    kinds? text loc = kinds? text loc' :=
  Option.ext fun _ => scanned_iff_kinds?.trans scanned_iff_kinds?.symm

namespace PreprocState

variable {st : PreprocState} {ts : List Token} {c : BranchCondition} {loc : Location}

theorem of_map_kind_cons {kind : TokenKind} {kinds : List TokenKind}
    (h : ts.map Token.kind = kind :: kinds) :
    ∃ place others, ts = ⟨kind, place⟩ :: others ∧ others.map Token.kind = kinds := by
  obtain ⟨t, others, rfl, rfl, same⟩ := List.map_eq_cons_iff.mp h
  exact ⟨t.loc, others, rfl, same⟩

theorem conditionOperand_of_ofKinds? (h : BranchCondition.ofKinds? (ts.map Token.kind) = some c) :
    ∃ value, st.conditionOperand loc (negations ts).2 = (value, [], []) ∧
      (value != (negations ts).1) = c.holds st.macros := by
  generalize same : ts.map Token.kind = kinds at h
  fun_induction BranchCondition.ofKinds? kinds generalizing ts c with
  | case1 kinds ih =>
      obtain ⟨place, ts, rfl, others⟩ := of_map_kind_cons same
      obtain ⟨c, condition, rfl⟩ := Option.map_eq_some_iff.mp h
      obtain ⟨value, operand, holds⟩ := ih others condition
      refine ⟨value, operand, ?_⟩
      rw [negations, BranchCondition.holds, ← holds]
      exact Bool.bne_not _ _
  | case2 value | case3 value =>
      obtain ⟨place, ts, rfl, none⟩ := of_map_kind_cons same
      obtain rfl := List.map_eq_nil_iff.mp none
      cases h
      exact ⟨value != 0, rfl, Bool.bne_false _⟩
  | case5 name plain =>
      obtain ⟨place, ts, rfl, none⟩ := of_map_kind_cons same
      obtain rfl := List.map_eq_nil_iff.mp none
      cases h
      refine ⟨BranchCondition.holds st.macros (.nonzero name), ?_, Bool.bne_false _⟩
      have noOperator : (name == "defined") = false := beq_eq_false_iff_ne.mpr plain
      show st.conditionOperand loc [⟨.ident name, place⟩] = _
      simp only [conditionOperand, noOperator, BranchCondition.holds, Bool.false_eq_true, if_false]
      obtain _ | ⟨kind, _⟩ := (st.macros.find? name).bind List.head?
      · rfl
      · cases kind <;> rfl
  | case6 name =>
      obtain ⟨place, ts, rfl, named⟩ := of_map_kind_cons same
      obtain ⟨_, ts, rfl, none⟩ := of_map_kind_cons named
      obtain rfl := List.map_eq_nil_iff.mp none
      cases h
      exact ⟨st.macros.contains name, rfl, Bool.bne_false _⟩
  | case8 name =>
      obtain ⟨place, ts, rfl, opened⟩ := of_map_kind_cons same
      obtain ⟨_, ts, rfl, named⟩ := of_map_kind_cons opened
      obtain ⟨_, ts, rfl, closed⟩ := of_map_kind_cons named
      obtain ⟨_, ts, rfl, none⟩ := of_map_kind_cons closed
      obtain rfl := List.map_eq_nil_iff.mp none
      cases h
      exact ⟨st.macros.contains name, rfl, Bool.bne_false _⟩
  | case4 | case7 | case9 | case10 => cases h

theorem condition_of_kinds? {text : List Char} {kinds : List TokenKind}
    (scan : kinds? text loc = some kinds) (h : BranchCondition.ofKinds? kinds = some c) :
    st.condition text loc = (c.holds st.macros, []) := by
  unfold kinds? at scan
  dsimp only at scan
  split at scan
  case isFalse => cases scan
  case isTrue noFaults =>
    cases scan
    obtain ⟨value, operand, holds⟩ := @conditionOperand_of_ofKinds? st _ _ loc h
    rw [condition]
    dsimp only
    rw [operand]
    dsimp only
    rw [holds, List.isEmpty_iff.mp noFaults]
    rfl


theorem directive_eq (d : Directive) : st.directive d.text d.loc =
    if d.name == "ifdef" then st.ifDefined d.name true d.operand d.loc d.operandLoc
    else if d.name == "ifndef" then st.ifDefined d.name false d.operand d.loc d.operandLoc
    else if d.name == "if" then st.ifCondition d.operand d.operandLoc
    else if d.name == "elif" then st.elif d.operand d.loc d.operandLoc
    else if d.name == "else" then st.elseBranch d.loc
    else if d.name == "endif" then st.endif d.loc
    else if !st.active then (st, .empty)
    else if d.name == "" then (st, .empty)
    else if d.name == "define" then st.define d.operand d.operandLoc
    else if d.name == "undef" then
      ({ st with macros := st.macros.erase (String.ofList (Text.trim d.operand)) }, .empty)
    else if d.name == "include" then
      (st, PreprocOutput.warning d.loc (.includeIgnored (String.ofList (Text.trim d.operand))))
    else if d.name == "pragma" then
      (st, PreprocOutput.warning d.loc (.pragmaIgnored (String.ofList (Text.trim d.operand))))
    else if d.name == "error" then
      (st, PreprocOutput.fault d.loc (.errorDirective (String.ofList (Text.trim d.operand))))
    else (st, PreprocOutput.fault d.loc (.unknownDirective d.name)) := rfl

end PreprocState

/-! ### Lines of directives -/

/-- The directive of a line has this name. -/
def lineName (line : String) : String :=
  ((Directive.ofLine? line .start).map Directive.name).getD ""

/-- The condition that a line at `loc` gives for the branch behind it. -/
def condition? (line : String) (loc : Location) : Option BranchCondition :=
  (Directive.ofLine? line loc).bind Directive.condition?

/-- The macros behind a line at `loc` that defines one or drops a definition. -/
def edit? (line : String) (loc : Location) (m : MacroTable) : Option MacroTable :=
  (Directive.ofLine? line loc).bind (·.edit? m)

/-- A line that opens a group. The name that it asks for is looked up even where it is skipped. -/
structure Opens (line : String) : Prop where
  isDirective : IsDirective line
  name : lineName line = "if" ∨ lineName line = "ifdef" ∨ lineName line = "ifndef"
  asks : lineName line ≠ "if" → (condition? line .start).isSome = true

instance (line : String) : Decidable (Opens line) :=
  decidable_of_iff (IsDirective line ∧
      (lineName line = "if" ∨ lineName line = "ifdef" ∨ lineName line = "ifndef") ∧
      (lineName line ≠ "if" → (condition? line .start).isSome = true))
    ⟨fun h => ⟨h.1, h.2.1, h.2.2⟩, fun h => ⟨h.isDirective, h.name, h.asks⟩⟩

/-! ### Directives where they stand -/

theorem isSome_kinds? (text : List Char) (loc : Location) :
    (kinds? text loc).isSome = (ScannedLine.ofText text loc).faults.isEmpty := by
  unfold kinds?
  dsimp only
  split
  case isTrue none => exact none.symm
  case isFalse some => exact (Bool.eq_false_iff.mpr some).symm

namespace Directive

variable {d d' : Directive}

theorem name_congr (h : d.text = d'.text) : d.name = d'.name := by
  rw [name, name, h]

theorem operand_congr (h : d.text = d'.text) : d.operand = d'.operand := by
  rw [operand, operand, h]

theorem condition?_congr (h : d.text = d'.text) : d.condition? = d'.condition? := by
  rw [condition?, condition?, name_congr h, operand_congr h, kinds?_relocate]

/-- Whether a definition is well formed does not depend on its place or on other macros. -/
theorem define_faults_relocate (st st' : PreprocState) (rest : List Char) (loc loc' : Location) :
    (st.define rest loc).2.faults.isEmpty = (st'.define rest loc').2.faults.isEmpty := by
  unfold PreprocState.define
  dsimp only
  split
  · rfl
  · split
    · rfl
    · dsimp only
      rw [← isSome_kinds?, ← isSome_kinds?, kinds?_relocate]

theorem isSome_edit?_congr (h : d.text = d'.text) (m m' : MacroTable) :
    (d.edit? m).isSome = (d'.edit? m').isSome := by
  unfold edit?
  rw [name_congr h, operand_congr h]
  split
  · have same := define_faults_relocate { macros := m } { macros := m' } d'.operand d.operandLoc
      d'.operandLoc
    dsimp only
    rw [same]
    split <;> rfl
  · split <;> rfl

end Directive

namespace IsDirective

variable {line : String} (h : IsDirective line)
include h

theorem exists_ofLine? (loc : Location) : ∃ d, Directive.ofLine? line loc = some d ∧
    d.name = lineName line ∧ d.condition? = condition? line .start ∧
    ∀ m, (d.edit? m).isSome = (edit? line .start {}).isSome := by
  obtain ⟨lead, body, text, -, isLine, -⟩ := h.cut
  refine ⟨_, isLine loc, ?_, ?_, fun m => ?_⟩
  · rw [lineName, isLine, Option.map_some, Option.getD_some]
    exact Directive.name_congr (by rfl)
  · rw [condition?, isLine, Option.bind_some]
    exact Directive.condition?_congr (by rfl)
  · rw [edit?, isLine, Option.bind_some]
    exact Directive.isSome_edit?_congr (by rfl) m {}

theorem condition?_relocate (loc : Location) : condition? line loc = condition? line .start := by
  obtain ⟨d, isLine, -, same, -⟩ := h.exists_ofLine? loc
  rw [← same, condition?, isLine, Option.bind_some]

theorem isSome_edit?_relocate (loc : Location) (m : MacroTable) :
    (edit? line loc m).isSome = (edit? line .start {}).isSome := by
  obtain ⟨d, isLine, -, -, same⟩ := h.exists_ofLine? loc
  rw [← same m, edit?, isLine, Option.bind_some]

end IsDirective

namespace PreprocState

variable {st : PreprocState} {line : String} {loc : Location}

theorem active_cons {m : MacroTable} {top : Conditional} {outer : List Conditional} :
    active ⟨m, top :: outer⟩ = top.active := rfl

theorem line_eq_directive {d : Directive} (h : Directive.ofLine? line loc = some d) :
    st.line line loc = st.directive d.text d.loc := by
  rw [PreprocState.line, h]

/-! ### What directives do -/

theorem define_macros (st : PreprocState) (rest : List Char) (loc : Location) :
    st.define rest loc =
      ({ st with macros := (PreprocState.define { macros := st.macros } rest loc).1.macros },
        (PreprocState.define { macros := st.macros } rest loc).2) := by
  unfold define
  dsimp only
  split
  · rfl
  · split <;> rfl

theorem define_output {rest : List Char} (h : (st.define rest loc).2.faults = []) :
    (st.define rest loc).2 = .empty := by
  unfold define at h ⊢
  dsimp only at h ⊢
  split at h
  case isTrue => cases h
  case isFalse noName =>
    split at h
    case isTrue => cases h
    case isFalse noCall =>
      rw [if_neg noName, if_neg noCall]
      exact congrArg (PreprocOutput.mk [] []) h

theorem line_edit (h : IsDirective line) (name : lineName line = "define" ∨ lineName line = "undef")
    (active : st.active = true) {m : MacroTable} (edit : edit? line loc st.macros = some m) :
    st.line line loc = ({ st with macros := m }, .empty) := by
  obtain ⟨d, isLine, named, -, -⟩ := h.exists_ofLine? loc
  rw [edit?, isLine, Option.bind_some, Directive.edit?] at edit
  rw [← named] at name
  rw [line_eq_directive isLine, directive_eq]
  rcases name with name | name
  · rw [name, if_pos rfl] at edit
    dsimp only at edit
    split at edit
    case isFalse => cases edit
    case isTrue noFaults =>
      cases edit
      rw [List.isEmpty_iff] at noFaults
      rw [← define_output noFaults, name, active]
      exact define_macros st d.operand d.operandLoc
  · rw [name, if_neg (by decide), if_pos rfl] at edit
    cases edit
    rw [name, active]
    rfl

theorem line_edit_skipped (h : IsDirective line)
    (name : lineName line = "define" ∨ lineName line = "undef") (inactive : st.active = false) :
    st.line line loc = (st, .empty) := by
  obtain ⟨d, isLine, named, -, -⟩ := h.exists_ofLine? loc
  rw [line_eq_directive isLine, directive_eq, named]
  rcases name with name | name <;> simp [name, inactive]

theorem ifDefined_of_kinds? {kinds : List TokenKind} {c : BranchCondition} {rest : List Char}
    {restLoc : Location} (scan : kinds? rest restLoc = some kinds)
    (h : BranchCondition.ofName? kinds = some c) (directive : String) (expected : Bool) :
    st.ifDefined directive expected rest loc restLoc =
      (st.openGroup (c.holds st.macros == expected), .empty) := by
  unfold kinds? at scan
  dsimp only at scan
  split at scan
  case isFalse => cases scan
  case isTrue noFaults =>
    cases scan
    unfold BranchCondition.ofName? at h
    split at h
    case h_2 => cases h
    case h_1 name others same =>
      cases h
      obtain ⟨place, ts, tokens, -⟩ := of_map_kind_cons same
      unfold ifDefined
      dsimp only
      rw [tokens, List.isEmpty_iff.mp noFaults]
      rfl

/-- A line that asks for a name does so even where it is skipped. -/
theorem line_asks (h : IsDirective line) (name : lineName line = "ifdef" ∨ lineName line = "ifndef")
    {c : BranchCondition} (condition : condition? line loc = some c) :
    st.line line loc = (st.openGroup (c.holds st.macros), .empty) := by
  obtain ⟨d, isLine, named, -, -⟩ := h.exists_ofLine? loc
  rw [← named] at name
  rw [LiveC.condition?, isLine, Option.bind_some] at condition
  obtain ⟨kinds, scan, condition⟩ := Option.bind_eq_some_iff.mp condition
  rw [line_eq_directive isLine, directive_eq]
  rcases name with name | name
  · rw [name, if_pos rfl] at condition
    rw [name]
    show st.ifDefined _ true _ _ _ = _
    rw [ifDefined_of_kinds? scan condition, beq_true]
  · rw [name, if_neg (by decide), if_pos rfl] at condition
    obtain ⟨asked, isName, rfl⟩ := Option.map_eq_some_iff.mp condition
    rw [name]
    show st.ifDefined _ false _ _ _ = _
    rw [ifDefined_of_kinds? scan isName, beq_false]
    rfl

theorem line_opens (h : Opens line) (active : st.active = true) {c : BranchCondition}
    (condition : condition? line loc = some c) :
    st.line line loc = (st.openGroup (c.holds st.macros), .empty) := by
  rcases h.name with name | name
  · obtain ⟨d, isLine, named, -, -⟩ := h.isDirective.exists_ofLine? loc
    rw [LiveC.condition?, isLine, Option.bind_some] at condition
    obtain ⟨kinds, scan, condition⟩ := Option.bind_eq_some_iff.mp condition
    rw [named, name, if_neg (by decide), if_neg (by decide)] at condition
    rw [line_eq_directive isLine, directive_eq, named, name]
    show st.ifCondition _ _ = _
    rw [ifCondition, if_pos active, condition_of_kinds? scan condition]
    rfl
  · exact line_asks h.isDirective name condition

/-- A group that is opened where text is skipped evaluates no condition of `#if`. -/
theorem line_opens_skipped (h : Opens line) (inactive : st.active = false) :
    ∃ value, st.line line loc = (st.openGroup value, .empty) := by
  by_cases isIf : lineName line = "if"
  · obtain ⟨d, isLine, named, -, -⟩ := h.isDirective.exists_ofLine? loc
    refine ⟨false, ?_⟩
    rw [line_eq_directive isLine, directive_eq, named, isIf]
    show st.ifCondition _ _ = _
    rw [ifCondition, if_neg (by simp [inactive])]
  · have asks := h.asks isIf
    rw [← h.isDirective.condition?_relocate loc] at asks
    obtain ⟨c, condition⟩ := Option.isSome_iff_exists.mp asks
    exact ⟨_, line_asks h.isDirective (h.name.resolve_left isIf) condition⟩

section

variable {top : Conditional} {outer : List Conditional}
  (conditionals : st.conditionals = top :: outer)
include conditionals

theorem line_elif (h : IsDirective line) (name : lineName line = "elif")
    (noElse : top.seenElse = false)
    (parent : top.parentActive = true) (untaken : top.taken = false) {c : BranchCondition}
    (condition : condition? line loc = some c) :
    st.line line loc =
      ({ st with conditionals :=
          { top with active := c.holds st.macros, taken := c.holds st.macros } :: outer },
        .empty) := by
  obtain ⟨d, isLine, named, -, -⟩ := h.exists_ofLine? loc
  rw [LiveC.condition?, isLine, Option.bind_some] at condition
  obtain ⟨kinds, scan, condition⟩ := Option.bind_eq_some_iff.mp condition
  rw [named, name, if_neg (by decide), if_neg (by decide)] at condition
  rw [line_eq_directive isLine, directive_eq, named, name]
  show st.elif _ _ _ = _
  rw [elif, conditionals]
  dsimp only
  rw [noElse, parent, untaken, condition_of_kinds? scan condition]
  rfl

/-- No condition is evaluated once a branch was taken, or where the whole group is skipped. -/
theorem line_elif_skipped (h : IsDirective line) (name : lineName line = "elif")
    (noElse : top.seenElse = false) (skipped : (top.parentActive && !top.taken) = false) :
    st.line line loc =
      ({ st with conditionals := { top with active := false } :: outer }, .empty) := by
  obtain ⟨d, isLine, named, -, -⟩ := h.exists_ofLine? loc
  rw [line_eq_directive isLine, directive_eq, named, name]
  show st.elif _ _ _ = _
  rw [elif, conditionals]
  dsimp only
  rw [noElse, skipped]
  rfl

theorem line_else (h : IsDirective line) (name : lineName line = "else")
    (noElse : top.seenElse = false) :
    st.line line loc =
      ({ st with conditionals :=
          { top with active := top.parentActive && !top.taken, taken := true, seenElse := true } ::
            outer }, .empty) := by
  obtain ⟨d, isLine, named, -, -⟩ := h.exists_ofLine? loc
  rw [line_eq_directive isLine, directive_eq, named, name]
  show st.elseBranch _ = _
  rw [elseBranch, conditionals]
  dsimp only
  rw [noElse]
  rfl

theorem line_endif (h : IsDirective line) (name : lineName line = "endif") :
    st.line line loc = ({ st with conditionals := outer }, .empty) := by
  obtain ⟨d, isLine, named, -, -⟩ := h.exists_ofLine? loc
  rw [line_eq_directive isLine, directive_eq, named, name]
  show st.endif _ = _
  rw [endif, conditionals]

end

theorem line_text (h : IsText line) : st.line line loc = (st, st.kept (lineTokens line loc)) := by
  rw [PreprocState.line, h.ofLine?]

end PreprocState

end LiveC
