import LiveC.Proofs.SourcePieces

/-!
A source that stands some lines further down. Its directives ask and define the same, so that the
run over it gives the same tokens, warnings and errors, each as many lines further down.
-/

namespace LiveC

/-! ### Macros whose bodies stand elsewhere -/

namespace MacroTable

/-- The macros without the places of their bodies. -/
def bare (m : MacroTable) : List (String × List TokenKind) :=
  m.entries.map fun e => (e.1, e.2.map Token.kind)

theorem lookup_bare (m : MacroTable) (name : String) :
    m.bare.lookup name = (m.find? name).map (List.map Token.kind) := by
  obtain ⟨entries⟩ := m
  simp only [bare, find?]
  induction entries with
  | nil => rfl
  | cons e entries ih =>
      rw [List.map_cons, List.lookup_cons, List.lookup_cons]
      split
      · rfl
      · exact ih

theorem bare_erase (m : MacroTable) (name : String) :
    (m.erase name).bare = m.bare.filter (·.1 != name) := by
  unfold bare erase
  rw [List.filter_map]
  rfl

theorem bare_insert (m : MacroTable) (name : String) (body : List Token) :
    (m.insert name body).bare = (name, body.map Token.kind) :: m.bare.filter (·.1 != name) := by
  rw [← bare_erase]
  rfl

theorem expand_of_find? {m : MacroTable} {name : String} {body : List Token} {loc : Location}
    (found : m.find? name = some body) :
    m.expand loc (.ident name) =
      (body.map Token.kind).flatMap ((m.erase name).expand loc) := by
  rw [expand, List.flatMap_map]
  split <;> simp_all

theorem expand_of_missing {m : MacroTable} {name : String} {loc : Location}
    (missing : m.find? name = none) : m.expand loc (.ident name) = [⟨.ident name, loc⟩] := by
  rw [expand]
  split <;> simp_all

variable {m m' : MacroTable} (alike : m.bare = m'.bare)
include alike

theorem find?_alike (name : String) :
    (m.find? name).map (List.map Token.kind) = (m'.find? name).map (List.map Token.kind) := by
  rw [← lookup_bare, ← lookup_bare, alike]

theorem contains_alike (name : String) : m.contains name = m'.contains name := by
  have same := congrArg Option.isSome (find?_alike alike name)
  rwa [Option.isSome_map, Option.isSome_map] at same

/-- The first token of a body, which is what a condition reads of it. -/
theorem head?_alike (name : String) :
    ((m.find? name).bind List.head?).map Token.kind =
      ((m'.find? name).bind List.head?).map Token.kind := by
  have same := congrArg (Option.bind · List.head?) (find?_alike alike name)
  simpa only [Option.bind_map, List.head?_map, Function.comp_def, Option.map_bind] using same

theorem erase_alike (name : String) : (m.erase name).bare = (m'.erase name).bare := by
  rw [bare_erase, bare_erase, alike]

theorem insert_alike (name : String) {body body' : List Token}
    (same : body.map Token.kind = body'.map Token.kind) :
    (m.insert name body).bare = (m'.insert name body').bare := by
  rw [bare_insert, bare_insert, alike, same]

/-- The tokens of an expansion stand where the macro is used. -/
theorem expand_alike (n : Nat) (loc : Location) (kind : TokenKind) :
    m'.expand (loc.down n) kind = (m.expand loc kind).map (Token.down n) := by
  induction size : m.size using Nat.strongRecOn generalizing m m' kind with
  | ind size' ih =>
      cases kind with
      | ident name =>
          have same := find?_alike alike name
          cases found : m.find? name with
          | none =>
              rw [found] at same
              rw [expand_of_missing found, expand_of_missing (Option.map_eq_none_iff.mp same.symm)]
              rfl
          | some body =>
              rw [found] at same
              obtain ⟨body', found', same⟩ := Option.map_eq_some_iff.mp same.symm
              rw [expand_of_find? found, expand_of_find? found', same, List.map_flatMap]
              exact congrArg (List.flatMap · _) (funext fun kind =>
                ih _ (size ▸ size_erase_lt found) (erase_alike alike name) kind rfl)
      | _ =>
          rw [expand, expand]
          · rfl
          all_goals exact fun name same => by cases same

end MacroTable

/-- States that differ only in where the bodies of their macros stand. -/
structure PreprocState.Alike (st st' : PreprocState) : Prop where
  macros : st.macros.bare = st'.macros.bare
  conditionals : st.conditionals = st'.conditionals

def PreprocOutput.down (n : Nat) (output : PreprocOutput) : PreprocOutput where
  tokens := output.tokens.map (Token.down n)
  warnings := output.warnings.map (Diagnostic.down n)
  faults := output.faults.map (LexFault.down n)

theorem PreprocOutput.append_down (n : Nat) (a b : PreprocOutput) :
    (a ++ b).down n = a.down n ++ b.down n := by
  simp only [down, HAppend.hAppend, Append.append, PreprocOutput.mk.injEq]
  exact ⟨List.map_append .., List.map_append .., List.map_append ..⟩

namespace PreprocState

/-! ### Conditions -/

/-- What reading a part of a condition gives, further down. -/
abbrev operandDown (n : Nat) (r : Bool × List LexFault × List Token) :
    Bool × List LexFault × List Token :=
  (r.1, r.2.1.map (LexFault.down n), r.2.2.map (Token.down n))

theorem negations_down (n : Nat) (ts : List Token) :
    negations (ts.map (Token.down n)) =
      ((negations ts).1, (negations ts).2.map (Token.down n)) := by
  fun_induction negations ts with
  | case1 loc ts odd rest same ih =>
      rw [List.map_cons, Token.down, negations, ih, same]
  | case2 ts other =>
      rw [negations]
      intro loc rest same
      obtain ⟨t, ts', rfl, place, -⟩ := List.map_eq_cons_iff.mp same
      obtain ⟨kind, place'⟩ := t
      cases place
      exact other _ _ rfl

/-- The name that `defined` asks for. -/
def definedName (st : PreprocState) (loc : Location) :
    List Token → Bool × List LexFault × List Token
  | ⟨.ident name, _⟩ :: ts => (st.macros.contains name, [], ts)
  | _ :: ts => (false, [⟨loc, .definedExpectsName⟩], ts)
  | [] => (false, [⟨loc, .definedExpectsName⟩], [])

/-- The parenthesis behind the name. -/
def closeDefined (loc : Location) (r : Bool × List LexFault × List Token) :
    Bool × List LexFault × List Token :=
  match r.2.2 with
  | ⟨.punct .rparen, _⟩ :: ts => (r.1, r.2.1, ts)
  | ts => (r.1, r.2.1 ++ [⟨loc, .missingCloseAfterDefined⟩], ts)

theorem definedOperand_parenthesized (st : PreprocState) (loc place : Location)
    (ts : List Token) :
    st.definedOperand loc (⟨.punct .lparen, place⟩ :: ts) =
      closeDefined loc (st.definedName loc ts) := rfl

theorem definedOperand_plain (st : PreprocState) (loc : Location) {ts : List Token}
    (plain : ∀ place ts', ts ≠ ⟨.punct .lparen, place⟩ :: ts') :
    st.definedOperand loc ts = st.definedName loc ts := by
  unfold definedOperand
  dsimp only
  split
  case h_1 => exact absurd rfl (plain _ _)
  case h_2 => rfl

theorem closeDefined_down (n : Nat) (loc : Location) (r : Bool × List LexFault × List Token) :
    closeDefined (loc.down n) (operandDown n r) = operandDown n (closeDefined loc r) := by
  obtain ⟨value, faults, ts⟩ := r
  unfold closeDefined
  split
  case h_1 _ place ts' closed =>
    obtain ⟨⟨kind, place'⟩, ts, rfl, head, rfl⟩ := List.map_eq_cons_iff.mp closed
    cases head
    rfl
  case h_2 noClose =>
    dsimp only at noClose ⊢
    split
    case h_1 => exact absurd rfl (noClose _ _)
    case h_2 => simp [operandDown, LexFault.down]

variable {st st' : PreprocState} (alike : st.Alike st') (n : Nat)
include alike

theorem active_alike : st.active = st'.active := by
  rw [active, active, alike.conditionals]

theorem openGroup_alike (value : Bool) : (st.openGroup value).Alike (st'.openGroup value) where
  macros := alike.macros
  conditionals := by rw [openGroup, openGroup, active_alike alike, alike.conditionals]

theorem definedName_down (loc : Location) (ts : List Token) :
    st'.definedName (loc.down n) (ts.map (Token.down n)) =
      operandDown n (st.definedName loc ts) := by
  rcases ts with _ | ⟨⟨kind, place⟩, ts⟩
  · rfl
  · rw [List.map_cons, Token.down]
    cases kind with
    | ident name =>
        rw [definedName, ← MacroTable.contains_alike alike.macros]
        rfl
    | _ => rfl

theorem definedOperand_down (loc : Location) (ts : List Token) :
    st'.definedOperand (loc.down n) (ts.map (Token.down n)) =
      operandDown n (st.definedOperand loc ts) := by
  by_cases parenthesized : ∃ place ts', ts = ⟨.punct .lparen, place⟩ :: ts'
  · obtain ⟨place, ts, rfl⟩ := parenthesized
    rw [List.map_cons, Token.down, definedOperand_parenthesized, definedOperand_parenthesized,
      definedName_down alike, closeDefined_down]
  · have plain : ∀ place ts', ts ≠ ⟨.punct .lparen, place⟩ :: ts' :=
      fun place ts' same => parenthesized ⟨place, ts', same⟩
    rw [definedOperand_plain st loc plain, definedOperand_plain, definedName_down alike]
    intro place ts' same
    obtain ⟨⟨kind, place'⟩, ts, rfl, head, -⟩ := List.map_eq_cons_iff.mp same
    cases head
    exact plain _ _ rfl

theorem conditionOperand_down (loc : Location) (ts : List Token) :
    st'.conditionOperand (loc.down n) (ts.map (Token.down n)) =
      operandDown n (st.conditionOperand loc ts) := by
  rcases ts with _ | ⟨⟨kind, place⟩, ts⟩
  · rfl
  · rw [List.map_cons, Token.down]
    cases kind with
    | ident name =>
        have same := MacroTable.head?_alike alike.macros name
        simp only [conditionOperand]
        split
        · exact definedOperand_down alike n loc ts
        · generalize (st.macros.find? name).bind List.head? = first at same ⊢
          generalize (st'.macros.find? name).bind List.head? = first' at same ⊢
          cases first with
          | none =>
              obtain rfl := Option.map_eq_none_iff.mp same.symm
              rfl
          | some t =>
              obtain ⟨⟨kind', place'⟩, rfl, kind⟩ := Option.map_eq_some_iff.mp same.symm
              obtain ⟨kind'', place''⟩ := t
              cases kind
              cases kind' <;> rfl
    | _ => rfl

theorem condition_down (text : List Char) (loc : Location) :
    st'.condition text (loc.down n) =
      ((st.condition text loc).1, (st.condition text loc).2.map (LexFault.down n)) := by
  rw [condition, condition, ScannedLine.ofText_down]
  dsimp only
  rw [negations_down, conditionOperand_down alike]
  generalize st.conditionOperand loc _ = r
  obtain ⟨value, faults, rest⟩ := r
  cases rest <;> simp [Token.down, LexFault.down]

/-! ### Directives -/

/-- A step gives the same, further down, and leaves a state that differs only in where the bodies of
macros stand. -/
def Follows (n : Nat) (r r' : PreprocState × PreprocOutput) : Prop :=
  r.1.Alike r'.1 ∧ r'.2 = r.2.down n

omit alike in
theorem Follows.ite {n : Nat} {c : Prop} [Decidable c] {a b a' b' : PreprocState × PreprocOutput}
    (yes : Follows n a a') (no : Follows n b b') :
    Follows n (if c then a else b) (if c then a' else b') := by
  split
  · exact yes
  · exact no

theorem ifDefined_down (name : String) (expected : Bool) (rest : List Char)
    (loc restLoc : Location) :
    Follows n (st.ifDefined name expected rest loc restLoc)
      (st'.ifDefined name expected rest (loc.down n) (restLoc.down n)) := by
  unfold ifDefined
  rw [ScannedLine.ofText_down, ← active_alike alike]
  generalize ScannedLine.ofText rest restLoc = line
  obtain ⟨ts, faults⟩ := line
  have unnamed : Follows n
      (st.openGroup (false == expected), { faults := faults ++
        if st.active then [⟨loc, .expectsMacroName name⟩] else [] })
      (st'.openGroup (false == expected), { faults := faults.map (LexFault.down n) ++
        if st.active then [⟨loc.down n, .expectsMacroName name⟩] else [] }) := by
    refine ⟨openGroup_alike alike _, ?_⟩
    simp only [PreprocOutput.down, List.map_append]
    split <;> rfl
  rcases ts with _ | ⟨⟨kind, place⟩, ts⟩
  · exact unnamed
  · cases kind with
    | ident asked =>
        have known := MacroTable.contains_alike alike.macros asked
        simp only [List.map_cons, Token.down, ← known]
        exact ⟨openGroup_alike alike _, by simp [PreprocOutput.down]⟩
    | _ => exact unnamed

theorem ifCondition_down (rest : List Char) (restLoc : Location) :
    Follows n (st.ifCondition rest restLoc) (st'.ifCondition rest (restLoc.down n)) := by
  unfold ifCondition
  rw [← active_alike alike, condition_down alike]
  split
  · exact ⟨openGroup_alike alike _, rfl⟩
  · exact ⟨openGroup_alike alike _, rfl⟩

theorem elif_down (rest : List Char) (loc restLoc : Location) :
    Follows n (st.elif rest loc restLoc) (st'.elif rest (loc.down n) (restLoc.down n)) := by
  unfold elif
  rw [← alike.conditionals, condition_down alike]
  split
  · exact ⟨alike, rfl⟩
  · split
    · exact ⟨alike, rfl⟩
    · split
      · exact ⟨⟨alike.macros, rfl⟩, rfl⟩
      · exact ⟨⟨alike.macros, rfl⟩, rfl⟩

theorem elseBranch_down (loc : Location) :
    Follows n (st.elseBranch loc) (st'.elseBranch (loc.down n)) := by
  unfold elseBranch
  rw [← alike.conditionals]
  split
  · exact ⟨alike, rfl⟩
  · split
    · exact ⟨alike, rfl⟩
    · exact ⟨⟨alike.macros, rfl⟩, rfl⟩

theorem endif_down (loc : Location) : Follows n (st.endif loc) (st'.endif (loc.down n)) := by
  unfold endif
  rw [← alike.conditionals]
  split
  · exact ⟨alike, rfl⟩
  · exact ⟨⟨alike.macros, rfl⟩, rfl⟩

theorem define_down (rest : List Char) (loc : Location) :
    Follows n (st.define rest loc) (st'.define rest (loc.down n)) := by
  unfold define
  dsimp only
  split
  · exact ⟨alike, rfl⟩
  · split
    · exact ⟨alike, rfl⟩
    · refine ⟨⟨MacroTable.insert_alike alike.macros _ ?_, alike.conditionals⟩, ?_⟩
      · rw [← Location.down_column, ScannedLine.ofText_down, List.map_map]
        rfl
      · rw [← Location.down_column, ScannedLine.ofText_down]
        rfl

theorem directive_down (d : Directive) :
    Follows n (st.directive d.text d.loc) (st'.directive d.text (d.loc.down n)) := by
  have unchanged (output : PreprocOutput) : Follows n (st, output) (st', output.down n) :=
    ⟨alike, rfl⟩
  unfold directive
  dsimp only
  rw [← active_alike alike]
  refine .ite (ifDefined_down alike n ..) (.ite (ifDefined_down alike n ..) ?_)
  refine .ite (ifCondition_down alike n ..) (.ite (elif_down alike n ..) ?_)
  refine .ite (elseBranch_down alike n _) (.ite (endif_down alike n _) ?_)
  refine .ite (unchanged _) (.ite (unchanged _) (.ite (define_down alike n ..) ?_))
  refine .ite ⟨⟨MacroTable.erase_alike alike.macros _, alike.conditionals⟩, rfl⟩ ?_
  exact .ite (unchanged _) (.ite (unchanged _) (.ite (unchanged _) (unchanged _)))

end PreprocState

/-! ### Runs -/

theorem PreprocState.piece_down {st st' : PreprocState} (alike : st.Alike st') (n : Nat)
    (p : SourcePiece) : Follows n (st.piece p) (st'.piece (p.down n)) := by
  cases p with
  | lexeme result =>
      refine ⟨alike, ?_⟩
      simp only [piece, SourcePiece.down, lexeme, ← active_alike alike]
      split
      · cases result with
        | ok t => 
            simp only [Except.map, Except.mapError, Token.down,
              MacroTable.expand_alike alike.macros n]
            rfl
        | error f => rfl
      · rfl
  | directive d => exact directive_down alike n d
  | comment f =>
      refine ⟨alike, ?_⟩
      simp only [piece, SourcePiece.down, ← active_alike alike]
      split <;> rfl

theorem PreprocState.pieces_down {st st' : PreprocState} (alike : st.Alike st') (n : Nat)
    (ps : List SourcePiece) : Follows n (st.pieces ps) (st'.pieces (ps.map (SourcePiece.down n))) := by
  induction ps generalizing st st' with
  | nil => exact ⟨alike, rfl⟩
  | cons p ps ih =>
      obtain ⟨behind, output⟩ := piece_down alike n p
      obtain ⟨last, others⟩ := ih behind
      refine ⟨last, ?_⟩
      rw [List.map_cons, pieces_cons, pieces_cons]
      dsimp only
      rw [output, others, PreprocOutput.append_down]

theorem PreprocState.run_down {st st' : PreprocState} (alike : st.Alike st') (n : Nat)
    (lineStart : Bool) (c : Cursor) :
    st'.run lineStart (c.down n) = (st.run lineStart c).down n := by
  obtain ⟨last, output⟩ := pieces_down alike n (c.cut lineStart).pieces
  rw [run_eq_pieces, run_eq_pieces, Cursor.cut_down, PreprocOutput.append_down]
  simp only [Cut.down, output]
  congr 1
  simp only [finish, ← last.conditionals]
  split <;> rfl

end LiveC
