import LiveC.Lowering.Object
import LiveC.Proofs.BalancedCode
import LiveC.Proofs.StatementLabels
import LiveC.Proofs.UnitGrammar

/-!
What code generation makes of a unit that the parser accepts: each function is the opening of
a frame, orderly code between that takes off the stack what it pushes, and the end; and code
generation of such a unit fails only where a frame is too large.
-/

namespace LiveC

namespace Landmarks

/-- The labels of code, at which as many words are pushed as there are when it is run from the
start, and the entries of functions. -/
def of (IsEntry : Label → Prop) (code : UnitCode) : Landmarks where
  height? l := (code.marks 0).lookup l
  IsEntry

theorem shows_of {entries : Label → Prop} {code : UnitCode} (distinct : code.labels.Nodup) :
    (of entries code).Shows (code.marks 0) := by
  rw [← Code.map_fst_marks 0] at distinct
  exact fun m member => lookup_of_mem distinct member

end Landmarks

/-- The label that control may go to behind a piece, or that it takes the address of. -/
def Piece.target? : Piece Reference → Option Label
  | .instr (.jmp l) | .instr (.jcc _ l) | .instr (.call l) => some l
  | .linked _ r => match r.target with
    | .entry l => some l
    | _ => none
  | _ => none

/-- The labels that code uses. -/
def Code.targets (c : UnitCode) : List Label := c.filterMap Piece.target?

theorem Piece.known_of_orderly {M : Landmarks} {floor h : Nat} {p : Piece Reference} {l : Label}
    (orderly : p.Orderly M floor h) (target : p.target? = some l) :
    M.height? l = some h ∨ M.IsEntry l := by
  cases p with
  | label => cases target
  | linked f r =>
      rw [target?] at target
      split at target
      case h_1 same =>
        cases target
        exact .inr (orderly.1 l same)
      case h_2 => cases target
  | instr i =>
      cases i with
      | jmp | jcc =>
          cases target
          exact .inl orderly
      | call =>
          cases target
          exact .inr orderly.2
      | _ => cases target

theorem Code.known_of_orderly {M : Landmarks} {floor h : Nat} {c : UnitCode}
    (orderly : c.Orderly M floor h) {l : Label} (target : l ∈ c.targets) :
    (∃ k, M.height? l = some k) ∨ M.IsEntry l := by
  induction c generalizing h with
  | nil => cases target
  | cons p c ih =>
      rw [targets, List.filterMap_cons] at target
      cases first : p.target? with
      | none =>
          rw [first] at target
          exact ih orderly.2 target
      | some k =>
          rw [first] at target
          rcases List.mem_cons.mp target with rfl | target
          · exact (Piece.known_of_orderly orderly.1 first).imp (fun h => ⟨_, h⟩) id
          · exact ih orderly.2 target

theorem Code.targets_append (c d : UnitCode) : (c ++ d).targets = c.targets ++ d.targets :=
  List.filterMap_append

namespace Lowering

variable {layout : UnitLayout} {entries : Label → Prop} {entry n n' : Label} {f : Function}
  {code : UnitCode} {c : Context} {frame frame' : Frame}

/-! ### Frames -/

theorem allocateLocals_used {params : Nat} {vars : List LocalVar}
    (run : allocateLocals frame params vars = .ok frame') (le : frame.used ≤ Frame.maxSize) :
    frame'.used ≤ Frame.maxSize := by
  induction vars generalizing frame params with
  | nil =>
      cases run
      exact le
  | cons v vars ih =>
      unfold allocateLocals at run
      cases slot : if 0 < params then frame.allocate? 8 8 else frame.allocate? v.ty.size v.ty.align with
      | none =>
          rw [slot] at run
          cases run
      | some r =>
          rw [slot] at run
          refine ih run ?_
          split at slot <;> exact (allocated_of_allocate? slot).used_le

/-! ### Functions -/

theorem plain_spillParameters {i : Nat} {taken : ArgumentRegisters} {tys : List CType}
    (run : spillParameters c i taken tys n = .ok (code, n')) :
    code.all Piece.isPlain = true := by
  induction tys generalizing i taken n code with
  | nil =>
      obtain ⟨rfl, -⟩ := pure_eq_ok.mp run
      rfl
  | cons ty tys ih =>
      simp only [spillParameters] at run
      cases assigned : taken.assign? (bankOf ty) with
      | none =>
          rw [assigned] at run
          exact absurd run throw_ne_ok
      | some r =>
          rw [assigned] at run
          simp only [bind_eq_ok, variableAddress_eq_ok, pure_eq_ok] at run
          obtain ⟨_, _, ⟨_, _, rfl, rfl⟩, others, _, ho, rfl, rfl⟩ := run
          rw [List.all_append, ih ho, all_block]
          cases r.1 <;> rfl

/-- The code of a function: it opens a frame with a slot for each variable, runs orderly code
that takes off the stack what it pushes, and ends. -/
structure Framed (entries : Label → Prop) (entry : Label) (f : Function) (frame : Frame)
    (inner code : UnitCode) : Prop where
  code_eq : code = (.label entry :: prologue frame.size) ++ (inner ++ epilogue)
  slots : frame.slots.length = f.locals.length
  bounded : frame.size ≤ Frame.maxSize
  aligned : frame.size % 16 = 0
  balanced : inner.pushed 0 = 0
  orderly : inner.Orderly (.of entries inner) 0 0

/-- What stands between the opening of a frame and the end of the function. -/
theorem inner_orderly {fc : FunctionContext} {k : Label} {taken : ArgumentRegisters}
    {tys : List CType} {body : List Stmt} {spills bodyCode : UnitCode}
    (enter : ∀ e ∈ fc.layout.entries, entries e.2)
    (spilled : spillParameters fc.toContext 0 taken tys (fc.finish + 1) = .ok (spills, k))
    (lowered : stmts fc none body k = .ok (bodyCode, n')) :
    let inner := spills ++ (bodyCode ++ (literal 0 ++ [.label fc.finish]))
    inner.labels.Nodup ∧ inner.pushed 0 = 0 ∧ inner.Orderly (.of entries inner) 0 0 := by
  intro inner
  obtain ⟨none, rfl⟩ := spillParameters_labels spilled
  have allotted : Allotted fc.finish inner n' := by
    refine (stmts_allotted (fun _ _ {_ _ _ _} => stmt_allotted) lowered).insert fun l => ?_
    simp only [inner, count_append, count_label, count_nil, none, literal, count_block,
      List.count_nil]
    omega
  have shown : (Landmarks.of entries inner).Shows (inner.marks 0) :=
    Landmarks.shows_of allotted.nodup
  have enter : Landmarks.Enter (.of entries inner) fc.layout := enter
  have first : Balanced (.of entries inner) 0 spills := .plain (plain_spillParameters spilled)
  have main := stmts_settled (fun _ _ {_ _ _ _} => stmt_settled enter) lowered
  have zero : Balanced (.of entries inner) 0 (literal 0) := .plain (plain_literal 0)
  have settled : Settled (.of entries inner) [fc.finish] inner :=
    (Settled.of_balanced first).append (main.append ((Settled.of_balanced zero).append .label))
  have closed := settled.close (by
    simp only [inner, Code.marks_append, first.pushed, main.1, zero.pushed, Code.marks_label,
      List.mem_append, List.mem_cons, true_or, or_true])
  exact ⟨allotted.nodup, closed.1, (closed.2 (List.forall_mem_nil _)).2 shown⟩

theorem framed_of_function (enter : ∀ e ∈ layout.entries, entries e.2)
    (run : function layout entry f n = .ok (code, n')) :
    ∃ frame inner, Framed entries entry f frame inner code ∧
      ∃ (fc : FunctionContext) (k : Label) (opening body closing : UnitCode), fc.layout = layout ∧
        opening.pushed 0 = 0 ∧ stmts fc none f.body k = .ok (body, n') ∧
        inner = opening ++ (body ++ closing) := by
  simp only [function, bind_eq_ok, newLabel_eq_ok, lift_eq_ok, pure_eq_ok] at run
  obtain ⟨_, _, ⟨rfl, rfl⟩, frame, _, ⟨allocated, rfl⟩, spills, _, hs, body, _, hb, rfl, rfl⟩ := run
  have inner := inner_orderly enter hs hb
  have used := allocateLocals_used allocated (Nat.zero_le _)
  have slots : frame.slots.length = f.locals.length := by
    rcases allocateLocals_cases {} f.signature.params.length f.locals with ⟨_, h⟩ | ⟨_, h, slots⟩
    · cases allocated.symm.trans h
    · cases allocated.symm.trans h
      simpa using slots
  refine ⟨frame, _, ⟨by simp only [List.append_assoc], slots, ?_, Nat.mul_mod_left _ _, inner.2.1,
    inner.2.2⟩, _, _, spills, body, _, rfl, ?_, hb, rfl⟩
  · unfold Frame.maxSize at used
    simp only [Frame.size, Frame.maxSize]
    omega
  · have first : Balanced ⟨fun _ => none, entries⟩ 0 spills := .plain (plain_spillParameters hs)
    exact first.pushed

theorem Framed.targets {inner : UnitCode} (framed : Framed entries entry f frame inner code)
    {l : Label} (target : l ∈ code.targets) : l ∈ code.labels ∨ entries l := by
  obtain rfl := framed.code_eq
  have opening : Code.targets (.label entry :: prologue frame.size) = [] := by
    rw [prologue]
    split <;> rfl
  rw [Code.targets_append, Code.targets_append, opening, List.nil_append, List.mem_append] at target
  rcases target with target | target
  · obtain ⟨k, shown⟩ | isEntry := Code.known_of_orderly framed.orderly target
    case inr => exact .inr isEntry
    refine .inl ?_
    have found : (inner.marks 0).lookup l = some k := shown
    have placed := List.mem_map_of_mem (f := Prod.fst) (mem_of_lookup found)
    rw [Code.map_fst_marks] at placed
    rw [Code.labels_append, Code.labels_append]
    exact List.mem_append_right _ (List.mem_append_left _ placed)
  · cases target

/-! ### Units -/

theorem functions_targets {fs : List Function} (enter : ∀ e ∈ layout.entries, entries e.2)
    (run : functions layout entry fs n = .ok (code, n')) {l : Label} (target : l ∈ code.targets) :
    l ∈ code.labels ∨ entries l := by
  induction fs generalizing entry n code with
  | nil =>
      cases run
      cases target
  | cons f fs ih =>
      obtain ⟨first, k, others, hf, ho, rfl⟩ := functions_cons_eq_ok run
      rw [Code.targets_append, List.mem_append] at target
      rw [Code.labels_append, List.mem_append]
      obtain ⟨frame, inner, framed, -⟩ := framed_of_function enter hf
      rcases target with target | target
      · exact (framed.targets target).imp .inl id
      · exact (ih ho target).imp .inr id

/-- A function that the parser hands on has code, unless its frame is too large. -/
theorem function_cases {tokens : List Token} (parsed : f.Parsed tokens layout.strings.length)
    (passable : f.Passable) (entry n : Label) :
    (∃ name, function layout entry f n = .error (.frameTooLarge name)) ∨
      ∃ r, function layout entry f n = .ok r := by
  rcases allocateLocals_cases {} f.signature.params.length f.locals with
    ⟨name, failed⟩ | ⟨frame, allocated, slots⟩
  · refine .inl ⟨name, ?_⟩
    simp only [function, failed]
    rfl
  · refine .inr ?_
    let fc : FunctionContext :=
      { layout, offsets := frame.slots.map (BitVec.ofInt 32), locals := f.locals, finish := n }
    have offsets : fc.offsets.length = f.locals.length := by
      simpa [fc] using slots
    have covers : fc.toContext.Covers (.ofLocals (canonical tokens) f.locals)
        layout.strings.length := by
      refine ⟨fun id ty local_ => ?_, Nat.le_refl _⟩
      obtain ⟨v, found, _⟩ := local_
      rw [offsets]
      exact (List.getElem?_eq_some_iff.mp found).1
    have fits : 0 + f.signature.params.length ≤ fc.offsets.length := by
      rw [offsets, Nat.zero_add, ← List.length_map (f := LocalVar.ty)]
      exact passable.2.length_le
    obtain ⟨spills, k, spilled⟩ := spillParameters_succeeds (c := fc.toContext)
      (passes_of_fitsRegisters passable.1) fits (n + 1)
    have ready := Stmt.allReady_iff.mp parsed.ready
    have each : ∀ s ∈ f.body, Succeeds (stmt fc none s) := fun s member =>
      stmt_succeeds covers False.elim (Stmt.allWellTyped_iff.mp parsed.typed s member)
        (offsets ▸ ready s member)
    obtain ⟨body, n', lowered⟩ := stmts_succeeds each k
    refine ⟨(.label entry :: prologue frame.size ++ spills ++ body ++ literal 0 ++ [.label n] ++
      epilogue, n'), ?_⟩
    simp only [function, bind_eq_ok, newLabel_eq_ok, lift_eq_ok, pure_eq_ok]
    exact ⟨n, n + 1, ⟨rfl, rfl⟩, frame, n + 1, ⟨allocated, rfl⟩, spills, k, spilled, body, n', lowered,
      rfl, rfl⟩

theorem functions_cons_of_ok {fs : List Function} {k : Label}
    (run : function layout entry f n = .ok (code, k)) :
    functions layout entry (f :: fs) n =
      (functions layout (entry + 1) fs k >>= fun r => pure (code ++ r.1, r.2)) := by
  simp only [functions, StateT.run, run]
  rfl

theorem functions_cases {tokens : List Token} {fs : List Function}
    (each : ∀ f ∈ fs, f.Parsed tokens layout.strings.length ∧ f.Passable) (entry n : Label) :
    (∃ f ∈ fs, ∃ name, functions layout entry fs n = .error (f, .frameTooLarge name)) ∨
      ∃ r, functions layout entry fs n = .ok r := by
  induction fs generalizing entry n with
  | nil => exact .inr ⟨_, rfl⟩
  | cons f fs ih =>
      obtain ⟨⟨parsed, passable⟩, others⟩ := List.forall_mem_cons.mp each
      rcases function_cases parsed passable entry n with ⟨name, failed⟩ | ⟨⟨code, k⟩, lowered⟩
      · refine .inl ⟨f, .head _, name, ?_⟩
        simp only [functions, StateT.run, failed]
        rfl
      · rcases ih others (entry + 1) k with ⟨g, member, name, failed⟩ | ⟨⟨rest, n'⟩, lowered'⟩
        · refine .inl ⟨g, .tail _ member, name, ?_⟩
          rw [functions_cons_of_ok lowered, failed]
          rfl
        · refine .inr ⟨(code ++ rest, n'), ?_⟩
          rw [functions_cons_of_ok lowered, lowered']
          rfl

theorem length_strings_foldl_addString (strings : List (List UInt8)) (d : DataLayout) :
    (strings.foldl DataLayout.addString d).strings.length = d.strings.length + strings.length := by
  induction strings generalizing d with
  | nil => rfl
  | cons s strings ih =>
      rw [List.foldl_cons, ih, List.length_cons]
      simp [DataLayout.addString]
      omega

theorem strings_foldl_addGlobal (globals : List GlobalVar) (d : DataLayout) :
    (globals.foldl DataLayout.addGlobal d).strings = d.strings := by
  induction globals generalizing d with
  | nil => rfl
  | cons g globals ih =>
      rw [List.foldl_cons, ih]
      unfold DataLayout.addGlobal DataLayout.setBuffer
      dsimp only
      split <;> rfl

/-- Every string literal of a unit has a place. -/
theorem length_strings_unitLayout (u : TranslationUnit) :
    (unitLayout u (.ofUnit u)).strings.length = u.strings.length := by
  simp [unitLayout, DataLayout.ofUnit, length_strings_foldl_addString, strings_foldl_addGlobal]

/-- The entries of a unit are the first labels. -/
theorem entries_unitLayout (u : TranslationUnit) (d : DataLayout) :
    ∀ e ∈ (unitLayout u d).entries, e.2 < u.functions.length := by
  intro e member
  obtain ⟨⟨f, i⟩, inside, rfl⟩ := List.mem_map.mp member
  exact (List.mem_zipIdx' inside).1

theorem assemble_eq_ok {labels : Nat} (placed : ∀ l < labels, l ∈ code.labels) :
    code.assemble labels = .ok code.layout := by
  have none : (List.range labels).find? (!code.labels.contains ·) = none := by
    simpa using placed
  rw [Code.assemble, none]

/-- No division takes its divisor from where the dividend is. -/
theorem divisor_of_orderly {M : Landmarks} {floor h : Nat} (orderly : code.Orderly M floor h)
    {r : Gp} {signed : Bool} (member : .instr (.divide r signed) ∈ code) : r ≠ .rax ∧ r ≠ .rdx := by
  induction code generalizing h with
  | nil => cases member
  | cons p code ih =>
      rcases List.mem_cons.mp member with rfl | member
      · have plain : (r != .rax && r != .rdx) = true := orderly.1
        simpa using plain
      · exact ih orderly.2 member

/-- The code of a function divides by registers that may be divided by. -/
theorem Framed.divisor {inner : UnitCode} (framed : Framed entries entry f frame inner code) {r : Gp}
    {signed : Bool} (member : .instr (.divide r signed) ∈ code) : r ≠ .rax ∧ r ≠ .rdx := by
  obtain rfl := framed.code_eq
  rw [List.mem_append, List.mem_append] at member
  rcases member with member | member | member
  · exfalso
    revert member
    rw [prologue]
    split <;> simp [block]
  · exact divisor_of_orderly framed.orderly member
  · simp [epilogue, block] at member

/-- Code generation of an accepted unit does not get stuck, where each function is declared by
a name with its parameters behind it (or in another way has its parameters as its first
variables, and in registers). Either the frame of a function is too large, and this is the
error; or there is code, which can be assembled: each label is placed once and all that are
used are; no function takes more off the stack than it has pushed; each has a slot for each
of its variables, and uses no others. -/
theorem lower_of_parseTokens {tokens : List Token} {p : Parsed} (accepted : parseTokens tokens = .ok p)
    (written : ∀ f ∈ p.unit.functions, f.WritesParameters (seenTokens tokens) ∨ f.Passable) :
    let unit := p.unit
    let layout := unitLayout unit (.ofUnit unit)
    let lowered := functions layout 0 unit.functions unit.functions.length
    (∃ f ∈ unit.functions, ∃ name, lowered = .error (f, .frameTooLarge name) ∧
      unit.lower = .error ((LoweringError.frameTooLarge name).diagnostic f)) ∨
    ∃ code labels, lowered = .ok (code, labels) ∧ code.assemble labels = .ok code.layout ∧
      unit.lower = .ok (buildObject unit layout (.ofUnit unit) code.layout) ∧
      (∀ l, code.labels.count l = if l < labels then 1 else 0) ∧
      (∀ l ∈ code.targets, l ∈ code.labels) ∧
      ∀ f ∈ unit.functions, ∃ before part after entry frame inner,
        code = before ++ (part ++ after) ∧
        Framed (· < unit.functions.length) entry f frame inner part ∧
        (∀ r signed, .instr (.divide r signed) ∈ part → r ≠ .rax ∧ r ≠ .rdx) ∧
        Stmt.AllReady layout.strings.length frame.slots.length False f.body ∧
        f.WellTyped (canonical (seenTokens tokens)) := by
  intro unit layout lowered
  have strings : layout.strings.length = unit.strings.length := length_strings_unitLayout unit
  let isEntry : Label → Prop := (· < unit.functions.length)
  have enter : ∀ e ∈ layout.entries, isEntry e.2 := entries_unitLayout unit _
  have parsed := (parsed_of_parseTokens accepted).functions
  have each : ∀ f ∈ unit.functions, f.Parsed (seenTokens tokens) layout.strings.length ∧ f.Passable :=
    fun f member => ⟨strings ▸ parsed f member,
      (written f member).elim (parsed f member).passable id⟩
  rcases functions_cases each 0 unit.functions.length with ⟨f, member, name, failed⟩ | ⟨r, run⟩
  · refine .inl ⟨f, member, name, failed, ?_⟩
    simp only [TranslationUnit.lower, Bind.bind, Except.bind]
    rw [show functions (unitLayout p.unit (.ofUnit p.unit)) 0 _ _ = _ from failed]
    rfl
  · obtain ⟨code, labels⟩ := r
    have counts (l : Nat) := (count_functions run (by omega) l)
    have once (l : Nat) : code.labels.count l = if l < labels then 1 else 0 := by
      obtain ⟨le, count⟩ := counts l
      rw [count]
      split <;> split <;> split <;> omega
    have placed (l : Nat) (h : l < labels) : l ∈ code.labels := by
      rw [← List.count_pos_iff, once, if_pos h]
      exact Nat.one_pos
    have assembled := assemble_eq_ok placed
    refine .inr ⟨code, labels, run, assembled, ?_, once, fun l target => ?_, fun f member => ?_⟩
    · simp only [TranslationUnit.lower, Bind.bind, Except.bind]
      rw [show functions (unitLayout p.unit (.ofUnit p.unit)) 0 _ _ = _ from run]
      simp only [mapError_ok, assembled]
      rfl
    · have known : l ∈ code.labels ∨ isEntry l := functions_targets enter run target
      exact known.elim id fun h => placed l (Nat.lt_of_lt_of_le h (counts l).1)
    · obtain ⟨before, part, after, entry, k, k', rfl, lowered⟩ := functions_split run member
      obtain ⟨frame, inner, framed, -⟩ := framed_of_function enter lowered
      refine ⟨before, part, after, entry, frame, inner, rfl, framed, fun _ _ => framed.divisor, ?_,
        (parsed f member).typed⟩
      rw [strings, framed.slots]
      exact (parsed f member).ready

/-- The function `int f(int a) { while (a) { if (f(a) / 2) break; a = 0; } return 1; }` -/
theorem lower_of_loopingFunction :
    let tokens : List Token := [.keyword .intKw, .ident "f", .punct .lparen, .keyword .intKw,
      .ident "a", .punct .rparen, .punct .lbrace, .keyword .whileKw, .punct .lparen, .ident "a",
      .punct .rparen, .punct .lbrace, .keyword .ifKw, .punct .lparen, .ident "f", .punct .lparen,
      .ident "a", .punct .rparen, .punct .slash, .int 2 false false true, .punct .rparen,
      .keyword .breakKw, .punct .semicolon, .ident "a", .punct .assign, .int 0 false false true,
      .punct .semicolon, .punct .rbrace, .keyword .returnKw, .int 1 false false true,
      .punct .semicolon, .punct .rbrace, .eof].map (⟨·, .start⟩)
    ∃ p object, parseTokens tokens = .ok p ∧ p.unit.functions.length = 1 ∧
      p.unit.lower = .ok object := by
  intro tokens
  have facts : (parseTokens tokens).toOption.any (fun p => p.unit.functions.length = 1 ∧
      (∀ f ∈ p.unit.functions, f.WritesParameters (seenTokens tokens)) ∧
      (functions (unitLayout p.unit (.ofUnit p.unit)) 0 p.unit.functions
        p.unit.functions.length).toOption.isSome) = true := by
    decide +kernel
  obtain ⟨p, accepted, facts⟩ := exists_of_toOption_any facts
  obtain ⟨one, written, lowers⟩ := of_decide_eq_true facts
  rcases lower_of_parseTokens accepted fun f member => .inl (written f member) with
    ⟨f, -, name, failed, -⟩ | ⟨code, labels, -, -, object, -⟩
  · rw [failed] at lowers
    cases lowers
  · exact ⟨p, _, accepted, one, object⟩

end Lowering
end LiveC
