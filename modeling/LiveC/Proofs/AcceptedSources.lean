import LiveC.Link.Region
import LiveC.Parser.Source
import LiveC.Proofs.CompiledObjects
import LiveC.Proofs.FileTransitions
import LiveC.Proofs.ParserProgress
import LiveC.Proofs.UnitGrammar

/-!
Declarations of one name. What an accepted source says of a function agrees with what it comes to
in the end. The types of variables are not compared.

Which variables lie in read-only memory. Pointers and variables that are not flagged as constants
never do, in whatever kind of declaration they are defined. Arrays of pointers may.

Sizes of the objects of an accepted source. What a declarator says is bounded by `maxObjectSize`.
An array that takes its length from its initialiser is not checked again: its elements are bounded,
and its length is bounded by the source.
-/

namespace LiveC.Parser

/-- Every run of the parser keeps to what is known of a function. -/
theorem settles_transition :
    UnitTransition fun s t => s.unit.symbols.Settles t.unit.symbols where
  refl s _ old found := ⟨old, found, .refl old⟩
  trans h k name old found := by
    obtain ⟨middle, known, before⟩ := h name old found
    obtain ⟨new, last, behind⟩ := k name middle known
    exact ⟨new, last, before.trans behind⟩
  rest _ _ _ old found := ⟨old, found, .refl old⟩
  warnings _ _ _ old found := ⟨old, found, .refl old⟩
  errors _ _ _ old found := ⟨old, found, .refl old⟩
  bind _ _ _ _ old found := ⟨old, found, .refl old⟩
  bindFile _ _ _ _ old found := ⟨old, found, .refl old⟩
  symbol _ _ _ settles := settles
  strings _ _ _ old found := ⟨old, found, .refl old⟩
  locals _ _ _ old found := ⟨old, found, .refl old⟩
  staticLocals _ _ _ old found := ⟨old, found, .refl old⟩
  global _ _ _ _ old found := ⟨old, found, .refl old⟩
  block h := h
  loop h := h
  forget _ _ _ old found := ⟨old, found, .refl old⟩
  place _ _ _ _ _ old found := ⟨old, found, .refl old⟩
  functions _ _ _ old found := ⟨old, found, .refl old⟩

/-- From where its rounds have got, a loop runs on as it does from the start. -/
theorem iterate_of_rounds {β : Type} {step : β → Parser (ForInStep β)}
    (spends : ∀ b s, Spends GoesOn (step b) s) {b c : β} {s t : ParserState}
    (rounds : Rounds step b s c t) : iterate step b s = iterate step c t := by
  induction rounds with
  | start => rfl
  | again run _ ih =>
      rw [iterate, run]
      dsimp only
      rw [if_pos (spends _ _ _ _ run trivial), ih]

/-- What an accepted declaration of a function says is, in the end, still so. -/
theorem Agrees.settled {ty : CType} {symbol final : GlobalSymbol} (h : Agrees ty symbol)
    (settles : symbol.Settles final) {f t : Signature} (last : final.ty.signature? = some f)
    (declared : ty.signature? = some t) :
    f.ret = t.ret ∧ (f = t ∨ t.unspecified = true ∨ f.unspecified = true ∧ final.defined = true) := by
  obtain ⟨s, known, ret, agrees⟩ := h.signature declared
  obtain ⟨s', same, ret', settled⟩ := settles.signature last
  cases known.symm.trans same
  refine ⟨ret'.symm.trans ret, ?_⟩
  obtain rfl | hidden | ⟨hidden, isDefined⟩ := agrees
  · obtain rfl | ⟨hidden, -⟩ | ⟨hidden, isDefined, -⟩ := settled
    · exact .inl rfl
    · exact .inr (.inl hidden)
    · exact .inr (.inr ⟨hidden, isDefined⟩)
  · exact .inr (.inl hidden)
  · obtain rfl | ⟨-, undefined⟩ | ⟨-, -, undefined⟩ := settled
    · exact .inr (.inr ⟨hidden, settles.defined isDefined⟩)
    · exact absurd (undefined.symm.trans isDefined) nofun
    · exact absurd (undefined.symm.trans isDefined) nofun

/-- What is known of a function between two declarations of an accepted source is, in the end,
still so. -/
theorem symbols_settle {tokens : List Token} {p : Parsed} (h : parseTokens tokens = .ok p) :
    ∃ s t, translationUnit (productions maxNesting) s = .ok () t ∧ t.unit = p.unit ∧ s.unit = {} ∧
      ∀ u, Rounds (unitStep (productions maxNesting)) () s () u →
        u.unit.symbols.Settles p.unit.symbols := by
  obtain ⟨s, t, run, unit, start⟩ := run_of_parseTokens h
  refine ⟨s, t, run, unit, start, fun u rounds => ?_⟩
  have rest : iterate (unitStep (productions maxNesting)) () u = .ok () t :=
    (iterate_of_rounds (fun _ _ => unitStep_spends (productions_moving maxNesting) _) rounds).symm.trans run
  have moves := translationUnit_moves settles_transition (productions_moving maxNesting) u
  rw [show translationUnit (productions maxNesting) u = .ok () t from rest] at moves
  exact unit ▸ moves.1.2

/-- The declarations `long f(); long f(int a);`, behind which the parameter is known. -/
theorem symbols_settle_declaredTwice :
    let tokens : List Token := [.keyword .longKw, .ident "f", .punct .lparen, .punct .rparen,
      .punct .semicolon, .keyword .longKw, .ident "f", .punct .lparen, .keyword .intKw, .ident "a",
      .punct .rparen, .punct .semicolon, .eof].map (⟨·, .start⟩)
    ∃ p, parseTokens tokens = .ok p ∧
      (p.unit.symbols.find? "f").any (·.ty == .function (.int .long) [.int .int] false false) ∧
      ∃ s t, translationUnit (productions maxNesting) s = .ok () t ∧ t.unit = p.unit ∧
        s.unit = {} ∧ ∀ u, Rounds (unitStep (productions maxNesting)) () s () u →
          u.unit.symbols.Settles p.unit.symbols := by
  intro tokens
  have accepted : (parseTokens tokens).toOption.any (fun p => (p.unit.symbols.find? "f").any
      (·.ty == .function (.int .long) [.int .int] false false)) = true := by
    decide +kernel
  obtain ⟨p, run, accepted⟩ := exists_of_toOption_any accepted
  exact ⟨p, run, accepted, symbols_settle run⟩

end LiveC.Parser

namespace LiveC

/-- What a function returns that reads a variable. -/
def Function.read? (f : Function) : Option (String × CType) :=
  match f.body with
  | [.return (some (.global n name))] => some (name, n.ty)
  | _ => none

/-- A variable that is read as eight bytes and laid out as one. -/
theorem parseSource_of_conflictingVariable :
    ∃ u warnings, parseSource "extern long x;\nlong get(void) { return x; }\nchar x;" [] =
        .ok (u, warnings) ∧
      (∃ f ∈ u.functions, ∃ ty, f.read? = some ("x", ty) ∧ ty.size = 8) ∧
      u.globals.map (fun v => (v.name, v.ty.size)) = [("x", 1)] := by
  have facts : (parseSource "extern long x;\nlong get(void) { return x; }\nchar x;" []).toOption.any
      (fun r => (∃ f ∈ r.1.functions, f.read?.map (fun read => (read.1, read.2.size)) = some ("x", 8)) ∧
        r.1.globals.map (fun v => (v.name, v.ty.size)) = [("x", 1)]) = true := by
    rw [parseSource_of_bytes (Text.toByteChars_of_all ?_)]
    all_goals decide +kernel
  obtain ⟨r, parsed, facts⟩ := exists_of_toOption_any facts
  obtain ⟨⟨f, member, read⟩, laidOut⟩ := of_decide_eq_true facts
  obtain ⟨⟨name, ty⟩, found, same⟩ := Option.map_eq_some_iff.mp read
  obtain ⟨rfl, size⟩ := Prod.mk.inj same
  exact ⟨r.1, r.2, parsed, ⟨f, member, ty, found, size⟩, laidOut⟩

end LiveC

/-! ## Constants -/

namespace LiveC

/-- Nothing that is flagged as a constant is a pointer. -/
def TranslationUnit.ConstantsPointFree (u : TranslationUnit) : Prop :=
  ∀ v ∈ u.globals, v.isConst = true → v.ty.isPointer = false

/-- No run of the parser flags a pointer. -/
theorem Parser.constantsPointFree_of_parseTokens {tokens : List Token} {p : Parsed}
    (h : parseTokens tokens = .ok p) : p.unit.ConstantsPointFree :=
  fun v member => (made_of_parseTokens h v member).writable

namespace GlobalVar

/-- What is read-only is a constant. -/
theorem isConst_of_readOnly {v : GlobalVar} (h : v.dataKind = .readOnly) : v.isConst = true := by
  unfold dataKind at h
  split at h
  · cases h
  · split at h
    case isTrue constant => exact (Bool.and_eq_true_iff.mp constant).1
    case isFalse => cases h

/-- Not every constant is read-only: one that stores an address is written to in linking. -/
example :
    let names := CType.array (.pointer (.int .char)) (some 1)
    dataKind ⟨"names", names, false, true, some [⟨0, .address (.str 0) 0⟩], .start⟩ = .data := by
  decide +kernel

end GlobalVar

open Lowering

variable {u : TranslationUnit} {d : DataLayout}

/-- The symbol of a variable with contents lies in the section of its kind of data. -/
theorem section_of_global (code : UnitCode) (holds : d.Holds u.globals)
    (distinct : (u.globals.map (·.name)).Nodup) {v : GlobalVar} (member : v ∈ u.globals)
    (sized : 0 < v.ty.size) :
    ∃ s ∈ (objectOf u d code).symbols, s.name = v.name ∧ s.size = v.ty.size ∧
      ∃ place, (objectOf u d code).sections[s.sectionId]? = some place ∧
        place.kind = v.dataKind.sectionKind ∧ s.offset + s.size ≤ place.size := by
  obtain ⟨offset, found, inside⟩ := holds.lookup distinct member
  have symbol : globalSymbol d v = some
      { name := v.name, kind := .data, sectionId := d.sectionId v.dataKind, offset,
        size := v.ty.size, isGlobal := !v.isStatic } := by
    rw [globalSymbol, found]
    rfl
  refine ⟨_, List.mem_append_right _ (List.mem_filterMap.mpr ⟨v, member, symbol⟩), rfl, rfl, ?_⟩
  obtain ⟨i, kind, same⟩ | ⟨empty, -⟩ := d.sectionId_cases v.dataKind
  · refine ⟨dataSection u (unitLayout u d) code.layout d v.dataKind, ?_, kind_dataSection .., ?_⟩
    · dsimp only
      rw [same]
      exact (List.getElem?_map ..).trans (by rw [kind]; rfl)
    · rwa [size_dataSection holds]
  · omega

/-- Pointers, and variables that are not flagged as constants, are stored to after loading, also
where they are static and belong to a function. -/
theorem writable_of_compileSource {source : String} {options : CompileOptions} {object : Object}
    {warnings : List Diagnostic} (compiled : compileSource source options = .ok (object, warnings)) :
    ∃ u, parseSource source options.defines = .ok (u, warnings) ∧
      ∀ v ∈ u.globals, v.ty.isPointer = true ∨ v.isConst = false → 0 < v.ty.size →
        ∃ s ∈ object.symbols, s.name = v.name ∧ s.size = v.ty.size ∧
          ∃ place, object.sections[s.sectionId]? = some place ∧
            (Permission.ofKind place.kind).isWritable = true ∧ s.offset + s.size ≤ place.size := by
  obtain ⟨u, code, parsed, rfl, ⟨_, _, recorded⟩, -⟩ := compiled_eq_ok compiled
  refine ⟨u, parsed, fun v member writable sized => ?_⟩
  obtain ⟨tokens, p, -, accepted, rfl⟩ := scanned_of_parseSource parsed
  have notReadOnly : v.dataKind ≠ .readOnly := fun readOnly => by
    have isConst := GlobalVar.isConst_of_readOnly readOnly
    obtain pointer | flag := writable
    · have free := Parser.constantsPointFree_of_parseTokens accepted v member isConst
      exact absurd (free.symm.trans pointer) nofun
    · exact absurd (flag.symm.trans isConst) nofun
  obtain ⟨s, listed, name, size, place, found, kind, inside⟩ := section_of_global code
    (DataLayout.holds_ofUnit recorded.contained) recorded.globalNames member sized
  refine ⟨s, listed, name, size, place, found, ?_, inside⟩
  rw [kind]
  cases same : v.dataKind with
  | data | zero => rfl
  | readOnly => exact absurd same notReadOnly

/-- A pointer to constants, at file scope and in a function. -/
theorem writable_of_pointersToConstants :
    let source := "const char *name = 0; int f(void) { static const int *p = 0; return p == 0; }"
    ∃ object u warnings, compileSource source {} = .ok (object, warnings) ∧
      parseSource source [] = .ok (u, warnings) ∧ u.globals.map (·.name) = ["name", "f.p.1"] ∧
      ∀ v ∈ u.globals, ∃ s ∈ object.symbols, s.name = v.name ∧ s.size = v.ty.size ∧
        ∃ place, object.sections[s.sectionId]? = some place ∧
          (Permission.ofKind place.kind).isWritable = true ∧ s.offset + s.size ≤ place.size := by
  intro source
  have facts : (parseSource source []).toOption.any (fun r =>
      r.1.globals.map (·.name) = ["name", "f.p.1"] ∧
        (∀ v ∈ r.1.globals, v.ty.isPointer = true ∧ 0 < v.ty.size) ∧
        r.1.lower.toOption.isSome) = true := by
    rw [parseSource_of_bytes (Text.toByteChars_of_all ?_)]
    all_goals decide +kernel
  obtain ⟨⟨u, warnings⟩, parsed, facts⟩ := exists_of_toOption_any facts
  obtain ⟨names, pointers, lowers⟩ := of_decide_eq_true facts
  obtain ⟨object, lowered⟩ := Option.isSome_iff_exists.mp lowers
  have compiled : compileSource source {} = .ok (object, warnings) :=
    compileSource_of_lower rfl parsed (ok_of_toOption lowered)
  obtain ⟨_, parsed', writable⟩ := writable_of_compileSource compiled
  obtain ⟨rfl, -⟩ := Prod.mk.inj (Except.ok.inj (parsed'.symm.trans parsed))
  exact ⟨object, _, warnings, compiled, parsed, names, fun v member =>
    writable v member (.inl (pointers v member).1) (pointers v member).2⟩

/-- The elements of an array of pointers to constants are no constants, but the array is. -/
theorem readOnly_of_arrayOfPointers :
    ∃ object warnings, compileSource "const char *names[2] = {0, 0};" {} = .ok (object, warnings) ∧
      ∃ s ∈ object.symbols, s.name = "names" ∧ ∃ place, object.sections[s.sectionId]? = some place ∧
        (Permission.ofKind place.kind).isWritable = false := by
  have facts : (compileSource "const char *names[2] = {0, 0};" {}).toOption.any (fun r =>
      ∃ s ∈ r.1.symbols, s.name = "names" ∧ (r.1.sections[s.sectionId]?).any fun place =>
        !(Permission.ofKind place.kind).isWritable) = true := by
    rw [compileSource, parseSource_of_bytes (Text.toByteChars_of_all ?_)]
    all_goals decide +kernel
  obtain ⟨r, compiled, facts⟩ := exists_of_toOption_any facts
  obtain ⟨s, listed, name, place⟩ := of_decide_eq_true facts
  obtain ⟨place, found, sealed⟩ := (Option.any_eq_true ..).mp place
  exact ⟨r.1, r.2, compiled, s, listed, name, place, found, by simpa using sealed⟩

end LiveC

/-! ## Sizes -/

namespace LiveC

namespace CType

/-- The elements of a completed array are counted by a short source, so its size is a word. -/
theorem Completed.checkedSize {t : CType} {limit : Nat} (h : t.Completed limit)
    (short : limit ≤ 2 ^ 33) : ∃ size ≤ limit * maxObjectSize, t.checkedSize = some size := by
  obtain ⟨element, n, rfl, bounded, le⟩ := h
  obtain ⟨size, small, checked⟩ := bounded.fits
  have product : size * n ≤ limit * maxObjectSize := by
    rw [Nat.mul_comm]
    exact Nat.mul_le_mul le small
  have inRange : size * n < Word.modulus :=
    calc size * n ≤ limit * maxObjectSize := product
      _ ≤ 2 ^ 33 * maxObjectSize := Nat.mul_le_mul_right _ short
      _ < Word.modulus := by decide
  refine ⟨size * n, product, ?_⟩
  simp only [CType.checkedSize, checked, Option.bind_eq_bind, Option.bind_some, Option.getD_some]
  exact if_pos inRange

/-- What an object takes that fits or has been completed. -/
theorem checkedSize_of_stored {t : CType} {limit : Nat} (h : t.Fits ∨ t.Completed limit)
    (positive : 1 ≤ limit) (short : limit ≤ 2 ^ 33) :
    ∃ size ≤ limit * maxObjectSize, t.checkedSize = some size := by
  obtain ⟨size, small, checked⟩ | completed := h
  · exact ⟨size, Nat.le_trans small (Nat.le_mul_of_pos_left _ positive), checked⟩
  · exact completed.checkedSize short

/-- Two rows of the largest size, which together are no more than a word can say. -/
example : (array (array (.int .char) (some maxObjectSize)) (some 2)).checkedSize =
    some (2 * maxObjectSize) := by decide +kernel

end CType

/-- The types of what a unit lays out: its variables, static local ones among them, and the
parameters and variables of its functions. -/
def TranslationUnit.objectTypes (u : TranslationUnit) : List CType :=
  u.globals.map (·.ty) ++ u.functions.flatMap fun f => f.signature.params ++ f.locals.map (·.ty)

/-- Every object is as small as objects have to be, unless it is an array that its initialiser
completes. Its elements are then as small, and it has no more of them than the source has tokens and
bytes of strings, so that a source of less than eight gigabytes makes no size overflow. -/
theorem sizes_of_parseTokens {tokens : List Token} {p : Parsed}
    (accepted : parseTokens tokens = .ok p) :
    let limit := initialisers (seenTokens tokens) + 1
    (∀ v ∈ p.unit.globals, v.ty.Fits ∨ v.init.isSome = true ∧ v.ty.Completed limit) ∧
    (∀ f ∈ p.unit.functions, (∀ t ∈ f.signature.params, t.Fits) ∧
      ∀ v ∈ f.locals, v.ty.Fits ∨ v.ty.Completed limit) ∧
    (limit ≤ 2 ^ 33 → ∀ t ∈ p.unit.objectTypes,
      ∃ size ≤ limit * CType.maxObjectSize, t.checkedSize = some size) := by
  intro limit
  have parsed := parsed_of_parseTokens accepted
  have globals : ∀ v ∈ p.unit.globals, v.ty.Fits ∨ v.init.isSome = true ∧ v.ty.Completed limit := by
    intro v member
    have global := parsed.globals v member
    obtain bounded | completed := global.stored.2
    · exact .inl bounded.fits
    · cases init : v.init with
      | none => exact .inl (global.declared init).fits
      | some items => exact .inr ⟨rfl, completed⟩
  have functions : ∀ f ∈ p.unit.functions, (∀ t ∈ f.signature.params, t.Fits) ∧
      ∀ v ∈ f.locals, v.ty.Fits ∨ v.ty.Completed limit := by
    intro f member
    have function := parsed.functions f member
    exact ⟨fun t isParam => (function.params t isParam).fits,
      fun v isLocal => (function.locals v isLocal).2.imp_left CType.Bounded.fits⟩
  refine ⟨globals, functions, fun short t member => ?_⟩
  suffices stored : t.Fits ∨ t.Completed limit from
    CType.checkedSize_of_stored stored (Nat.le_add_left 1 _) short
  obtain inGlobals | inFunctions := List.mem_append.mp member
  · obtain ⟨v, isGlobal, rfl⟩ := List.mem_map.mp inGlobals
    exact (globals v isGlobal).imp_right And.right
  · obtain ⟨f, isFunction, inFunction⟩ := List.mem_flatMap.mp inFunctions
    obtain isParam | isLocal := List.mem_append.mp inFunction
    · exact .inl ((functions f isFunction).1 t isParam)
    · obtain ⟨v, declared, rfl⟩ := List.mem_map.mp isLocal
      exact (functions f isFunction).2 v declared

/-- Rows of the largest size, a static array of a function and a string. -/
theorem sizes_of_completedArrays :
    let source := "typedef char row[2147483647]; row big[] = \x7b\x7b0\x7d, \x7b1\x7d, \x7b2\x7d\x7d; " ++
      "int f(int n) \x7b static long t[] = \x7b1, 2\x7d; char s[] = \"ab\"; return n; \x7d"
    ∃ text p, tokenize source [] = .ok text ∧ parseTokens text.tokens = .ok p ∧
      p.unit.objectTypes.map CType.size = [6442450941, 16, 4, 4, 3] ∧
      let limit := initialisers (seenTokens text.tokens) + 1
      limit ≤ 2 ^ 33 ∧
      (∀ v ∈ p.unit.globals, v.ty.Fits ∨ v.init.isSome = true ∧ v.ty.Completed limit) ∧
      (∀ f ∈ p.unit.functions, (∀ t ∈ f.signature.params, t.Fits) ∧
        ∀ v ∈ f.locals, v.ty.Fits ∨ v.ty.Completed limit) ∧
      ∀ t ∈ p.unit.objectTypes, ∃ size ≤ limit * CType.maxObjectSize, t.checkedSize = some size := by
  intro source
  have facts : (tokenize source []).toOption.any (fun text =>
      initialisers (seenTokens text.tokens) + 1 ≤ 2 ^ 33 ∧ (parseTokens text.tokens).toOption.any
        (·.unit.objectTypes.map CType.size = [6442450941, 16, 4, 4, 3])) = true := by
    rw [tokenize_of_bytes (Text.toByteChars_append_of (Text.toByteChars_of_all ?_)
      (Text.toByteChars_of_all ?_))]
    all_goals decide +kernel
  obtain ⟨text, scanned, facts⟩ := exists_of_toOption_any facts
  obtain ⟨few, accepted⟩ := of_decide_eq_true facts
  obtain ⟨p, run, types⟩ := exists_of_toOption_any accepted
  obtain ⟨globals, functions, all⟩ := sizes_of_parseTokens run
  exact ⟨text, p, scanned, run, of_decide_eq_true types, few, globals, functions, all few⟩

/-- A variable that takes twice as much as an object may take. -/
theorem parseSource_of_largeArray :
    ∃ u warnings, parseSource "char a[][2147483647] = \x7b\x7b0\x7d, \x7b0\x7d\x7d;" [] = .ok (u, warnings) ∧
      ∃ v ∈ u.globals, ∃ size, v.ty.checkedSize = some size ∧ CType.maxObjectSize < size := by
  have facts : (parseSource "char a[][2147483647] = \x7b\x7b0\x7d, \x7b0\x7d\x7d;" []).toOption.any (fun r =>
      ∃ v ∈ r.1.globals, v.ty.checkedSize = some 4294967294) = true := by
    rw [parseSource_of_bytes (Text.toByteChars_of_all ?_)]
    all_goals decide +kernel
  obtain ⟨r, parsed, facts⟩ := exists_of_toOption_any facts
  obtain ⟨v, member, size⟩ := of_decide_eq_true facts
  exact ⟨r.1, r.2, parsed, v, member, _, size, by decide⟩

end LiveC
