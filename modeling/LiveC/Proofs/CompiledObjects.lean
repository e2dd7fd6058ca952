import LiveC.Proofs.AssembledCode
import LiveC.Proofs.CodeReferences
import LiveC.Proofs.DataPlacement
import LiveC.Proofs.ScannedTokens

/-!
The object of a source is well formed: its code refers to what the unit has, each symbol lies in
the section where its function or variable was put, and no global name is defined twice.
-/

namespace LiveC

/-! ### References -/

/-- What names are used as. -/
abbrev SymbolKind.ofDeclared (isFunction : Bool) : SymbolKind :=
  if isFunction then .function else .data

namespace UnitLayout

/-- A variable or a string literal is at the place. -/
def Has (layout : UnitLayout) (id offset : Nat) : Prop :=
  (∃ name, (name, id, offset) ∈ layout.data) ∨ (id, offset) ∈ layout.strings

/-- What linked fields of the code of a unit hold, where names are used as what they are. -/
inductive Refers (layout : UnitLayout) (kinds : String → Bool → Prop) : Field → Reference → Prop
  | entry {d : Gp} {l : Label} : Refers layout kinds (.address d) ⟨.abs64, .entry l, none⟩
  | place {d : Gp} {id offset : Nat} (has : layout.Has id offset) :
      Refers layout kinds (.address d) ⟨.abs64, .place id offset, none⟩
  | imported {d : Gp} {name : String} {isFunction : Bool} (uses : kinds name isFunction)
      (isImported : layout.target name = .imported name) :
      Refers layout kinds (.address d) ⟨.abs64, .imported name, some (.ofDeclared isFunction)⟩
  | call {name : String} (uses : kinds name true) (noEntry : layout.entries.lookup name = none) :
      Refers layout kinds .call ⟨.branch32, .imported name, some .function⟩

variable {layout : UnitLayout} {name : String}

/-- A name has a place only as that of a variable of the unit. -/
theorem has_of_target {id offset : Nat} (h : layout.target name = .place id offset) :
    layout.Has id offset := by
  unfold target at h
  split at h
  case h_2 found =>
    cases h
    exact .inl ⟨name, mem_of_lookup found⟩
  case h_1 | h_3 => cases h

namespace Refers

variable {kinds : String → Bool → Prop} {f : Field} {r : Reference} (h : layout.Refers kinds f r)
include h

/-- A field lies in its instruction. -/
theorem width_le : f.offset + r.kind.width ≤ f.bytes.length := by
  have address (d : Gp) : 2 + 8 ≤ (Field.address d).bytes.length := by cases d <;> decide
  cases h with
  | entry | place | imported => exact address _
  | call => exact (by decide : 1 + 4 ≤ Field.call.bytes.length)

/-- A field refers to a section only for what is there. -/
theorem has {id offset : Nat} (target : r.target = .place id offset) : layout.Has id offset := by
  cases h with
  | entry | imported | call => cases target
  | place has =>
      cases target
      exact has

end Refers

end UnitLayout

/-! ### Uses of names -/

/-- A mention uses its name as that of a function or of a variable. -/
def Mention.Uses (kinds : String → Bool → Prop) : Mention → Prop
  | .call name => kinds name true
  | .address name isFunction => kinds name isFunction
  | .string _ => True

section

variable {kinds : String → Bool → Prop}

theorem Expr.uses_of_mem_mentions {e : Expr} (h : e.Uses kinds) : ∀ m ∈ e.mentions, m.Uses kinds := by
  induction h with
  | @node e here _ ih =>
      cases e with
      | int | float | var => exact List.forall_mem_nil _
      | str => exact List.forall_mem_singleton.mpr trivial
      | global => exact List.forall_mem_singleton.mpr here
      | unary | step | cast | deref | addrOf =>
          have operand := ih _ (.head _)
          exact operand
      | binary | compare | logic | assign | opAssign | comma =>
          exact List.forall_mem_append.mpr ⟨ih _ (.head _), ih _ (.tail _ (.head _))⟩
      | cond =>
          refine List.forall_mem_append.mpr ⟨List.forall_mem_append.mpr ⟨ih _ (.head _), ?_⟩, ?_⟩
          · exact ih _ (.tail _ (.head _))
          · exact ih _ (.tail _ (.tail _ (.head _)))
      | call =>
          rw [mentions, mentionsAll_eq]
          exact List.forall_mem_append.mpr
            ⟨List.forall_mem_flatMap.mpr ih, List.forall_mem_singleton.mpr here⟩
      | callPointer =>
          rw [mentions, mentionsAll_eq]
          exact List.forall_mem_append.mpr
            ⟨List.forall_mem_flatMap.mpr fun a member => ih a (.tail _ member), ih _ (.head _)⟩

theorem Function.uses_of_mem_mentions {f : Function} (h : f.Uses kinds) :
    ∀ m ∈ f.mentions, m.Uses kinds := by
  have each {s : Stmt} (uses : s.Throughout (Expr.Uses kinds)) : ∀ m ∈ s.mentions, m.Uses kinds := by
    induction uses with
    | node exprs _ ih =>
        intro m member
        obtain ⟨e, inside, mentioned⟩ | ⟨t, inside, mentioned⟩ := Stmt.mem_mentions member
        · exact Expr.uses_of_mem_mentions (exprs e inside) m mentioned
        · exact ih t inside m mentioned
  rw [mentions, Stmt.mentionsAll_eq]
  exact List.forall_mem_flatMap.mpr fun s member => each (h s member)

end

namespace Lowering

variable {layout : UnitLayout} {kinds : String → Bool → Prop}

/-- A mention of what the layout has becomes a field that refers to it. -/
theorem refers_of_resolves {m : Mention} {f : Field} {r : Reference} (uses : m.Uses kinds)
    (h : layout.Resolves m (.linked f r)) : layout.Refers kinds f r := by
  cases h with
  | callImported noEntry => exact .call uses noEntry
  | entry => exact .entry
  | place own => exact .place (UnitLayout.has_of_target own)
  | imported isImported => exact .imported uses isImported
  | string found => exact .place (.inr (List.mem_of_getElem? found))

/-- The code of functions refers to what the layout has. -/
theorem refers_of_functions {entry n n' : Label} {fs : List Function} {code : UnitCode}
    (uses : ∀ f ∈ fs, f.Uses kinds) (run : functions layout entry fs n = .ok (code, n')) :
    code.Links (layout.Refers kinds) := by
  intro f r member
  obtain ⟨m, mentioned, resolves⟩ :=
    exists_of_forall₂ (realises_functions run) (Code.mem_references.mpr member)
  obtain ⟨g, inside, own⟩ := List.mem_flatMap.mp mentioned
  exact refers_of_resolves (Function.uses_of_mem_mentions (uses g inside) m own) resolves

/-! ### Sections -/

variable {u : TranslationUnit} {d : DataLayout} {code : UnitCode}

/-- The object of code and data. -/
abbrev objectOf (u : TranslationUnit) (d : DataLayout) (code : UnitCode) : Object :=
  buildObject u (unitLayout u d) d code.layout

theorem length_sections (u : TranslationUnit) (d : DataLayout) (code : UnitCode) :
    (objectOf u d code).sections.length = d.kinds.length + 1 := by
  simp [buildObject]

/-- Places lie in sections that there are. -/
theorem place_le {id offset : Nat} (h : (unitLayout u d).Has id offset) : id ≤ d.kinds.length := by
  rcases h with ⟨name, member⟩ | member
  · obtain ⟨⟨name, kind, offset⟩, -, same⟩ := List.mem_map.mp member
    cases same
    exact d.sectionId_le kind
  · obtain ⟨offset, -, same⟩ := List.mem_map.mp member
    cases same
    exact d.sectionId_le .readOnly

theorem target_lt {t : CodeTarget} {id : Nat}
    (places : ∀ id offset, t = .place id offset → id ≤ d.kinds.length)
    (h : (relocTarget code.layout t).1 = .sectionStart id) :
    id < (objectOf u d code).sections.length := by
  rw [length_sections]
  cases t with
  | entry l =>
      cases h
      exact Nat.succ_pos _
  | imported name => cases h
  | place id offset =>
      cases h
      exact Nat.lt_succ_of_le (places id offset rfl)

theorem kind_dataSection (u : TranslationUnit) (layout : UnitLayout) (code : Assembled Reference)
    (d : DataLayout) (kind : DataKind) :
    (dataSection u layout code d kind).kind = kind.sectionKind := by
  cases kind <;> rfl

/-- A section of data that is stored. -/
theorem dataSection_of_stored {layout : UnitLayout} {code : Assembled Reference} {kind : DataKind}
    (stored : kind ≠ .zero) : dataSection u layout code d kind =
      .ofBytes kind.sectionKind (d.buffer kind).reversed.reverse (d.buffer kind).align
        ((d.addresses.filter (·.kind = kind)).map (dataRelocation u layout code)) := by
  cases kind with
  | data | readOnly => rfl
  | zero => exact absurd rfl stored

/-- There is one section of each kind. -/
theorem nodup_sectionKinds : ((objectOf u d code).sections.map (·.kind)).Nodup := by
  have kinds : (d.kinds.map DataKind.sectionKind).Nodup :=
    d.nodup_kinds.map fun k k' same => by cases k <;> cases k' <;> first | rfl | cases same
  have data : (objectOf u d code).sections.map (·.kind) =
      .text :: d.kinds.map DataKind.sectionKind := by
    simp [buildObject, Section.ofBytes, Function.comp_def, kind_dataSection]
  rw [data]
  refine List.nodup_cons.mpr ⟨fun text => ?_, kinds⟩
  obtain ⟨k, -, same⟩ := List.mem_map.mp text
  cases k <;> cases same

/-- The code is a valid section. -/
theorem valid_text (refers : code.Links ((unitLayout u d).Refers kinds)) :
    (Section.ofBytes .text code.layout.code textAlign
      (code.layout.sites.map (codeRelocation code.layout))).Valid (objectOf u d code) where
  align := ⟨4, rfl⟩
  zero := nofun
  size _ := rfl
  fields r member := by
    obtain ⟨site, isSite, rfl⟩ := List.mem_map.mp member
    obtain ⟨f, start, linked, offset, inside⟩ := code.layout_spec.2 site isSite
    have width := (refers f _ linked).width_le
    change site.1 + site.2.kind.width ≤ code.layout.code.length
    omega
  targets r member id target := by
    obtain ⟨site, isSite, rfl⟩ := List.mem_map.mp member
    obtain ⟨f, start, linked, -⟩ := code.layout_spec.2 site isSite
    exact target_lt (fun _ _ place => place_le ((refers f _ linked).has place)) target

variable {globals : List GlobalVar}

/-- Data of a size that is not out of range is a valid section. -/
theorem valid_data (holds : d.Holds globals) {kind : DataKind}
    (small : (d.buffer kind).size < Word.modulus - 1) :
    (dataSection u (unitLayout u d) code.layout d kind).Valid (objectOf u d code) := by
  have aligned : ∃ i, (d.buffer kind).align = 2 ^ i := by
    obtain ⟨i, -, align⟩ := Object.isPowerOfTwo_iff.mp (holds.aligned kind).isPowerOfTwo
    exact ⟨i, align⟩
  by_cases zero : kind = .zero
  · subst zero
    exact ⟨aligned, fun _ => ⟨rfl, rfl⟩, fun other => absurd rfl other, nofun, nofun⟩
  · have filled : (d.buffer kind).reversed.reverse.length = (d.buffer kind).size := by
      rw [List.length_reverse]
      exact holds.filled kind zero
    rw [dataSection_of_stored zero]
    refine ⟨aligned, fun isZero => ?_, fun _ => rfl, fun r member => ?_, fun r member id target => ?_⟩
    · cases kind <;> first | exact absurd rfl zero | cases isZero
    · obtain ⟨a, isAddress, rfl⟩ := List.mem_map.mp member
      obtain ⟨listed, same⟩ := List.mem_filter.mp isAddress
      obtain rfl := of_decide_eq_true same
      exact (holds.addressed a listed small).trans (Nat.le_of_eq filled.symm)
    · obtain ⟨a, -, rfl⟩ := List.mem_map.mp member
      unfold dataRelocation at target
      refine target_lt (fun id offset place => ?_) target
      split at place
      case h_1 => exact place_le (UnitLayout.has_of_target place)
      case h_2 n _ =>
        cases place
        cases found : (unitLayout u d).strings[n]? with
        | none => exact Nat.zero_le _
        | some p => exact place_le (.inr (List.mem_of_getElem? found))

/-! ### Symbols -/

theorem functionSymbol_inside (starts : List Nat) (f : Function) {start : Nat}
    (inside : start ≤ code.layout.code.length) (all : ∀ s ∈ starts, s ≤ code.layout.code.length) :
    let s := functionSymbol code.layout starts f start
    s.offset + s.size ≤ code.layout.code.length := by
  have stop : ((starts.filter (start < ·)).min?).getD code.layout.code.length ≤
      code.layout.code.length := by
    cases least : (starts.filter (start < ·)).min? with
    | none => exact Nat.le_refl _
    | some stop => exact all stop (List.mem_filter.mp (List.min?_mem least)).1
  change start + (((starts.filter (start < ·)).min?).getD code.layout.code.length - start) ≤ _
  omega

theorem size_dataSection (holds : d.Holds globals) (layout : UnitLayout) (code : Assembled Reference)
    (kind : DataKind) : (dataSection u layout code d kind).size = (d.buffer kind).size := by
  cases kind with
  | data => exact (List.length_reverse).trans (holds.filled .data nofun)
  | readOnly => exact (List.length_reverse).trans (holds.filled .readOnly nofun)
  | zero => rfl

theorem globalSymbol_eq_some {g : GlobalVar} {s : ObjectSymbol} (h : globalSymbol d g = some s) :
    s.name = g.name ∧ s.kind = .data ∧ s.isGlobal = !g.isStatic := by
  obtain ⟨_, -, rfl⟩ := Option.map_eq_some_iff.mp h
  exact ⟨rfl, rfl, rfl⟩

/-- A variable lies in its section. Without data of its kind it is empty, at the start of the
code. -/
theorem globalSymbol_inside (code : UnitCode) (holds : d.Holds u.globals)
    (distinct : (u.globals.map (·.name)).Nodup) {g : GlobalVar} (member : g ∈ u.globals)
    {s : ObjectSymbol} (h : globalSymbol d g = some s) :
    ∃ place, (objectOf u d code).sections[s.sectionId]? = some place ∧
      s.offset + s.size ≤ place.size := by
  obtain ⟨offset, found, inside⟩ := holds.lookup distinct member
  unfold globalSymbol at h
  rw [found] at h
  cases h
  dsimp only
  rcases d.sectionId_cases g.dataKind with ⟨i, kind, same⟩ | ⟨empty, same⟩
  · refine ⟨dataSection u (unitLayout u d) code.layout d g.dataKind, ?_, ?_⟩
    · rw [same]
      exact (List.getElem?_map ..).trans (by rw [kind]; rfl)
    · rwa [size_dataSection holds]
  · rw [same]
    exact ⟨_, rfl, by omega⟩

/-- What numbered functions give by their names alone, they give without numbers. -/
theorem map_zipIdx_names {make : Function × Nat → String} (same : ∀ p, make p = p.1.name)
    (fs : List Function) : fs.zipIdx.map make = fs.map (·.name) := by
  conv_rhs => rw [← List.zipIdx_map_fst 0 fs, List.map_map]
  exact List.map_congr_left fun p _ => same p

theorem names_functionSymbols (u : TranslationUnit) (code : UnitCode) :
    let starts := u.functions.zipIdx.map fun (f, i) => (f, (code.layout.labelOffset? i).getD 0)
    (starts.map fun (f, start) => functionSymbol code.layout (starts.map (·.2)) f start).map
      ObjectSymbol.name = u.functions.map (·.name) := by
  intro starts
  rw [List.map_map, List.map_map]
  exact map_zipIdx_names (fun _ => rfl) u.functions

theorem names_globalSymbols (d : DataLayout) (globals : List GlobalVar) :
    ((globals.filterMap (globalSymbol d)).map ObjectSymbol.name).Sublist
      (globals.map (·.name)) := by
  induction globals with
  | nil => exact .slnil
  | cons g globals ih =>
      rw [List.filterMap_cons]
      cases found : globalSymbol d g with
      | none => exact .cons _ ih
      | some s =>
          rw [List.map_cons, List.map_cons, (globalSymbol_eq_some found).1]
          exact .cons_cons _ ih

section

variable {declaring : List Nat} {current : Option (String × CType)} {statics : Nat}
  (recorded : u.Recorded declaring current statics)
include recorded

/-- Functions and variables that others see have names of their own. -/
theorem nodup_globalNames : (objectOf u d code).globalNames.Nodup := by
  have functions := names_functionSymbols u code
  have variables' := names_globalSymbols d u.globals
  unfold Object.globalNames objectOf buildObject
  rw [List.filter_append, List.map_append, List.nodup_append]
  refine ⟨?_, ?_, fun name isFunction other isVariable => ?_⟩
  · exact (List.filter_sublist.map _).nodup (functions ▸ recorded.functionNames)
  · exact ((List.filter_sublist.map _).trans variables').nodup recorded.globalNames
  · rintro rfl
    have function := List.filter_sublist.map ObjectSymbol.name |>.subset isFunction
    obtain ⟨f, inUnit, named⟩ := List.mem_map.mp (functions ▸ function)
    obtain ⟨s, visible, same⟩ := List.mem_map.mp isVariable
    obtain ⟨inSymbols, isGlobal⟩ := List.mem_filter.mp visible
    obtain ⟨g, inGlobals, found⟩ := List.mem_filterMap.mp inSymbols
    obtain ⟨variable', -, notStatic⟩ := globalSymbol_eq_some found
    obtain ⟨-, defined⟩ := recorded.functions f inUnit
    obtain ⟨-, defined'⟩ | ⟨isStatic, -⟩ := recorded.globals g inGlobals
    · rw [named, ← same, variable', defined'] at defined
      cases defined
    · rw [notStatic, isStatic] at isGlobal
      cases isGlobal

/-- The object of a unit whose definitions are recorded is well formed. -/
theorem validate_objectOf (holds : d.Holds u.globals)
    (refers : code.Links ((unitLayout u d).Refers kinds))
    (sized : ∀ s ∈ (objectOf u d code).sections, s.size ≤ Object.maxExtent) :
    (objectOf u d code).validate = .ok () := by
  have labels (l : Label) : (code.layout.labelOffset? l).getD 0 ≤ code.layout.code.length := by
    cases found : code.layout.labelOffset? l with
    | none => exact Nat.zero_le _
    | some offset => exact code.layout_spec.1 l offset found
  refine Object.validate_of_distinct nodup_sectionKinds (fun s member => ?_) (fun s member => ?_)
    (nodup_globalNames recorded)
  · have small := sized s member
    rcases List.mem_cons.mp member with rfl | data
    · exact ⟨(by decide : Object.isPowerOfTwo textAlign = true), small, valid_text refers⟩
    · obtain ⟨kind, -, rfl⟩ := List.mem_map.mp data
      rw [size_dataSection holds] at small
      refine ⟨?_, ?_, valid_data holds ?_⟩
      · cases kind <;> exact (holds.aligned _).isPowerOfTwo
      · rwa [size_dataSection holds]
      · exact Nat.lt_of_le_of_lt small (by decide)
  · rcases List.mem_append.mp member with isFunction | isGlobal
    · obtain ⟨⟨f, start⟩, inStarts, rfl⟩ := List.mem_map.mp isFunction
      have all : ∀ p ∈ u.functions.zipIdx.map fun p =>
          (p.1, (code.layout.labelOffset? p.2).getD 0), p.2 ≤ code.layout.code.length := by
        intro p inStarts
        obtain ⟨⟨f, i⟩, -, rfl⟩ := List.mem_map.mp inStarts
        exact labels i
      refine ⟨_, rfl, functionSymbol_inside _ f (all _ inStarts) fun n inside => ?_, fun _ => rfl⟩
      obtain ⟨p, inStarts, rfl⟩ := List.mem_map.mp inside
      exact all p inStarts
    · obtain ⟨g, isVariable, found⟩ := List.mem_filterMap.mp isGlobal
      obtain ⟨place, inSections, inside⟩ :=
        globalSymbol_inside code holds recorded.globalNames isVariable found
      refine ⟨place, inSections, inside, fun isFunction => ?_⟩
      rw [(globalSymbol_eq_some found).2.1] at isFunction
      cases isFunction

end

/-! ### Units -/

theorem lower_eq_ok {u : TranslationUnit} {object : Object} (h : u.lower = .ok object) :
    ∃ code labels, functions (unitLayout u (.ofUnit u)) 0 u.functions u.functions.length =
        .ok (code, labels) ∧ objectOf u (.ofUnit u) code = object := by
  unfold TranslationUnit.lower at h
  dsimp only at h
  cases run : functions (unitLayout u (.ofUnit u)) 0 u.functions u.functions.length with
  | error e =>
      rw [run] at h
      cases h
  | ok r =>
      obtain ⟨code, labels⟩ := r
      rw [run, mapError_ok, except_bind_of_ok rfl] at h
      dsimp only at h
      refine ⟨code, labels, rfl, ?_⟩
      unfold Code.assemble at h
      split at h
      · cases h
      · cases h
        rfl

/-- What a source is compiled to: the object of the code and the data of its unit. -/
theorem lowered_of_compileSource {source : String} {options : CompileOptions} {object : Object}
    {warnings : List Diagnostic} (h : compileSource source options = .ok (object, warnings)) :
    ∃ u code labels, parseSource source options.defines = .ok (u, warnings) ∧
      functions (unitLayout u (.ofUnit u)) 0 u.functions u.functions.length = .ok (code, labels) ∧
      objectOf u (.ofUnit u) code = object := by
  unfold compileSource at h
  obtain ⟨_, -, h⟩ := ok_of_bind h
  obtain ⟨⟨u, ws⟩, parsed, h⟩ := ok_of_bind h
  obtain ⟨o, lowered, h⟩ := ok_of_bind h
  cases h
  cases run : u.lower with
  | error e =>
      rw [run] at lowered
      cases lowered
  | ok o =>
      rw [run] at lowered
      cases lowered
      obtain ⟨code, labels, functions, rfl⟩ := lower_eq_ok run
      exact ⟨u, code, labels, parsed, functions, rfl⟩

/-- A source that is parsed is compiled if its unit is lowered. -/
theorem compileSource_of_lower {source : String} {options : CompileOptions} {u : TranslationUnit}
    {object : Object} {warnings : List Diagnostic} (target : options.checkTarget = .ok ())
    (parsed : parseSource source options.defines = .ok (u, warnings))
    (lowered : u.lower = .ok object) : compileSource source options = .ok (object, warnings) := by
  rw [compileSource, target, mapError_ok, except_bind_of_ok rfl, except_bind_of_ok parsed]
  dsimp only
  rw [lowered, mapError_ok, except_bind_of_ok rfl]
  rfl

/-- The definitions of the unit of a source are recorded, and its code refers to what it has. -/
theorem compiled_eq_ok {source : String} {options : CompileOptions} {object : Object}
    {warnings : List Diagnostic} (h : compileSource source options = .ok (object, warnings)) :
    ∃ (u : TranslationUnit) (code : UnitCode),
      parseSource source options.defines = .ok (u, warnings) ∧ objectOf u (.ofUnit u) code = object ∧
      (∃ current statics, u.Recorded [] current statics) ∧
      code.Links ((unitLayout u (.ofUnit u)).Refers u.symbols.Declares) := by
  obtain ⟨u, code, labels, parsed, functions, same⟩ := lowered_of_compileSource h
  obtain ⟨tokens, p, scanned, accepted, rfl⟩ := scanned_of_parseSource parsed
  obtain ⟨current, statics, recorded⟩ :=
    recorded_of_parseTokens accepted fun t member => (scanned t member).isPlain
  exact ⟨p.unit, code, parsed, same, ⟨current, statics, recorded⟩,
    refers_of_functions recorded.uses functions⟩

end Lowering

open Lowering

/-- Whatever is compiled is well formed, as long as the code, and what there is of each kind of
data, takes no more bytes than validation lets a section take. -/
theorem validate_of_compileSource {source : String} {options : CompileOptions} {object : Object}
    {warnings : List Diagnostic} (compiled : compileSource source options = .ok (object, warnings))
    (sized : ∀ s ∈ object.sections, s.size < 2 ^ 62) : object.validate = .ok () := by
  obtain ⟨u, code, -, rfl, ⟨current, statics, recorded⟩, refers⟩ := compiled_eq_ok compiled
  exact validate_objectOf recorded (DataLayout.holds_ofUnit recorded.contained) refers fun s member =>
    Nat.le_pred_of_lt (sized s member)

/-- A variable that is declared, tentatively defined and then defined, in the only data there is. -/
theorem validate_of_redefined :
    let source := "extern int e; int e; int e = 2; int *p = &e; int f(int); int g(int a) { return f(a) + e; }"
    ∃ object warnings, compileSource source {} = .ok (object, warnings) ∧
      object.sections.length = 2 ∧ (∀ s ∈ object.sections, s.size < 2 ^ 62) ∧
      object.validate = .ok () := by
  intro source
  have facts : (compileSource source {}).toOption.any (fun r => r.1.sections.length = 2 ∧
      ∀ s ∈ r.1.sections, s.size < 2 ^ 62) = true := by
    rw [compileSource, parseSource_of_bytes (Text.toByteChars_of_all ?_)]
    all_goals decide +kernel
  obtain ⟨r, compiled, facts⟩ := exists_of_toOption_any facts
  obtain ⟨two, sized⟩ := of_decide_eq_true facts
  exact ⟨r.1, r.2, compiled, two, sized, validate_of_compileSource compiled sized⟩

end LiveC
