import LiveC.Proofs.CompiledLinking
import LiveC.Proofs.RecordedDefinitions
import LiveC.Proofs.RelocationFields

/-!
What a compiled unit imports: the names that it refers to and that it defines nowhere. All else that
its code and its initialisers refer to is of its own, and each reference says where that lies.
-/

namespace LiveC

/-- The name that a mention is of. A string literal has none. -/
def Mention.name? : Mention → Option String
  | .call name | .address name _ => some name
  | .string _ => none

namespace TranslationUnit

/-- The names of functions and variables, static ones and those inside of functions included. -/
def definedNames (u : TranslationUnit) : List String :=
  u.functions.map (·.name) ++ u.globals.map (·.name)

/-- A function mentions a name, or an initialiser takes its address. -/
def RefersTo (u : TranslationUnit) (name : String) : Prop :=
  (∃ f ∈ u.functions, ∃ m ∈ f.mentions, m.name? = some name) ∨
    ∃ g ∈ u.globals, ∃ items ∈ g.init, ∃ i ∈ items, ∃ addend,
      i.value = .address (.symbol name) addend

end TranslationUnit

/-- A call of a function of the object. Its distance leads to the start of the function, unless
there is more code than a call can cross. -/
def Section.CallsAt (text : Section) (start : Nat) (s : ObjectSymbol) : Prop :=
  let d := BitVec.ofInt 32 (s.offset - (start + 5))
  0xE8 :: Encoding.imm32 d <+: text.data.drop start ∧
    (text.data.length < 2 ^ 31 → start + 5 + d.toInt = s.offset)

namespace Object

/-- Where an object has a function, a variable or a string literal of its unit. -/
inductive Has (o : Object) (u : TranslationUnit) : AddressTarget → SectionRange → Prop
  | symbol {s : ObjectSymbol} : s ∈ o.symbols → Has o u (.symbol s.name) s.range
  | string {id : Nat} {r : SectionRange} : u.literalRanges[id]? = some r → Has o u (.str id) r

/-- A relocation stands for an address: one that is so far behind the start of what the object has,
or behind what is imported because the unit does not define it. -/
inductive Designates (o : Object) (u : TranslationUnit) (addend : Int) (r : Relocation) :
    AddressTarget → Prop
  | own {target : AddressTarget} {range : SectionRange} : o.Has u target range →
      r.target = .sectionStart range.sectionId →
      r.addend = Lowering.asAddend (range.offset + addend) → Designates o u addend r target
  | imported {name : String} : name ∉ u.definedNames → r.target = .symbol name →
      r.addend = Lowering.asAddend addend → Designates o u addend r (.symbol name)

/-- An instruction of the code refers to what a function mentions. -/
inductive RefersAt (o : Object) (u : TranslationUnit) (text : Section) : Mention → Nat → Prop
  | address {name : String} {isFunction : Bool} {r : Relocation} {start : Nat} :
      r ∈ text.relocations → r.kind = .abs64 → text.Opens r start →
      o.Designates u 0 r (.symbol name) → RefersAt o u text (.address name isFunction) start
  | string {id : Nat} {r : Relocation} {start : Nat} :
      r ∈ text.relocations → r.kind = .abs64 → text.Opens r start →
      o.Designates u 0 r (.str id) → RefersAt o u text (.string id) start
  | call {s : ObjectSymbol} {start : Nat} : s ∈ o.symbols → s.kind = .function → s.sectionId = 0 →
      text.CallsAt start s → RefersAt o u text (.call s.name) start
  | callImported {name : String} {r : Relocation} {start : Nat} :
      r ∈ text.relocations → r.kind = .branch32 → text.Opens r start →
      name ∉ u.definedNames → r.target = .symbol name → RefersAt o u text (.call name) start

/-- The ranges of what a unit defines, and of its string literals. -/
def ranges (o : Object) (u : TranslationUnit) : List SectionRange :=
  o.symbols.map (·.range) ++ u.literalRanges

/-- An object imports what its unit refers to and does not define. Other references designate what
the object has of its own, each in a range for itself. -/
structure ResolvesReferences (o : Object) (u : TranslationUnit) : Prop where
  undefined {name : String} : name ∈ o.undefinedNames ↔ u.RefersTo name ∧ name ∉ u.definedNames
  names : o.symbols.map (·.name) = u.definedNames
  distinct : u.definedNames.Nodup
  apart : (o.ranges u).Pairwise SectionRange.Apart
  inside : ∀ r ∈ o.ranges u, ∃ p, o.sections[r.sectionId]? = some p ∧ r.offset + r.size ≤ p.size
  literals : List.Forall₂ (fun bytes r => r.size = bytes.length ∧ o.Shows r.sectionId r.offset bytes)
    u.strings u.literalRanges
  /-- A function has an instruction for each of its mentions, in their order. -/
  code : ∀ text ∈ o.sections[0]?, ∀ f ∈ u.functions, ∃ s ∈ o.symbols, s.name = f.name ∧
    s.kind = .function ∧ ∃ starts : List Nat, starts.Pairwise (· < ·) ∧
      (∀ k ∈ starts, s.offset ≤ k ∧ k < s.offset + s.size) ∧
      List.Forall₂ (o.RefersAt u text) f.mentions starts
  data : ∀ g ∈ u.globals, ∃ s ∈ o.symbols, s.name = g.name ∧ s.kind = .data ∧ s.size = g.ty.size ∧
    ∀ items ∈ g.init, ∀ i ∈ items, ∀ target addend, i.value = .address target addend →
      ∃ p ∈ o.sections[s.sectionId]?, ∃ r ∈ p.relocations, r.kind = .abs64 ∧
        r.offset = s.offset + i.offset ∧ o.Designates u addend r target

end Object

namespace Lowering.Arrangement

open UnitLayout

variable {u : TranslationUnit} {code : UnitCode} {ps : List PlacedFunction}
  {vs : List PlacedVariable} {ss : List PlacedString} (h : Arrangement u code ps vs ss)
  {name : String} {r : Relocation} {addend : Int}
include h

theorem symbolNames : (objectOf u (.ofUnit u) code).symbols.map (·.name) = u.definedNames := by
  rw [h.symbols, TranslationUnit.definedNames, ← h.functions, ← h.globals, List.map_append,
    List.map_map, List.map_map, List.map_map, List.map_map]
  rfl

theorem distinct : u.definedNames.Nodup := by
  obtain ⟨_, _, recorded⟩ := h.recorded
  exact recorded.distinct

theorem global?_eq_none (undefined : name ∉ u.definedNames) :
    (objectOf u (.ofUnit u) code).global? name = none := by
  refine List.find?_eq_none.mpr fun s member same => undefined ?_
  rw [Bool.and_eq_true, beq_iff_eq] at same
  rw [← h.symbolNames, ← same.2]
  exact List.mem_map_of_mem member

/-! ### Names in the layout -/

theorem exists_of_entry {l : Label}
    (own : (unitLayout u (.ofUnit u)).entries.lookup name = some l) :
    ∃ p ∈ ps, p.source.name = name ∧ p.start = code.offsetOf l := by
  obtain ⟨⟨f, l⟩, listed, same⟩ := List.mem_map.mp (mem_of_lookup own)
  cases same
  have starts := h.run.starts
  rw [h.functions] at starts
  have placed : (f, code.offsetOf l) ∈ ps.map fun p => (p.source, p.start) :=
    starts ▸ List.mem_map_of_mem listed
  obtain ⟨p, isFunction, same⟩ := List.mem_map.mp placed
  obtain ⟨rfl, start⟩ := Prod.mk.inj same
  exact ⟨p, isFunction, rfl, start⟩

theorem exists_of_place {id offset : Nat}
    (own : (unitLayout u (.ofUnit u)).data.lookup name = some (id, offset)) :
    ∃ v ∈ vs, v.source.name = name ∧ id = (DataLayout.ofUnit u).sectionId v.source.dataKind ∧
      offset = v.offset := by
  obtain ⟨place, listed, same⟩ := List.mem_map.mp (mem_of_lookup own)
  rw [h.data.places] at listed
  obtain ⟨v, isVariable, rfl⟩ := List.mem_map.mp listed
  cases same
  exact ⟨v, isVariable, rfl, rfl, rfl⟩

theorem not_mem_of_noPlace (noPlace : (unitLayout u (.ofUnit u)).data.lookup name = none) :
    name ∉ u.globals.map (·.name) := by
  have names : (unitLayout u (.ofUnit u)).data.map Prod.fst = u.globals.map (·.name) := by
    change ((DataLayout.ofUnit u).places.map _).map _ = _
    rw [h.data.places, ← h.globals, List.map_map, List.map_map, List.map_map]
    rfl
  exact names ▸ not_mem_of_lookup noPlace

theorem not_mem_of_imported {other : String}
    (isImported : (unitLayout u (.ofUnit u)).target name = .imported other) :
    name ∉ u.definedNames := by
  obtain ⟨noEntry, noPlace, -⟩ := target_of_imported isImported
  exact List.not_mem_append (not_mem_of_noEntry noEntry) (h.not_mem_of_noPlace noPlace)

/-- A name that is called is not that of a variable. -/
theorem not_mem_of_call {f : Function} (member : f ∈ u.functions) (called : .call name ∈ f.mentions)
    (noEntry : (unitLayout u (.ofUnit u)).entries.lookup name = none) : name ∉ u.definedNames := by
  obtain ⟨_, _, recorded⟩ := h.recorded
  have declared : u.symbols.Declares name true :=
    Function.uses_of_mem_mentions (recorded.uses f member) _ called
  have plain : IsPlain name := Function.uses_of_mem_mentions (h.named f member) _ called rfl
  refine List.not_mem_append (not_mem_of_noEntry noEntry) fun isVariable => ?_
  obtain ⟨g, defined, rfl⟩ := List.mem_map.mp isVariable
  obtain ⟨-, asVariable⟩ | ⟨-, n, numbered, -⟩ := recorded.globals g defined
  · cases (declared plain).unique (SymbolTable.hasKind_of_definition? asVariable)
  · exact numbered.not_isPlain plain

/-! ### What relocations designate -/

theorem mem_symbols_of_function {p : PlacedFunction} (isFunction : p ∈ ps) :
    p.symbol ∈ (objectOf u (.ofUnit u) code).symbols := by
  rw [h.symbols]
  exact List.mem_append_left _ (List.mem_map_of_mem isFunction)

theorem mem_symbols_of_variable {v : PlacedVariable} (isVariable : v ∈ vs) :
    v.symbol (.ofUnit u) ∈ (objectOf u (.ofUnit u) code).symbols := by
  rw [h.symbols]
  exact List.mem_append_right _ (List.mem_map_of_mem isVariable)

theorem designates_symbol
    (target : r.target = (relocTarget code.layout ((unitLayout u (.ofUnit u)).target name)).1)
    (sum : r.addend =
      asAddend ((relocTarget code.layout ((unitLayout u (.ofUnit u)).target name)).2 + addend)) :
    (objectOf u (.ofUnit u) code).Designates u addend r (.symbol name) := by
  cases place : (unitLayout u (.ofUnit u)).target name with
  | entry l =>
      rw [place] at target sum
      obtain ⟨p, isFunction, rfl, start⟩ := h.exists_of_entry (entry_of_target place)
      have sum : r.addend = asAddend (p.symbol.range.offset + addend) := by
        change r.addend = asAddend (p.start + addend)
        rw [start]
        exact sum
      exact .own (.symbol (h.mem_symbols_of_function isFunction)) target sum
  | place id offset =>
      rw [place] at target sum
      obtain ⟨v, isVariable, rfl, rfl, rfl⟩ := h.exists_of_place (place_of_target place)
      exact .own (.symbol (h.mem_symbols_of_variable isVariable)) target sum
  | imported other =>
      have undefined := h.not_mem_of_imported place
      obtain ⟨-, -, rfl⟩ := target_of_imported place
      rw [place] at target sum
      rw [relocTarget, Int.zero_add] at sum
      exact .imported undefined target sum

theorem designates_string {id : Nat} {place : Nat × Nat}
    (found : (unitLayout u (.ofUnit u)).strings[id]? = some place)
    (target : r.target = .sectionStart place.1) (sum : r.addend = asAddend (place.2 + addend)) :
    (objectOf u (.ofUnit u) code).Designates u addend r (.str id) := by
  rw [h.literalPlaces, List.getElem?_map] at found
  obtain ⟨s, listed, rfl⟩ := Option.map_eq_some_iff.mp found
  have range : u.literalRanges[id]? = some ((DataLayout.ofUnit u).range s.part) := by
    rw [h.literalRanges, List.getElem?_map, listed]
    rfl
  exact .own (.string range) target sum

/-! ### References of code -/

theorem callsAt {p : PlacedFunction} (isFunction : p ∈ ps) {l : Label}
    (start : p.start = code.offsetOf l) {k : Nat} (stop : k + 5 ≤ code.layout.code.length)
    {text : Section} (isText : text.data = code.layout.code)
    (shown : (CodeRef.call (ρ := Reference) l).bytes code.offsetOf k <+: code.layout.code.drop k) :
    text.CallsAt k p.symbol := by
  have inside : p.stop ≤ code.layout.code.length := (h.run.inside p isFunction).2.2
  have le : p.start ≤ p.stop := Nat.le_add_right ..
  have offset : (p.symbol.offset : Int) = code.offsetOf l := congrArg _ start
  rw [Section.CallsAt, offset, isText]
  refine ⟨shown, fun small => ?_⟩
  rw [BitVec.toInt_ofInt, Int.bmod_eq_of_le (by omega) (by omega)]
  omega

/-- An instruction of a function refers to what the function mentions. -/
theorem refersAt {p : PlacedFunction} (isFunction : p ∈ ps) {places : List (Nat × CodeRef Reference)}
    (isPlaces : Code.Places code.offsetOf p.start p.code.separate p.bytes p.sites places) {k : Nat}
    {ref : CodeRef Reference} (listed : (k, ref) ∈ places) {m : Mention}
    (mentioned : m ∈ p.source.mentions) (resolved : (unitLayout u (.ofUnit u)).Resolves m ref)
    {text : Section} (isText : (objectOf u (.ofUnit u) code).sections[0]? = some text) :
    (objectOf u (.ofUnit u) code).RefersAt u text m k := by
  cases isText
  obtain ⟨-, stop, shown⟩ := h.shown_of_place isFunction isPlaces listed
  have site {f : Field} {r : Reference} (same : ref = .linked f r) :
      codeRelocation code.layout (k + f.offset, r) ∈
        code.layout.sites.map (codeRelocation code.layout) := by
    refine List.mem_map_of_mem ?_
    rw [h.sites]
    refine List.mem_flatMap.mpr ⟨p, isFunction, ?_⟩
    rw [isPlaces.sites_eq]
    exact List.mem_filterMap.mpr ⟨_, listed, by rw [same]; rfl⟩
  have opens {f : Field} {r : Reference} (same : ref = .linked f r) :
      Section.Opens (.ofBytes .text code.layout.code textAlign
        (code.layout.sites.map (codeRelocation code.layout)))
        (codeRelocation code.layout (k + f.offset, r)) k := by
    subst same
    exact opens_of_resolves resolved shown
  have isSource : p.source ∈ u.functions := h.functions ▸ List.mem_map_of_mem isFunction
  cases resolved with
  | call own =>
      obtain ⟨q, isCallee, rfl, start⟩ := h.exists_of_entry own
      have inside := (h.run.inside p isFunction).2.2
      exact .call (s := q.symbol) (h.mem_symbols_of_function isCallee) rfl rfl
        (h.callsAt isCallee start (Nat.le_trans stop inside) rfl shown)
  | callImported noEntry =>
      exact .callImported (site rfl) rfl (opens rfl)
        (h.not_mem_of_call isSource mentioned noEntry) rfl
  | entry own | place own | imported own =>
      refine .address (site rfl) rfl (opens rfl) ?_
      exact h.designates_symbol (by rw [own]; rfl) (by rw [own]; rfl)
  | string found =>
      exact .string (site rfl) rfl (opens rfl) (h.designates_string found rfl rfl)

/-- The code of a function refers to what the function mentions. -/
theorem references_function {text : Section}
    (isText : (objectOf u (.ofUnit u) code).sections[0]? = some text) {f : Function}
    (member : f ∈ u.functions) : ∃ s ∈ (objectOf u (.ofUnit u) code).symbols, s.name = f.name ∧
      s.kind = .function ∧ ∃ starts : List Nat, starts.Pairwise (· < ·) ∧
        (∀ k ∈ starts, s.offset ≤ k ∧ k < s.offset + s.size) ∧
        List.Forall₂ ((objectOf u (.ofUnit u) code).RefersAt u text) f.mentions starts := by
  rw [← h.functions] at member
  obtain ⟨p, isFunction, rfl⟩ := List.mem_map.mp member
  obtain ⟨⟨_, lies⟩, -⟩ := h.run.inside p isFunction
  obtain ⟨places, isPlaces, resolves⟩ := lies.exists_places
  refine ⟨p.symbol, h.mem_symbols_of_function isFunction, rfl, rfl, places.map (·.1), ?_, ?_, ?_⟩
  · refine List.pairwise_map.mpr (isPlaces.apart.imp fun {q q'} apart => ?_)
    have positive := q.2.length_bytes_pos code.offsetOf q.1
    omega
  · intro k listed
    obtain ⟨⟨k, ref⟩, isPlace, rfl⟩ := List.mem_map.mp listed
    obtain ⟨start, stop, -⟩ := h.shown_of_place isFunction isPlaces isPlace
    have positive := ref.length_bytes_pos code.offsetOf k
    exact ⟨start, Nat.lt_of_lt_of_le (Nat.lt_add_of_pos_right positive) stop⟩
  · rw [List.forall₂_map_right_iff] at resolves ⊢
    refine (forall₂_mem resolves).imp ?_
    rintro m ⟨k, ref⟩ ⟨mentioned, listed, resolved⟩
    exact h.refersAt isFunction isPlaces listed mentioned resolved isText

/-! ### References of data -/

/-- A variable has a relocation for each address of its initialiser. -/
theorem references_variable {g : GlobalVar} (member : g ∈ u.globals) :
    ∃ s ∈ (objectOf u (.ofUnit u) code).symbols, s.name = g.name ∧ s.kind = .data ∧
      s.size = g.ty.size ∧
      ∀ items ∈ g.init, ∀ i ∈ items, ∀ target addend, i.value = .address target addend →
        ∃ p ∈ (objectOf u (.ofUnit u) code).sections[s.sectionId]?, ∃ r ∈ p.relocations,
          r.kind = .abs64 ∧ r.offset = s.offset + i.offset ∧
            (objectOf u (.ofUnit u) code).Designates u addend r target := by
  have made := h.made g member
  have literals := h.literals g member
  rw [← h.globals] at member
  obtain ⟨v, isVariable, rfl⟩ := List.mem_map.mp member
  refine ⟨v.symbol (.ofUnit u), h.mem_symbols_of_variable isVariable, rfl, rfl, rfl, ?_⟩
  intro items init i isItem target addend value
  have found : (objectOf u (.ofUnit u) code).sections[
      (DataLayout.ofUnit u).sectionId v.source.dataKind]? = some
        (dataSection u (unitLayout u (.ofUnit u)) code.layout (.ofUnit u) v.source.dataKind) := by
    obtain ⟨pointee, distance, -, element⟩ := (made.filled items init).elementAt isItem value
    have positive : 0 < v.source.ty.size := element.size_pos (by decide : 0 < 8)
    rcases (DataLayout.ofUnit u).sectionId_cases v.source.dataKind with ⟨i, found, same⟩ | ⟨empty, -⟩
    · rw [same]
      exact section_of_kind code found
    · have inside := h.data.consists.inside v.part
        (List.mem_append_left _ (List.mem_map_of_mem isVariable))
      change v.offset + v.source.ty.size ≤ _ at inside
      change _ ≤ ((DataLayout.ofUnit u).buffer v.source.dataKind).size at inside
      omega
  let a : DataAddress := ⟨v.source.dataKind, v.offset + i.offset, target, addend⟩
  refine ⟨_, found, dataRelocation u (unitLayout u (.ofUnit u)) code.layout a, ?_, rfl, rfl, ?_⟩
  · rw [h.relocations_dataSection]
    refine List.mem_map_of_mem (List.mem_filter.mpr ⟨?_, decide_eq_true rfl⟩)
    rw [h.data.addresses]
    exact List.mem_flatMap.mpr
      ⟨v, isVariable, PlacedVariable.mem_addresses.2 ⟨items, init, i, isItem, value, rfl, rfl⟩⟩
  · cases target with
    | symbol name => exact h.designates_symbol rfl rfl
    | str id =>
        have known : id < (unitLayout u (.ofUnit u)).strings.length := by
          have inRange := literals items init i isItem id addend value
          rw [h.literalPlaces, List.length_map]
          rwa [← h.strings, List.length_map] at inRange
        have place := List.getElem?_eq_getElem known
        exact h.designates_string place (by simp only [dataRelocation, a, place]; rfl)
          (by simp only [dataRelocation, a, place]; rfl)

/-! ### Names that are not defined -/

theorem ranges : (objectOf u (.ofUnit u) code).ranges u = ps.map (·.symbol.range) ++
    (vs.map (·.part) ++ ss.map (·.part)).map (DataLayout.ofUnit u).range := by
  rw [Object.ranges, h.symbols, h.literalRanges, List.map_append, List.map_append, List.append_assoc,
    List.map_map, List.map_map, List.map_map, List.map_map]
  rfl

theorem apart_ranges : ((objectOf u (.ofUnit u) code).ranges u).Pairwise SectionRange.Apart := by
  rw [h.ranges]
  refine List.pairwise_append.mpr ⟨?_, h.data.consists.apart, fun a isFunction b isData => ?_⟩
  · exact List.pairwise_map.mpr (h.run.apart.imp fun before _ => .inl before)
  · obtain ⟨p, -, rfl⟩ := List.mem_map.mp isFunction
    obtain ⟨q, member, rfl⟩ := List.mem_map.mp isData
    intro same
    have inside := h.data.consists.inside q member
    rcases (DataLayout.ofUnit u).sectionId_cases q.kind with ⟨i, -, own⟩ | ⟨empty, -⟩
    · have zero : (DataLayout.ofUnit u).sectionId q.kind = 0 := same.symm
      omega
    · rw [empty] at inside
      exact .inr (Nat.le_trans inside (Nat.zero_le _))

theorem inside_ranges : ∀ r ∈ (objectOf u (.ofUnit u) code).ranges u,
    ∃ p, (objectOf u (.ofUnit u) code).sections[r.sectionId]? = some p ∧
      r.offset + r.size ≤ p.size := by
  rw [h.ranges]
  refine List.forall_mem_append.mpr ⟨fun r isFunction => ?_, fun r isData => ?_⟩
  · obtain ⟨p, member, rfl⟩ := List.mem_map.mp isFunction
    exact ⟨_, rfl, (h.run.inside p member).2.2⟩
  · obtain ⟨q, member, rfl⟩ := List.mem_map.mp isData
    obtain ⟨p, found, size, -⟩ := h.place q.kind
    exact ⟨p, found, Nat.le_trans (h.data.consists.inside q member) size⟩

/-- What the object leaves to linking is referred to and is not defined. -/
theorem refersTo_of_relocation (member : r ∈ (objectOf u (.ofUnit u) code).relocations)
    (target : r.target = .symbol name) : u.RefersTo name ∧ name ∉ u.definedNames := by
  obtain ⟨p, isSection, isField⟩ := List.mem_flatMap.mp member
  obtain ⟨id, found⟩ := List.mem_iff_getElem?.mp isSection
  rcases Nat.eq_zero_or_pos id with rfl | isData
  · obtain ⟨p, isFunction, ⟨m, mentioned, field, ref, assembled, resolved, same⟩, -⟩ :=
      h.exists_of_codeRelocation found isField
    have isSource : p.source ∈ u.functions := h.functions ▸ List.mem_map_of_mem isFunction
    rw [same] at target
    have imported := imported_of_relocTarget target
    cases resolved with
    | callImported noEntry =>
        cases imported
        have undefined := h.not_mem_of_call isSource mentioned noEntry
        exact ⟨.inl ⟨p.source, isSource, _, mentioned, rfl⟩, undefined⟩
    | imported own =>
        cases imported
        exact ⟨.inl ⟨p.source, isSource, _, mentioned, rfl⟩, h.not_mem_of_imported own⟩
    | entry | place | string => cases imported
  · obtain ⟨kind, -, rfl⟩ := exists_dataSection isData found
    obtain ⟨v, isVariable, -, items, init, i, isItem, place, addend, value, rfl⟩ :=
      h.exists_of_dataRelocation isField
    have imported := imported_of_relocTarget target
    cases place with
    | symbol other =>
        obtain ⟨-, -, rfl⟩ := target_of_imported imported
        exact ⟨.inr ⟨v.source, h.mem_globals isVariable, items, init, i, isItem, addend, value⟩,
          h.not_mem_of_imported imported⟩
    | str id => cases imported

end Lowering.Arrangement

namespace Object

variable {o : Object} {u : TranslationUnit} {name : String} {r : Relocation}

/-- What the unit does not define is not the object's own. -/
theorem Designates.imports {addend : Int} (h : o.Designates u addend r (.symbol name))
    (names : o.symbols.map (·.name) = u.definedNames) (undefined : name ∉ u.definedNames) :
    r.target = .symbol name := by
  cases h with
  | own has =>
      cases has with
      | symbol member => exact absurd (names ▸ List.mem_map_of_mem member) undefined
  | imported _ target => exact target

theorem RefersAt.imports {text : Section} {m : Mention} {start : Nat} (h : o.RefersAt u text m start)
    (names : o.symbols.map (·.name) = u.definedNames) (mention : m.name? = some name)
    (undefined : name ∉ u.definedNames) : ∃ r ∈ text.relocations, r.target = .symbol name := by
  cases h with
  | address site _ _ designates =>
      cases mention
      exact ⟨_, site, designates.imports names undefined⟩
  | string => cases mention
  | call member =>
      cases mention
      exact absurd (names ▸ List.mem_map_of_mem member) undefined
  | callImported site _ _ _ target =>
      cases mention
      exact ⟨_, site, target⟩

end Object

namespace Lowering.Arrangement

variable {u : TranslationUnit} {code : UnitCode} {ps : List PlacedFunction}
  {vs : List PlacedVariable} {ss : List PlacedString} (h : Arrangement u code ps vs ss)
include h

/-- What is referred to and is not defined is left to linking. -/
theorem exists_relocation {name : String} (refers : u.RefersTo name)
    (undefined : name ∉ u.definedNames) :
    ∃ r ∈ (objectOf u (.ofUnit u) code).relocations, r.target = .symbol name := by
  obtain ⟨f, member, m, mentioned, mention⟩ | ⟨g, member, items, init, i, isItem, addend, value⟩ :=
    refers
  · obtain ⟨s, -, -, -, starts, -, -, refers⟩ := h.references_function rfl member
    obtain ⟨start, -, refersAt⟩ := exists_of_forall₂ refers.flip mentioned
    obtain ⟨r, site, target⟩ := Object.RefersAt.imports refersAt h.symbolNames mention undefined
    exact ⟨r, List.mem_append_left _ site, target⟩
  · obtain ⟨s, -, -, -, -, stores⟩ := h.references_variable member
    obtain ⟨p, found, r, site, -, -, designates⟩ := stores items init i isItem _ addend value
    refine ⟨r, List.mem_flatMap.mpr ⟨p, List.mem_of_getElem? found, site⟩, ?_⟩
    exact designates.imports h.symbolNames undefined

theorem resolvesReferences : (objectOf u (.ofUnit u) code).ResolvesReferences u where
  undefined {name} := by
    rw [Object.mem_undefinedNames]
    constructor
    · rintro ⟨⟨r, member, target⟩, -⟩
      exact h.refersTo_of_relocation member target
    · rintro ⟨refers, undefined⟩
      exact ⟨h.exists_relocation refers undefined, h.global?_eq_none undefined⟩
  names := h.symbolNames
  distinct := h.distinct
  apart := h.apart_ranges
  inside := h.inside_ranges
  literals := h.shown_literals
  code _ isText _ member := h.references_function isText member
  data _ member := h.references_variable member

end Lowering.Arrangement

open Lowering

/-- The object of a source imports what its functions and initialisers refer to and what the source
defines nowhere, whatever the order and the linkage of its definitions. All other references
designate the bytes of what they name. -/
theorem resolvesReferences_of_compileSource {source : String} {options : CompileOptions}
    {object : Object} {warnings : List Diagnostic} (compiled : compileSource source options = .ok (object, warnings)) :
    ∃ u, parseSource source options.defines = .ok (u, warnings) ∧ object.ResolvesReferences u := by
  obtain ⟨u, code, ps, vs, ss, parsed, rfl, arrangement⟩ := arrangement_of_compileSource compiled
  exact ⟨u, parsed, arrangement.resolvesReferences⟩

/-- Functions and variables that are used in front of their definitions, a static local variable,
and two names of others. -/
theorem resolvesReferences_of_laterDefinitions :
    let source := "int g(int); extern int e, v; int *p[2] = { 0, &e }; char *s = \"hi\"; " ++
      "static int h(int); int f(int n) { static int k; k = h(v); return g(k); } " ++
      "static int h(int n) { return n; } int v = 3;"
    ∃ object warnings u, compileSource source {} = .ok (object, warnings) ∧
      object.undefinedNames = ["g", "e"] ∧
      object.symbols.map (·.name) = ["f", "h", "p", "s", "f.k.1", "v"] ∧
      parseSource source [] = .ok (u, warnings) ∧ object.ResolvesReferences u := by
  intro source
  have facts : (compileSource source {}).toOption.any (fun r =>
      r.1.undefinedNames = ["g", "e"] ∧
      r.1.symbols.map (·.name) = ["f", "h", "p", "s", "f.k.1", "v"]) = true := by
    rw [compileSource, parseSource_of_bytes (Text.toByteChars_append_of
      (Text.toByteChars_append_of (Text.toByteChars_of_all ?_) (Text.toByteChars_of_all ?_))
      (Text.toByteChars_of_all ?_))]
    all_goals decide +kernel
  obtain ⟨r, compiled, facts⟩ := exists_of_toOption_any facts
  obtain ⟨undefined, names⟩ := of_decide_eq_true facts
  obtain ⟨u, parsed, resolves⟩ := resolvesReferences_of_compileSource compiled
  exact ⟨r.1, r.2, u, compiled, undefined, names, parsed, resolves⟩

end LiveC
