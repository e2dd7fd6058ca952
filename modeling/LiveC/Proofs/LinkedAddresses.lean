import LiveC.Proofs.ConstantAddresses
import LiveC.Proofs.FoldedCode
import LiveC.Proofs.ImportedNames
import LiveC.Proofs.LinkedImage

/-!
Addresses in a linked image. The code and the data of a unit refer to what the unit has and to what
it imports; linking puts the same address into the operand of an instruction and into an element of
a variable. So a variable that is initialised with a constant address holds from the start what
assigning that address to it would store.
-/

namespace LiveC

open Lowering

/-! ### Sizes that validation allows -/

namespace Object.Valid

variable {o : Object} (valid : o.Valid)
include valid

theorem size_le : ∀ s ∈ o.sections, s.size ≤ maxExtent := by
  intro s member
  have placed : s ∈ o.sections.filter (·.kind = s.kind) :=
    List.mem_filter.mpr ⟨member, decide_eq_true rfl⟩
  have positive : ∀ t ∈ o.sections.filter (·.kind = s.kind), 0 < t.align :=
    fun t member => valid.positive t (List.mem_filter.mp member).1
  have extent := valid.extents s.kind
  obtain ⟨before, after, split⟩ := List.append_of_mem placed
  rw [split] at positive extent
  rw [List.foldl_append, List.foldl_cons] at extent
  have rest := le_foldl_sectionEnd
    (fun t member => positive t (List.mem_append_right _ (.tail _ member)))
    (sectionEnd (before.foldl sectionEnd 0) s)
  exact (Nat.le_add_left ..).trans (rest.trans extent)

theorem data_lt : ∀ s ∈ o.sections, s.data.length < 2 ^ 63 := by
  intro s member
  by_cases zero : s.kind = .zero
  · rw [((valid.sections s member).zero zero).1]
    decide
  · rw [← (valid.sections s member).size zero]
    exact Nat.lt_of_le_of_lt (valid.size_le s member) (by decide)

end Object.Valid

namespace Link

variable {o : Object} {u : TranslationUnit} {registry : Registry} {l : ImageLayout}
  {regions : List Region} {r : Relocation} {S P : Word} {found : Option SymbolKind}

/-! ### Fields of eight bytes -/

/-- The fields of a placed object denote what their relocations lead to. -/
def FieldsDenote (o : Object) (registry : Registry) (l : ImageLayout) (regions : List Region) :
    Prop :=
  ∀ p ∈ l.placements, ∀ r ∈ p.source.relocations, ∃ S P found,
    Refers o registry l regions r S found ∧
      r.Denotes S P (bytesAt regions p.block (p.offset + r.offset) r.kind.width)

/-- What linking does to fields that do not overlap. -/
theorem denotes_of_linkWith {σ : Type} {allocate : σ → Nat → Option (Word × σ)} {space space' : σ}
    {image : Image} (apart : o.Valid → ∀ s ∈ o.sections, s.relocations.Pairwise Relocation.Apart)
    (linked : o.linkWith allocate registry space = .ok (image, space')) :
    ∃ l, o.Valid ∧ o.layout = .ok l ∧ o.Sound l ∧ FieldsDenote o registry l image.regions := by
  obtain ⟨l, resolved, regions, plan, -, done, -⟩ := linkWith_eq_ok linked
  have sound := Object.sound_of_layout plan.valid plan.layout
  obtain ⟨stubs, fields, filled⟩ := filled_of_fill plan sound done
  have addresses := addressIn_congr (bare_patches filled.written)
  refine ⟨l, plan.valid, plan.layout, sound, fun p placed r site => ?_⟩
  obtain ⟨S, found, refers, denotes⟩ := filled.denotes plan sound (apart plan.valid) placed site
  exact ⟨S, _, found, refers.congr addresses, denotes⟩

theorem length_bytesAt (regions : List Region) (block offset n : Nat) :
    (bytesAt regions block offset n).length = n := by
  rw [bytesAt, List.length_map, List.length_range]

/-- A field of eight bytes holds a word: sums are those of words, whatever their signs. -/
theorem eq_toBytes_of_denotes {n : Int} {bytes : List UInt8} (kind : r.kind = .abs64)
    (addend : r.addend = asAddend n) (length : bytes.length = 8) (denotes : r.Denotes S P bytes) :
    bytes = Word.toBytes (S + BitVec.ofInt 64 n) 8 := by
  unfold Relocation.Denotes at denotes
  rw [kind, addend] at denotes
  have same : Binary.ofLittle bytes = (S + BitVec.ofInt 64 n).toNat := by
    have value : (Binary.ofLittle bytes : Int) = ((S.toNat : Int) + asAddend n) % 2 ^ 64 := denotes
    rw [asAddend, BitVec.toInt_ofInt, Int.bmod_def] at value
    rw [BitVec.toNat_add, BitVec.toNat_ofInt]
    omega
  rw [Word.toBytes, ← same, ← length]
  exact (Binary.little_ofLittle bytes).symm

/-! ### Where linking puts what is referred to -/

/-- The start of a section in memory. -/
def sectionStart (l : ImageLayout) (regions : List Region) (id : Nat) : Word :=
  ((l.placements[id]?).map fun p => addressIn regions p.block p.offset).getD 0

/-- The addresses that an image gives the references of code. -/
def resolve (registry : Registry) (l : ImageLayout) (regions : List Region)
    (code : Assembled Reference) : CodeTarget → Word
  | .entry label => sectionStart l regions 0 + BitVec.ofNat 64 ((code.labelOffset? label).getD 0)
  | .place id offset => sectionStart l regions id + BitVec.ofNat 64 offset
  | .imported name => ((registry.find? name).map HostSymbol.address).getD 0

/-- What a unit has lies in its sections, and what it imports where the host has it. -/
inductive Lies (o : Object) (u : TranslationUnit) (registry : Registry) (l : ImageLayout)
    (regions : List Region) : AddressTarget → Word → Prop
  | own {target : AddressTarget} {range : SectionRange} {p : Placement} (has : o.Has u target range)
      (placed : l.placements[range.sectionId]? = some p) : Lies o u registry l regions target
        (addressIn regions p.block p.offset + BitVec.ofNat 64 range.offset)
  | imported {name : String} {host : HostSymbol} (foreign : name ∉ u.definedNames)
      (bound : registry.find? name = some host) :
      Lies o u registry l regions (.symbol name) host.address

theorem sectionStart_of_placed {id : Nat} {p : Placement} (placed : l.placements[id]? = some p) :
    sectionStart l regions id = addressIn regions p.block p.offset := by
  rw [sectionStart, placed]
  rfl

/-- A relocation of an address leads to what its reference is resolved to. -/
theorem resolve_of_refers {code : Assembled Reference} {place : CodeTarget}
    (refers : Refers o registry l regions r S found) (kind : r.kind = .abs64)
    (target : r.target = (relocTarget code place).1)
    (foreign : ∀ name, place = .imported name → o.global? name = none) :
    S + BitVec.ofInt 64 (relocTarget code place).2 = resolve registry l regions code place := by
  cases refers with
  | start isStart placed =>
      cases place with
      | entry | place =>
          cases target.symm.trans isStart
          rw [resolve, sectionStart_of_placed placed]
          exact congrArg _ (BitVec.ofInt_natCast ..)
      | imported => cases target.symm.trans isStart
  | own isSymbol own =>
      cases imported_of_relocTarget (target.symm.trans isSymbol)
      rw [foreign _ rfl] at own
      cases own
  | host isSymbol _ bound =>
      cases imported_of_relocTarget (target.symm.trans isSymbol)
      rw [resolve, bound]
      exact BitVec.add_zero _
  | stub _ _ _ branch => cases kind.symm.trans branch

/-- A relocation that stands for an address leads to where its target lies. -/
theorem exists_lies {addend : Int} {target : AddressTarget}
    (names : o.symbols.map (·.name) = u.definedNames) (kind : r.kind = .abs64)
    (designates : o.Designates u addend r target) (refers : Refers o registry l regions r S found) :
    ∃ T n, Lies o u registry l regions target T ∧ r.addend = asAddend n ∧
      S + BitVec.ofInt 64 n = T + BitVec.ofInt 64 addend := by
  cases designates with
  | own has isStart sum =>
      cases refers with
      | start target placed =>
          cases isStart.symm.trans target
          refine ⟨_, _, .own has placed, sum, ?_⟩
          rw [BitVec.ofInt_add, BitVec.ofInt_natCast, BitVec.add_assoc]
      | own target | host target | stub target => cases isStart.symm.trans target
  | imported foreign isSymbol sum =>
      cases refers with
      | start target => cases isSymbol.symm.trans target
      | @own name s _ target own =>
          cases isSymbol.symm.trans target
          have known := List.find?_some own
          rw [Bool.and_eq_true, beq_iff_eq] at known
          refine absurd ?_ foreign
          rw [← names, ← known.2]
          exact List.mem_map_of_mem (List.mem_of_find?_eq_some own)
      | host target _ bound =>
          cases isSymbol.symm.trans target
          exact ⟨_, addend, .imported foreign bound, sum, rfl⟩
      | stub _ _ _ branch => cases kind.symm.trans branch

/-! ### Where the code finds it -/

section

variable {code : UnitCode} {ps : List PlacedFunction} {vs : List PlacedVariable}
  {ss : List PlacedString} (h : Arrangement u code ps vs ss)
include h

/-- A symbol of the object is where the code looks for its name. -/
theorem resolve_target_of_symbol {s : ObjectSymbol}
    (member : s ∈ (objectOf u (.ofUnit u) code).symbols) {p : Placement}
    (placed : l.placements[s.sectionId]? = some p) :
    resolve registry l regions code.layout ((unitLayout u (.ofUnit u)).target s.name) =
      addressIn regions p.block p.offset + BitVec.ofNat 64 s.offset := by
  have names : ((objectOf u (.ofUnit u) code).symbols.map (·.name)).Nodup := by
    rw [h.symbolNames]
    exact h.distinct
  cases place : (unitLayout u (.ofUnit u)).target s.name with
  | entry label =>
      obtain ⟨q, isFunction, name, start⟩ := h.exists_of_entry (UnitLayout.entry_of_target place)
      obtain rfl : q.symbol = s :=
        List.inj_on_of_nodup_map names (h.mem_symbols_of_function isFunction) member name
      change sectionStart l regions q.symbol.sectionId + BitVec.ofNat 64 (code.offsetOf label) = _
      rw [sectionStart_of_placed placed, ← start]
      rfl
  | place id offset =>
      obtain ⟨v, isVariable, name, rfl, rfl⟩ := h.exists_of_place (UnitLayout.place_of_target place)
      obtain rfl : v.symbol (.ofUnit u) = s :=
        List.inj_on_of_nodup_map names (h.mem_symbols_of_variable isVariable) member name
      exact congrArg (· + _) (sectionStart_of_placed placed)
  | imported other =>
      refine absurd ?_ (h.not_mem_of_imported place)
      rw [← h.symbolNames]
      exact List.mem_map_of_mem member

/-- A name that the unit does not define is looked for where the host has it. -/
theorem target_of_foreign {name : String} (foreign : name ∉ u.definedNames) :
    (unitLayout u (.ofUnit u)).target name = .imported name := by
  cases place : (unitLayout u (.ofUnit u)).target name with
  | entry label =>
      obtain ⟨q, isFunction, rfl, -⟩ := h.exists_of_entry (UnitLayout.entry_of_target place)
      refine absurd (List.mem_append_left _ ?_) foreign
      exact List.mem_map_of_mem (h.functions ▸ List.mem_map_of_mem isFunction)
  | place id offset =>
      obtain ⟨v, isVariable, rfl, -⟩ := h.exists_of_place (UnitLayout.place_of_target place)
      refine absurd (List.mem_append_right _ ?_) foreign
      exact List.mem_map_of_mem (h.mem_globals isVariable)
  | imported other =>
      obtain ⟨-, -, rfl⟩ := UnitLayout.target_of_imported place
      rfl

/-- The surroundings of the code have addresses where linking puts them. -/
theorem address_of_lies {target : AddressTarget} {T : Word}
    (lies : Lies (objectOf u (.ofUnit u) code) u registry l regions target T)
    {c : Lowering.Context}
    (layout : c.layout = unitLayout u (.ofUnit u)) (start : Machine) (room : Nat) :
    (c.surroundings (resolve registry l regions code.layout) start room).address target = T := by
  cases lies with
  | own has placed =>
      cases has with
      | symbol member =>
          rw [Surroundings.address, Context.surroundings, layout]
          exact resolve_target_of_symbol h member placed
      | @string id range found =>
          rw [h.literalRanges, List.getElem?_map] at found
          obtain ⟨s, listed, rfl⟩ := Option.map_eq_some_iff.mp found
          rw [Surroundings.address, Context.surroundings]
          dsimp only
          rw [layout, h.literalPlaces, List.getElem?_map, listed]
          dsimp only [Option.map_some, Option.getD_some]
          rw [resolve]
          exact congrArg (· + _) (sectionStart_of_placed placed)
  | imported foreign bound =>
      rw [Surroundings.address, Context.surroundings]
      dsimp only
      rw [layout, target_of_foreign h foreign, resolve, bound]
      rfl

/-- An image has addresses where the code and the data of a unit refer to them. -/
structure PlacesAddresses (u : TranslationUnit) (code : UnitCode) (registry : Registry)
    (l : ImageLayout) (regions : List Region) : Prop where
  /-- An instruction that takes an address finds it in its operand. -/
  operands : ∃ p, l.placements[0]? = some p ∧ ∀ site ∈ code.layout.sites, site.2.kind = .abs64 →
    bytesAt regions p.block (p.offset + site.1) 8 =
      Word.toBytes (resolve registry l regions code.layout site.2.target) 8
  address {target : AddressTarget} {T : Word}
    (lies : Lies (objectOf u (.ofUnit u) code) u registry l regions target T) {c : Lowering.Context}
    (layout : c.layout = unitLayout u (.ofUnit u)) (start : Machine) (room : Nat) :
    (c.surroundings (resolve registry l regions code.layout) start room).address target = T
  /-- An item that is an address lies where its variable has it. -/
  items : ∀ g ∈ u.globals, ∃ s ∈ (objectOf u (.ofUnit u) code).symbols, s.name = g.name ∧
    s.kind = .data ∧ ∃ p, l.placements[s.sectionId]? = some p ∧
      ∀ items ∈ g.init, ∀ i ∈ items, ∀ target addend, i.value = .address target addend →
        ∃ T, Lies (objectOf u (.ofUnit u) code) u registry l regions target T ∧
          bytesAt regions p.block (p.offset + (s.offset + i.offset)) 8 =
            Word.toBytes (T + BitVec.ofInt 64 addend) 8

/-- What an instruction refers to and the unit does not have is not the object's own. -/
theorem global?_of_site {site : Nat × Reference} (member : site ∈ code.layout.sites) :
    site.2.kind = .abs64 → ∀ name, site.2.target = .imported name →
      (objectOf u (.ofUnit u) code).global? name = none := by
  obtain ⟨_, _, recorded⟩ := h.recorded
  obtain ⟨_, lowered⟩ := h.lowered
  obtain ⟨f, start, linked, -⟩ := code.layout_spec.2 site member
  have refers := refers_of_functions recorded.uses lowered f _ linked
  intro address name isName
  cases refers' : site.2 with
  | mk kind target expected =>
      rw [refers'] at refers address isName
      cases refers with
      | entry | place => cases isName
      | imported _ isImported =>
          cases isName
          exact global?_of_imported isImported
      | call => cases address

theorem placesAddresses (valid : (objectOf u (.ofUnit u) code).Valid)
    (sound : (objectOf u (.ofUnit u) code).Sound l)
    (fields : FieldsDenote (objectOf u (.ofUnit u) code) registry l regions) :
    PlacesAddresses u code registry l regions where
  operands := by
    have first : 0 < (objectOf u (.ofUnit u) code).sections.length := Nat.succ_pos _
    obtain ⟨p, placed, found⟩ := placement_of_section sound first
    refine ⟨p, placed, fun site member address => ?_⟩
    have inText : codeRelocation code.layout site ∈ p.source.relocations := by
      rw [← Option.some.inj found]
      exact List.mem_map_of_mem member
    obtain ⟨S, P, _, refers, denotes⟩ := fields p (List.mem_of_getElem? placed) _ inText
    have kind : (codeRelocation code.layout site).kind = .abs64 := address
    have addend : (codeRelocation code.layout site).addend =
        asAddend (relocTarget code.layout site.2.target).2 := by
      change asAddend (_ + fieldAddend site.2.kind) = _
      rw [address]
      exact congrArg _ (Int.add_zero _)
    rw [kind] at denotes
    rw [← resolve_of_refers refers kind rfl (global?_of_site h member address)]
    exact eq_toBytes_of_denotes kind addend (length_bytesAt ..) denotes
  address {_ _} lies {_} layout := address_of_lies h lies layout
  items g member := by
    obtain ⟨s, known, name, kind, -, references⟩ := h.references_variable member
    obtain ⟨place, found, -⟩ := valid.symbols s known
    obtain ⟨p, placed, source⟩ := placement_of_section sound (List.getElem?_eq_some_iff.mp found).1
    refine ⟨s, known, name, kind, p, placed, fun items init i isItem target addend value => ?_⟩
    obtain ⟨place, inObject, r, site, address, offset, designates⟩ :=
      references items init i isItem target addend value
    cases source.symm.trans inObject
    obtain ⟨S, P, _, refers, denotes⟩ := fields p (List.mem_of_getElem? placed) r site
    obtain ⟨T, n, lies, sum, same⟩ := exists_lies h.symbolNames address designates refers
    rw [address, offset] at denotes
    exact ⟨T, lies, same ▸ eq_toBytes_of_denotes address sum (length_bytesAt ..) denotes⟩

end

/-- Eight bytes of an image are those of the word that an expression has for its value, and that
assigning it to an object stores. -/
def HoldsValue (regions : List Region) (block offset : Nat) (s : Surroundings) (e : Expr) : Prop :=
  ∃ v : Word, bytesAt regions block offset 8 = v.toBytes 8 ∧ s.value e = pure (v.toNat : Int) ∧
    ∀ n object, s.value (.assign n object e) = (do
      let a ← s.place object
      s.write object.ty a v.toNat
      return (v.toNat : Int))

/-- The items of a unit that are an address hold the value of an expression that is this address. -/
theorem PlacesAddresses.holdsValue {Γ : TypingContext} {code : UnitCode} {e : Expr}
    {target : AddressTarget} {addend : Word} (places : PlacesAddresses u code registry l regions)
    (addresses : e.Addresses target addend Γ) {g : GlobalVar} (member : g ∈ u.globals) :
    ∃ s ∈ (objectOf u (.ofUnit u) code).symbols, s.name = g.name ∧ s.kind = .data ∧
      ∃ p, l.placements[s.sectionId]? = some p ∧
        ∀ items ∈ g.init, ∀ i ∈ items, i.value = .address target addend.toInt →
          ∀ (c : Lowering.Context) start room, c.layout = unitLayout u (.ofUnit u) →
            HoldsValue regions p.block (p.offset + (s.offset + i.offset))
              (c.surroundings (resolve registry l regions code.layout) start room) e := by
  obtain ⟨s, known, name, kind, p, placed, stores⟩ := places.items g member
  refine ⟨s, known, name, kind, p, placed, fun items init i isItem value c start room layout => ?_⟩
  obtain ⟨T, lies, bytes⟩ := stores items init i isItem target addend.toInt value
  have address := places.address lies layout start room
  rw [BitVec.ofInt_toInt] at bytes
  refine ⟨T + addend, bytes, ?_, fun n object => ?_⟩
  · rw [addresses.value, address]
  · rw [addresses.assigned, address]

end Link

/-- Constant addresses are sound. What the parser makes of an expression for an object that it
initialises is well typed; a well-typed pointer that is a constant address has the address of its
target plus the distance, modulo `2 ^ 64`, for its value, wherever it is evaluated and wherever its
code runs; and a variable that is initialised with it holds in the linked image of a source what
assigning it there would store. -/
theorem constantAddress_sound :
    (∀ {σ : FunctionScope} {nesting : Nat} {s s' : ParserState} {read e : Expr} {ty : CType}
      {loc : Location} {ws ws' : List SemanticNotice}, AreBytes σ.tokens → s.Valid σ →
      σ.course.within s' → ty.WellFormed → (Parser.productions nesting).assignment s = .ok read s' →
      read.assignConvert ty loc ws = .ok (e, ws') →
      e.WellTyped (.ofLocals (fun t v => t.wrap v = v) σ.locals) ∧ e.ty = ty) ∧
    ∀ {Γ : TypingContext} {e : Expr} {target : AddressTarget} {addend : Word},
      (∀ t v, Γ.constant t v → t.wrap v = v) → e.WellTyped Γ → e.ty.isPointer = true →
      e.constantAddress? = some (target, addend) →
      e.Addresses target addend Γ ∧
      ∀ {source : String} {options : CompileOptions} {object : Object} {warnings : List Diagnostic}
        {registry : Registry} {σ : Type} {allocate : σ → Nat → Option (Word × σ)} {space space' : σ}
        {image : Image}, compileSource source options = .ok (object, warnings) →
        object.linkWith allocate registry space = .ok (image, space') →
        ∃ u code l, parseSource source options.defines = .ok (u, warnings) ∧
          objectOf u (.ofUnit u) code = object ∧ object.layout = .ok l ∧
          Link.PlacesAddresses u code registry l image.regions ∧
          ∀ g ∈ u.globals, ∃ s ∈ object.symbols, s.name = g.name ∧ s.kind = .data ∧
            ∃ p, l.placements[s.sectionId]? = some p ∧
              ∀ items ∈ g.init, ∀ i ∈ items, i.value = .address target addend.toInt →
                ∀ (c : Context) start room, c.layout = unitLayout u (.ofUnit u) →
                  Link.HoldsValue image.regions p.block (p.offset + (s.offset + i.offset))
                    (c.surroundings (Link.resolve registry l image.regions code.layout) start room)
                    e := by
  constructor
  · intro σ nesting s s' read e ty loc ws ws' bytes valid within wellFormed parsed converted
    have sound := Parser.productions_sound nesting
    have typed := wellTyped_of_keeps sound.assignment bytes valid within parsed
    obtain ⟨typed, same, -⟩ := Expr.assignConvert_yields (fun t v => IntType.wrap_wrap t v) typed
      wellFormed loc _ _ _ converted
    exact ⟨typed, same⟩
  · intro Γ e target addend canonical typed pointer constant
    have addresses := Expr.addresses_of_constantAddress? canonical typed pointer constant
    refine ⟨addresses, ?_⟩
    intro source options object warnings registry σ allocate space space' image compiled linked
    obtain ⟨u, code, ps, vs, ss, parsed, rfl, arrangement⟩ := arrangement_of_compileSource compiled
    obtain ⟨l, valid, layout, sound, fields⟩ := Link.denotes_of_linkWith (fun valid s member =>
      ((arrangement.fillsFields valid.data_lt).apart s member).imp .inl) linked
    have places := Link.placesAddresses arrangement valid sound fields
    exact ⟨u, code, l, parsed, rfl, layout, places, fun g member =>
      places.holdsValue addresses member⟩

/-- The initialiser of a pointer to characters that a production has read, if it has declared
nothing and stored one string at most. -/
def characterPointer? : EStateM.Result SourceFault ParserState Expr → Option Expr
  | .ok read t =>
      if t.locals.isEmpty && t.current.isNone && t.unit.strings.length ≤ 1 then
        (read.assignConvert (.pointer (.int .char)) .start []).toOption.map Prod.fst
      else none
  | .error .. => none

/-- A pointer to the second character of a string literal: `"hi" + 1`. -/
theorem constantAddress_sound_secondCharacter :
    let source := "char *p = \"hi\" + 1; char q(void) \x7b return *p; \x7d"
    let tokens : List Token :=
      [⟨.str [104, 105], .start⟩, ⟨.punct .plus, .start⟩, ⟨.int 1 false false true, .start⟩]
    let Γ : TypingContext := .ofLocals (fun t v => t.wrap v = v) []
    ∃ e, characterPointer? ((Parser.productions 40).assignment
        { rest := tokens, endLoc := .start }) = some e ∧
      e.WellTyped Γ ∧ e.ty.isPointer = true ∧ e.constantAddress? = some (.str 0, 1) ∧
      e.Addresses (.str 0) 1 Γ ∧
      ∃ object warnings image space', compileSource source {} = .ok (object, warnings) ∧
        object.linkWith AddressSpace.allocate? {} {} = .ok (image, space') ∧
        ∃ u code l, parseSource source [] = .ok (u, warnings) ∧
          Link.PlacesAddresses u code {} l image.regions ∧ ∃ g ∈ u.globals, ∃ s ∈ object.symbols,
            s.name = g.name ∧ ∃ p, l.placements[s.sectionId]? = some p ∧
              Link.HoldsValue image.regions p.block (p.offset + s.offset)
                ((⟨unitLayout u (.ofUnit u), []⟩ : Context).surroundings
                  (Link.resolve {} l image.regions code.layout) .blank 0) e := by
  intro source tokens Γ
  have built : (characterPointer? ((Parser.productions 40).assignment
      { rest := tokens, endLoc := .start })).any
        (fun e => e.constantAddress? = some (.str 0, 1)) = true := by
    decide +kernel
  have facts : (parseSource source []).toOption.any (fun r =>
      (∃ g ∈ r.1.globals, g.init = some [⟨0, .address (.str 0) 1⟩]) ∧
        r.1.lower.toOption.any fun o => (o.linkWith AddressSpace.allocate? {} {}).isOk) = true := by
    rw [parseSource_of_bytes (Text.toByteChars_of_all ?_)]
    all_goals decide +kernel
  obtain ⟨parses, sound⟩ := constantAddress_sound
  obtain ⟨e, characters⟩ : ∃ e, characterPointer? ((Parser.productions 40).assignment
      { rest := tokens, endLoc := .start }) = some e := by
    refine Option.isSome_iff_exists.mp (Option.isSome_iff_ne_none.mpr fun none => ?_)
    rw [none] at built
    cases built
  rw [characters] at built
  have constant : e.constantAddress? = some (.str 0, 1) := of_decide_eq_true built
  obtain ⟨typed, same⟩ : e.WellTyped Γ ∧ e.ty = .pointer (.int .char) := by
    cases parsed : (Parser.productions 40).assignment { rest := tokens, endLoc := .start } with
    | error fault t => simp [parsed, characterPointer?] at characters
    | ok read t =>
        simp only [parsed, characterPointer?] at characters
        split at characters
        case isFalse => cases characters
        case isTrue clean =>
          simp only [Bool.and_eq_true, List.isEmpty_iff, Option.isNone_iff_eq_none,
            decide_eq_true_eq] at clean
          obtain ⟨⟨locals, current⟩, strings⟩ := clean
          cases converted : read.assignConvert (.pointer (.int .char)) .start [] with
          | error fault => simp [converted, Except.toOption] at characters
          | ok r =>
              obtain rfl : r.1 = e := by simpa [converted, Except.toOption] using characters
              let σ : FunctionScope := ⟨tokens, 1, [], .int .int, 0⟩
              refine @parses σ _ _ _ _ _ _ _ _ _ ?_ ?_ ?_ trivial parsed converted
              · simp [AreBytes, σ, tokens, TokenKind.IsByte]
              · exact ⟨List.suffix_refl _, List.forall_mem_singleton.mpr (List.forall_mem_nil _),
                  List.forall_mem_nil _, List.forall_mem_nil _, ⟨trivial, trivial⟩, rfl,
                  List.forall_mem_nil _, List.forall_mem_nil _⟩
              · exact ⟨locals ▸ List.prefix_refl _, by rw [ParserState.returnType, current]; rfl,
                  strings⟩
  have pointer : e.ty.isPointer = true := by rw [same]; rfl
  obtain ⟨addresses, links⟩ := sound (fun _ _ canonical => canonical) typed pointer constant
  refine ⟨e, characters, typed, pointer, constant, addresses, ?_⟩
  obtain ⟨⟨u, warnings⟩, parsed, facts⟩ := exists_of_toOption_any facts
  obtain ⟨⟨g, member, init⟩, lowers⟩ := of_decide_eq_true facts
  obtain ⟨object, lowered, linked⟩ := exists_of_toOption_any lowers
  have compiled : compileSource source {} = .ok (object, warnings) :=
    compileSource_of_lower rfl parsed lowered
  cases image : object.linkWith AddressSpace.allocate? {} {} with
  | error e =>
      rw [image] at linked
      cases linked
  | ok written =>
      obtain ⟨_, code, l, parsed', -, -, places, holds⟩ := links compiled image
      obtain ⟨rfl, -⟩ := Prod.mk.inj (Except.ok.inj (parsed'.symm.trans parsed))
      obtain ⟨s, known, name, -, p, placed, value⟩ := holds g member
      refine ⟨object, warnings, written.1, written.2, compiled, image, _, code, l, parsed, places,
        g, member, s, known, name, p, placed, ?_⟩
      exact value _ init _ (.head _) rfl _ _ _ rfl

end LiveC
