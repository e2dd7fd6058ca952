import LiveC.Proofs.SectionParts

/-!
The fields that linking fills in the object of a source. No two of them overlap, and all are zero.
Those of code are operands of moves and calls in the functions that mention what they refer to,
those of data are elements of variables that are initialised with addresses.
-/

namespace LiveC

/-- A relocation fills the operand of an instruction that starts at an offset: the immediate of a
move, or the distance of a call. -/
def Section.Opens (text : Section) (r : Relocation) (start : Nat) : Prop :=
  r.kind = .abs64 ∧ r.offset = start + 2 ∧
      [0x48, 0xB8, 0, 0, 0, 0, 0, 0, 0, 0] <+: text.data.drop start ∨
    r.kind = .branch32 ∧ r.addend = -4 ∧ r.offset = start + 1 ∧
      [0xE8, 0, 0, 0, 0] <+: text.data.drop start

/-- A relocation fills an element of a variable, one that is a pointer and that an item of its
initialiser gives an address. -/
structure GlobalVar.Stores (g : GlobalVar) (s : ObjectSymbol) (r : Relocation) : Prop where
  kind : r.kind = .abs64
  item : ∃ items ∈ g.init, ∃ i ∈ items, i.value.isAddress = true ∧ r.offset = s.offset + i.offset ∧
    i.offset + 8 ≤ g.ty.size ∧ ∃ pointee, g.ty.ElementAt i.offset (.pointer pointee)

namespace Object

/-- The relocations of the object of a unit fill fields of their own. -/
structure FillsFields (o : Object) (u : TranslationUnit) : Prop where
  apart : ∀ p ∈ o.sections, p.relocations.Pairwise fun a b => a.offset + a.kind.width ≤ b.offset
  zero : ∀ p ∈ o.sections, ∀ r ∈ p.relocations,
    List.replicate r.kind.width 0 <+: p.data.drop r.offset
  /-- What fills a field of code is mentioned by the function in whose bytes the field is. -/
  code : ∀ text ∈ o.sections[0]?, ∀ r ∈ text.relocations,
    ∃ v ∈ u.functions.zip (o.symbolsOf .function),
      (∃ m ∈ v.1.mentions, ∃ field ref assembled,
        (Lowering.unitLayout u (.ofUnit u)).Resolves m (.linked field ref) ∧
          r = Lowering.codeRelocation assembled (r.offset, ref)) ∧
      ∃ start, v.2.offset ≤ start ∧ r.offset + r.kind.width ≤ v.2.offset + v.2.size ∧ text.Opens r start
  data : ∀ id p, 0 < id → o.sections[id]? = some p → ∀ r ∈ p.relocations,
    p.kind = .data ∧ 8 ∣ r.offset ∧ 8 ∣ p.align ∧
      ∃ v ∈ u.globals.zip (o.symbolsOf .data), v.2.sectionId = id ∧ v.1.Stores v.2 r

end Object

/-! ### Fields of code -/

theorem Field.length_bytes_pos (f : Field) : 0 < f.bytes.length := by
  cases f with
  | address d => cases d <;> decide
  | call => decide

theorem CodeRef.length_bytes_pos {ρ : Type} (target : Label → Nat) (start : Nat) (r : CodeRef ρ) :
    0 < (r.bytes target start).length := by
  cases r with
  | call => exact Nat.succ_pos _
  | linked f => exact f.length_bytes_pos

namespace Lowering

open UnitLayout

variable {layout : UnitLayout} {m : Mention} {f : Field} {r : Reference}
  {assembled : Assembled Reference} {text : Section} {k : Nat}

/-- The field of a reference is the operand of its instruction. -/
theorem opens_of_resolves (h : layout.Resolves m (.linked f r)) (shown : f.bytes <+: text.data.drop k) :
    text.Opens (codeRelocation assembled (k + f.offset, r)) k := by
  cases h with
  | callImported => exact .inr ⟨rfl, (by decide : asAddend (0 + -4) = -4), rfl, shown⟩
  | entry | place | imported | string => exact .inl ⟨rfl, rfl, shown⟩

theorem width_of_resolves (h : layout.Resolves m (.linked f r)) :
    f.offset + r.kind.width = f.bytes.length := by
  cases h with
  | callImported | entry | place | imported | string => rfl

end Lowering

theorem Section.Opens.zeros {text : Section} {r : Relocation} {start : Nat} (h : text.Opens r start) :
    List.replicate r.kind.width 0 <+: text.data.drop r.offset := by
  obtain ⟨kind, offset, shown⟩ | ⟨kind, -, offset, shown⟩ := h
  · have field := shown.drop 2
    rw [List.drop_drop] at field
    rw [kind, offset]
    exact field
  · have field := shown.drop 1
    rw [List.drop_drop] at field
    rw [kind, offset]
    exact field

namespace Lowering.Arrangement

open UnitLayout

variable {u : TranslationUnit} {code : UnitCode} {ps : List PlacedFunction}
  {vs : List PlacedVariable} {ss : List PlacedString} (h : Arrangement u code ps vs ss)
include h

/-- What a function refers to lies in its bytes. -/
theorem shown_of_place {p : PlacedFunction} (isFunction : p ∈ ps)
    {places : List (Nat × CodeRef Reference)}
    (isPlaces : Code.Places code.offsetOf p.start p.code.separate p.bytes p.sites places)
    {k : Nat} {r : CodeRef Reference} (listed : (k, r) ∈ places) :
    p.start ≤ k ∧ k + (r.bytes code.offsetOf k).length ≤ p.stop ∧
      r.bytes code.offsetOf k <+: code.layout.code.drop k := by
  obtain ⟨start, shown⟩ := isPlaces.shown _ listed
  have length : (r.bytes code.offsetOf k).length ≤ (p.bytes.drop (k - p.start)).length := shown.length_le
  have positive := r.length_bytes_pos code.offsetOf k
  have inText := h.run.shown p isFunction
  rw [← h.bytes, Nat.sub_zero] at inText
  have whole := shown.trans (inText.drop (k - p.start))
  rw [List.drop_drop, Nat.add_sub_cancel' start] at whole
  refine ⟨start, ?_, whole⟩
  rw [List.length_drop] at length
  rw [PlacedFunction.stop]
  omega

/-- A relocation of code fills the operand of an instruction of a function, which mentions what the
relocation refers to. -/
theorem exists_of_codeRelocation {text : Section} {r : Relocation}
    (found : (objectOf u (.ofUnit u) code).sections[0]? = some text) (member : r ∈ text.relocations) :
    ∃ p ∈ ps, (∃ m ∈ p.source.mentions, ∃ field ref assembled,
      (unitLayout u (.ofUnit u)).Resolves m (.linked field ref) ∧
        r = codeRelocation assembled (r.offset, ref)) ∧
      ∃ start, p.start ≤ start ∧ r.offset + r.kind.width ≤ p.stop ∧ text.Opens r start := by
  cases found
  obtain ⟨site, isSite, rfl⟩ := List.mem_map.mp member
  rw [h.sites] at isSite
  obtain ⟨p, isFunction, own⟩ := List.mem_flatMap.mp isSite
  obtain ⟨⟨_, lies⟩, -⟩ := h.run.inside p isFunction
  obtain ⟨places, isPlaces, resolves⟩ := lies.exists_places
  rw [isPlaces.sites_eq] at own
  obtain ⟨⟨k, reference⟩, listed, linked⟩ := List.mem_filterMap.mp own
  obtain ⟨start, stop, shown⟩ := h.shown_of_place isFunction isPlaces listed
  cases reference with
  | call => cases linked
  | linked f ref =>
      cases linked
      obtain ⟨m, mentioned, resolved⟩ :=
        exists_of_forall₂ resolves (List.mem_map_of_mem listed)
      refine ⟨p, isFunction, ⟨m, mentioned, f, ref, code.layout, resolved, rfl⟩, k, start, ?_, ?_⟩
      · have width := width_of_resolves resolved
        change k + f.offset + ref.kind.width ≤ p.stop
        rwa [Nat.add_assoc, width]
      · exact opens_of_resolves resolved shown

theorem apart_sites : code.layout.sites.Pairwise fun a b => a.1 + a.2.kind.width ≤ b.1 := by
  obtain ⟨places, isPlaces⟩ := h.laid.exists_places
  obtain ⟨n, lowered⟩ := h.lowered
  have resolves := realises_functions lowered
  rw [Realises, ← Code.references_separate, ← isPlaces.references_eq] at resolves
  rw [isPlaces.sites_eq]
  refine List.pairwise_filterMap.mpr (isPlaces.apart.imp_of_mem ?_)
  rintro ⟨k, r⟩ ⟨k', r'⟩ member - apart site isSite site' isSite'
  cases r with
  | call => cases isSite
  | linked f ref =>
      cases r' with
      | call => cases isSite'
      | linked f' ref' =>
          cases isSite
          cases isSite'
          obtain ⟨m, -, resolved⟩ := exists_of_forall₂ resolves (List.mem_map_of_mem member)
          have width := width_of_resolves resolved
          dsimp only [CodeRef.bytes] at apart ⊢
          omega

end Lowering.Arrangement

/-! ### Fields of data -/

namespace PlacedVariable

variable {v : PlacedVariable} {a : DataAddress}

theorem address?_eq_some {i : InitItem} : v.address? i = some a ↔
    i.value = .address a.target a.addend ∧ a.kind = v.source.dataKind ∧
      a.offset = v.offset + i.offset := by
  unfold address?
  cases i.value with
  | int | float | bytes => exact ⟨nofun, fun h => nomatch h.1⟩
  | address target addend =>
      obtain ⟨kind, offset, target', addend'⟩ := a
      simp only [Option.some.injEq, DataAddress.mk.injEq, InitValue.address.injEq]
      constructor
      · rintro ⟨rfl, rfl, rfl, rfl⟩
        exact ⟨⟨rfl, rfl⟩, rfl, rfl⟩
      · rintro ⟨⟨rfl, rfl⟩, rfl, rfl⟩
        exact ⟨rfl, rfl, rfl, rfl⟩

theorem mem_addresses : a ∈ v.addresses ↔ ∃ items ∈ v.source.init, ∃ i ∈ items,
    i.value = .address a.target a.addend ∧ a.kind = v.source.dataKind ∧
      a.offset = v.offset + i.offset := by
  unfold addresses
  simp only [List.mem_filterMap, address?_eq_some]
  cases v.source.init with
  | none => simp
  | some items => simp

/-- The addresses of a variable are stored apart from each other. -/
theorem apart_addresses (made : v.source.Made)
    (small : ∀ items ∈ v.source.init, v.source.ty.size < Word.modulus - 1) :
    v.addresses.Pairwise fun a b => a.offset + 8 ≤ b.offset := by
  unfold addresses
  cases init : v.source.init with
  | none => exact .nil
  | some items =>
      obtain ⟨ordered, -⟩ := (made.filled items init).spread ⟨made.complete, small items init⟩
      refine List.pairwise_filterMap.mpr (ordered.imp fun before a stores b stores' => ?_)
      obtain ⟨value, -, offset⟩ := address?_eq_some.mp stores
      obtain ⟨-, -, offset'⟩ := address?_eq_some.mp stores'
      rw [InitItem.Before, value] at before
      change _ + 8 ≤ _ at before
      omega

end PlacedVariable

theorem GlobalVar.dataKind_of_isAddress {g : GlobalVar} {items : List InitItem} {i : InitItem}
    (init : items ∈ g.init) (member : i ∈ items) (address : i.value.isAddress = true) :
    g.dataKind = .data := by
  have any : items.any (·.value.isAddress) = true := List.any_eq_true.mpr ⟨i, member, address⟩
  rw [dataKind, Option.mem_def.mp init]
  simp [any]

namespace Lowering.Arrangement

variable {u : TranslationUnit} {code : UnitCode} {ps : List PlacedFunction}
  {vs : List PlacedVariable} {ss : List PlacedString} (h : Arrangement u code ps vs ss)
  (sized : ∀ s ∈ (objectOf u (.ofUnit u) code).sections, s.data.length < 2 ^ 63)
include h

/-- The relocations of data are those of the addresses of its kind. -/
theorem relocations_dataSection (kind : DataKind) :
    (dataSection u (unitLayout u (.ofUnit u)) code.layout (.ofUnit u) kind).relocations =
      ((DataLayout.ofUnit u).addresses.filter (·.kind = kind)).map
        (dataRelocation u (unitLayout u (.ofUnit u)) code.layout) := by
  by_cases zero : kind = .zero
  · subst zero
    have none : (DataLayout.ofUnit u).addresses.filter (·.kind = .zero) = [] :=
      List.filter_eq_nil_iff.mpr fun a member => by simpa using h.holds.stored a member
    rw [none]
    rfl
  · rw [dataSection_of_stored zero]
    rfl

theorem exists_of_dataRelocation {kind : DataKind} {r : Relocation} (member : r ∈
      (dataSection u (unitLayout u (.ofUnit u)) code.layout (.ofUnit u) kind).relocations) :
    ∃ v ∈ vs, v.source.dataKind = kind ∧ ∃ items ∈ v.source.init, ∃ i ∈ items, ∃ target addend,
      i.value = .address target addend ∧ r = dataRelocation u (unitLayout u (.ofUnit u)) code.layout
        ⟨kind, v.offset + i.offset, target, addend⟩ := by
  rw [h.relocations_dataSection] at member
  obtain ⟨a, listed, rfl⟩ := List.mem_map.mp member
  obtain ⟨isAddress, same⟩ := List.mem_filter.mp listed
  rw [h.data.addresses] at isAddress
  obtain ⟨v, isVariable, stored⟩ := List.mem_flatMap.mp isAddress
  obtain ⟨items, init, i, isItem, value, kind', offset⟩ := PlacedVariable.mem_addresses.1 stored
  obtain rfl := of_decide_eq_true same
  refine ⟨v, isVariable, kind'.symm, items, init, i, isItem, a.target, a.addend, value, ?_⟩
  rw [← offset]

include sized

theorem apart_addresses : (DataLayout.ofUnit u).addresses.Pairwise fun a b =>
    a.kind = b.kind → a.offset + 8 ≤ b.offset := by
  have small {v : PlacedVariable} (member : v ∈ vs) :
      ∀ items ∈ v.source.init, v.source.ty.size < Word.modulus - 1 :=
    fun items init => h.small_of_init sized member init
  rw [h.data.addresses]
  refine List.pairwise_flatMap.mpr ⟨fun v member => ?_, ?_⟩
  · have apart := PlacedVariable.apart_addresses (h.made _ (h.mem_globals member)) (small member)
    exact apart.imp fun {a b} behind (_ : a.kind = b.kind) => behind
  · have ordered := (List.pairwise_append.mp h.data.consists.ordered).1
    refine (List.pairwise_map.mp ordered).imp_of_mem fun {v w} isVariable _ before => ?_
    intro a stored b stored' same
    obtain ⟨items, init, i, isItem, value, kind, offset⟩ := PlacedVariable.mem_addresses.1 stored
    obtain ⟨items', init', i', isItem', -, kind', offset'⟩ := PlacedVariable.mem_addresses.1 stored'
    have made := h.made _ (h.mem_globals isVariable)
    have sized' : v.source.ty.Sized := ⟨made.complete, small isVariable items init⟩
    have stop := (((made.filled items init).spread sized').2 i isItem).2
    rw [value] at stop
    change _ + 8 ≤ _ at stop
    have behind : v.offset + v.source.ty.size ≤ w.offset := before (kind.symm.trans (same.trans kind'))
    omega

/-- The relocation of an address fills an element of its variable, which is zero. -/
theorem stores_of_item {v : PlacedVariable} (member : v ∈ vs) {items : List InitItem}
    (init : items ∈ v.source.init) {i : InitItem} (isItem : i ∈ items) {target : AddressTarget}
    {addend : Int} (value : i.value = .address target addend) :
    let r := dataRelocation u (unitLayout u (.ofUnit u)) code.layout
      ⟨v.source.dataKind, v.offset + i.offset, target, addend⟩
    v.source.Stores (v.symbol (.ofUnit u)) r ∧ 8 ∣ r.offset ∧ v.source.ty.align = 8 ∧
      ∀ p, (objectOf u (.ofUnit u) code).sections[(DataLayout.ofUnit u).sectionId v.source.dataKind]? =
        some p → List.replicate r.kind.width 0 <+: p.data.drop r.offset := by
  intro r
  have isAddress : i.value.isAddress = true := by rw [value]; rfl
  have width : i.value.width = 8 := by rw [value]; rfl
  have made := h.made _ (h.mem_globals member)
  have small := h.small_of_init sized member init
  have filled := made.filled items init
  have within := (filled.spread ⟨made.complete, small⟩).2 i isItem
  obtain ⟨pointee, distance, same, element⟩ := filled.elementAt isItem value
  rw [Nat.zero_add] at same
  subst same
  obtain ⟨align, multiple, -⟩ := element.aligned ⟨made.complete, small⟩
  obtain ⟨start, -⟩ := h.data.placed v member
  refine ⟨⟨rfl, items, init, i, isItem, isAddress, rfl, ?_, pointee, element⟩, ?_, align,
    fun p found => ?_⟩
  · have stop := within.2
    rw [width] at stop
    omega
  · exact Nat.dvd_add (align ▸ start) multiple
  · have stored := DataLayout.dataKind_ne_zero init
    obtain ⟨place, there, shown⟩ :=
      h.shows_part (List.mem_append_left _ (List.mem_map_of_mem member)) stored
    cases there.symm.trans found
    rw [PlacedVariable.contents_part stored] at shown
    have zeros := v.source.zeros_prefix_contents made small init isItem isAddress
    rw [width] at zeros
    change List.replicate 8 0 <+: p.data.drop (v.offset + i.offset)
    rw [← List.drop_drop]
    exact zeros.trans (shown.drop i.offset)

/-- The object of a unit has fields of its own for what it leaves to linking. -/
theorem fillsFields : (objectOf u (.ofUnit u) code).FillsFields u := by
  have functions := h.functionSymbols
  have variables' := h.variableSymbols
  refine ⟨fun p member => ?_, fun p member r isField => ?_, fun text isText r isField => ?_,
    fun id p isData found r isField => ?_⟩
  · obtain rfl | data := List.mem_cons.mp member
    · exact List.pairwise_map.mpr h.apart_sites
    · obtain ⟨kind, -, rfl⟩ := List.mem_map.mp data
      rw [h.relocations_dataSection]
      refine List.pairwise_map.mpr (((h.apart_addresses sized).filter _).imp_of_mem ?_)
      intro a b inSection inSection' apart
      have kind := of_decide_eq_true (List.mem_filter.mp inSection).2
      have kind' := of_decide_eq_true (List.mem_filter.mp inSection').2
      exact apart (kind.trans kind'.symm)
  · obtain ⟨id, found⟩ := List.mem_iff_getElem?.mp member
    rcases Nat.eq_zero_or_pos id with rfl | isData
    · obtain ⟨_, -, -, start, -, -, opens⟩ := h.exists_of_codeRelocation found isField
      exact opens.zeros
    · obtain ⟨kind, rfl, rfl⟩ := exists_dataSection isData found
      obtain ⟨v, isVariable, rfl, items, init, i, isItem, target, addend, value, rfl⟩ :=
        h.exists_of_dataRelocation isField
      exact (h.stores_of_item sized isVariable init isItem value).2.2.2 _ found
  · obtain ⟨p, isFunction, mentioned, start, le, stop, opens⟩ :=
      h.exists_of_codeRelocation isText isField
    refine ⟨(p.source, p.symbol), ?_, mentioned, start, le, stop, opens⟩
    rw [functions, ← h.functions, List.zip_map']
    exact List.mem_map_of_mem isFunction
  · obtain ⟨kind, same, rfl⟩ := exists_dataSection isData found
    obtain ⟨v, isVariable, rfl, items, init, i, isItem, target, addend, value, rfl⟩ :=
      h.exists_of_dataRelocation isField
    obtain ⟨stores, multiple, align, -⟩ := h.stores_of_item sized isVariable init isItem value
    have isAddress : i.value.isAddress = true := by rw [value]; rfl
    have data := GlobalVar.dataKind_of_isAddress init isItem isAddress
    have aligned := (h.data.placed v isVariable).2
    rw [align] at aligned
    refine ⟨?_, multiple, ?_, (v.source, v.symbol (.ofUnit u)), ?_, same, stores⟩
    · rw [kind_dataSection, data]
      rfl
    · have whole := IsAlignment.dvd (.inr (.inr (.inr rfl))) (h.data.aligned _) aligned
      rw [data] at whole ⊢
      exact whole
    · rw [variables', ← h.globals, List.zip_map']
      exact List.mem_map_of_mem isVariable

end Lowering.Arrangement

open Lowering

/-- What linking fills in the object of a source are fields of their own, all zero: operands of
moves and calls in the code, and pointers that are initialised in the data. No section has more
bytes than an array of bytes may have. -/
theorem fillsFields_of_compileSource {source : String} {options : CompileOptions} {object : Object}
    {warnings : List Diagnostic} (compiled : compileSource source options = .ok (object, warnings))
    (sized : ∀ s ∈ object.sections, s.data.length < 2 ^ 63) :
    ∃ u, parseSource source options.defines = .ok (u, warnings) ∧ object.FillsFields u := by
  obtain ⟨u, code, ps, vs, ss, parsed, rfl, arrangement⟩ := arrangement_of_compileSource compiled
  exact ⟨u, parsed, arrangement.fillsFields sized⟩

/-- An imported function that is called where labels coincide, behind branches that shrink, and
pointers to what is defined and what is not. -/
theorem fillsFields_of_nestedLoops :
    let source := "int g(int); extern int e; char c; int *p[2] = { 0, &e }; " ++
      "int f(int n) { while (n) { while (n) n = g(n) + e; } return *p[1]; } int (*q)(int) = f;"
    ∃ object warnings u, compileSource source {} = .ok (object, warnings) ∧
      object.sections.map (fun s => s.relocations.map (·.kind)) =
        [[.branch32, .abs64, .abs64], [.abs64, .abs64], []] ∧
      (∀ s ∈ object.sections, s.data.length < 2 ^ 63) ∧
      parseSource source [] = .ok (u, warnings) ∧ object.FillsFields u := by
  intro source
  have facts : (compileSource source {}).toOption.any (fun r =>
      r.1.sections.map (fun s => s.relocations.map (·.kind)) =
        [[.branch32, .abs64, .abs64], [.abs64, .abs64], []] ∧
      ∀ s ∈ r.1.sections, s.data.length < 2 ^ 63) = true := by
    rw [compileSource, parseSource_of_bytes (Text.toByteChars_append_of
      (Text.toByteChars_of_all ?_) (Text.toByteChars_of_all ?_))]
    all_goals decide +kernel
  obtain ⟨r, compiled, facts⟩ := exists_of_toOption_any facts
  obtain ⟨kinds, sized⟩ := of_decide_eq_true facts
  obtain ⟨u, parsed, fills⟩ := fillsFields_of_compileSource compiled sized
  exact ⟨r.1, r.2, u, compiled, kinds, sized, parsed, fills⟩

end LiveC
