import LiveC.Proofs.FileTransitions
import LiveC.Proofs.LaidCode
import LiveC.Proofs.ArrangedData

/-!
How a compiled unit shares out the sections of its object. The functions take up the code one
after the other, and variables and string literals have ranges of the data for themselves, in which
nothing but values of initialisers and characters differs from zero.
-/

namespace LiveC

/-- Symbols that lie one behind the other in a section, from an offset on. None is empty. -/
inductive ObjectSymbol.Tile (sectionId : Nat) : Nat → List ObjectSymbol → Nat → Prop
  | nil {start : Nat} : Tile sectionId start [] start
  | cons {s : ObjectSymbol} {rest : List ObjectSymbol} {start stop : Nat} :
      s.sectionId = sectionId → s.offset = start → 0 < s.size →
      Tile sectionId (start + s.size) rest stop → Tile sectionId start (s :: rest) stop

/-- A range of bytes of a section of an object. -/
structure SectionRange where
  sectionId : Nat
  offset : Nat
  size : Nat

namespace SectionRange

def Apart (a b : SectionRange) : Prop :=
  a.sectionId = b.sectionId → a.offset + a.size ≤ b.offset ∨ b.offset + b.size ≤ a.offset

def Contains (r : SectionRange) (sectionId k : Nat) : Prop :=
  r.sectionId = sectionId ∧ r.offset ≤ k ∧ k < r.offset + r.size

end SectionRange

def ObjectSymbol.range (s : ObjectSymbol) : SectionRange := ⟨s.sectionId, s.offset, s.size⟩

namespace Lowering

/-! ### Symbols -/

namespace PlacedFunction

variable {layout : UnitLayout} {target : Label → Nat} {entry : Label} {start stop : Nat}
  {ps : List PlacedFunction}

theorem Run.starts (h : Run layout target entry start ps stop) :
    ((ps.map (·.source)).zipIdx entry).map (fun (f, i) => (f, target i)) =
      ps.map fun p => (p.source, p.start) := by
  induction h with
  | nil => rfl
  | @cons entry start stop p ps lies same run ih =>
      rw [List.map_cons, List.zipIdx_cons, List.map_cons, ih, List.map_cons]
      dsimp only
      rw [lies.entry_eq]

theorem Run.tile (h : Run layout target entry start ps stop) :
    ObjectSymbol.Tile 0 start (ps.map symbol) stop := by
  induction h with
  | nil => exact .nil
  | cons lies same _ ih =>
      subst same
      exact .cons rfl rfl lies.nonempty ih

end PlacedFunction

end Lowering

namespace DataLayout

variable {d : DataLayout} {vs : List PlacedVariable} {ss : List PlacedString} {k k' : DataKind}
  {p q : DataPart}

/-- Two kinds of data have sections of their own, unless there is no data of either. -/
theorem eq_of_sectionId (h : d.sectionId k = d.sectionId k') :
    k = k' ∨ (d.buffer k).size = 0 ∧ (d.buffer k').size = 0 := by
  rcases d.sectionId_cases k with ⟨i, found, same⟩ | ⟨empty, same⟩ <;>
    rcases d.sectionId_cases k' with ⟨j, found', same'⟩ | ⟨empty', same'⟩
  · obtain rfl : i = j := by omega
    exact .inl (Option.some.inj (found.symm.trans found'))
  · omega
  · omega
  · exact .inr ⟨empty, empty'⟩

/-- The section of a kind that there is. -/
theorem sectionId_of_getElem? {i : Nat} (h : d.kinds[i]? = some k) : d.sectionId k = i + 1 := by
  rcases d.sectionId_cases k with ⟨j, found, same⟩ | ⟨empty, -⟩
  · have inRange := (List.getElem?_eq_some_iff.mp h).1
    rw [same, (List.getElem?_inj inRange d.nodup_kinds).mp (h.trans found.symm)]
  · have data := (d.mem_kinds k).mp (List.mem_of_getElem? h)
    omega

/-- The range of a part in the object. -/
def range (d : DataLayout) (p : DataPart) : SectionRange := ⟨d.sectionId p.kind, p.offset, p.size⟩

theorem apart_of_before (before : p.Before q) (inside : p.stop ≤ (d.buffer p.kind).size) :
    (d.range p).Apart (d.range q) := by
  intro same
  rcases eq_of_sectionId same with kind | ⟨none, -⟩
  · exact .inl (before kind)
  · rw [none] at inside
    exact .inl (Nat.le_trans inside (Nat.zero_le _))

theorem Consists.apart {parts : List DataPart} (h : d.Consists parts) :
    (parts.map d.range).Pairwise SectionRange.Apart := by
  refine List.pairwise_map.mpr (h.ordered.imp_of_mem fun member _ before => ?_)
  exact apart_of_before before (h.inside _ member)

end DataLayout

/-- The symbol of a variable. -/
def PlacedVariable.symbol (d : DataLayout) (v : PlacedVariable) : ObjectSymbol :=
  { name := v.source.name, kind := .data, sectionId := d.sectionId v.source.dataKind,
    offset := v.offset, size := v.source.ty.size, isGlobal := !v.source.isStatic }

namespace DataLayout.Arranged

variable {d : DataLayout} {vs : List PlacedVariable} {ss : List PlacedString}

theorem symbols (h : d.Arranged vs ss) (distinct : ((vs.map (·.source)).map (·.name)).Nodup) :
    (vs.map (·.source)).filterMap (Lowering.globalSymbol d) = vs.map (·.symbol d) := by
  have names : (d.places.map Prod.fst).Nodup := by
    rw [h.places, List.map_map]
    rwa [List.map_map] at distinct
  rw [List.filterMap_map]
  refine List.filterMap_eq_map_iff_forall_eq_some.mpr fun v member => ?_
  have found : d.places.lookup v.source.name = some (v.source.dataKind, v.offset) :=
    lookup_of_mem names (h.places ▸ List.mem_map_of_mem member)
  change Lowering.globalSymbol d v.source = _
  rw [Lowering.globalSymbol, found]
  rfl

end DataLayout.Arranged

namespace Lowering

/-! ### The object of a unit -/

/-- The functions, variables and string literals of a unit with their places in its object. -/
structure Arrangement (u : TranslationUnit) (code : UnitCode) (ps : List PlacedFunction)
    (vs : List PlacedVariable) (ss : List PlacedString) : Prop where
  lowered : ∃ n, functions (unitLayout u (.ofUnit u)) 0 u.functions u.functions.length = .ok (code, n)
  laid : code.separate.Laid code.offsetOf 0 code.layout.code code.layout.sites
  run : PlacedFunction.Run (unitLayout u (.ofUnit u)) code.offsetOf 0 0 ps code.layout.code.length
  functions : ps.map (·.source) = u.functions
  bytes : code.layout.code = ps.flatMap (·.bytes)
  sites : code.layout.sites = ps.flatMap (·.sites)
  data : (DataLayout.ofUnit u).Arranged vs ss
  globals : vs.map (·.source) = u.globals
  strings : ss.map (·.bytes) = u.strings
  recorded : ∃ current statics, u.Recorded [] current statics
  made : ∀ g ∈ u.globals, g.Made
  named : ∀ f ∈ u.functions, f.Uses fun name isFunction => isFunction = true → IsPlain name
  literals : ∀ g ∈ u.globals, ∀ items ∈ g.init, ∀ i ∈ items, ∀ id addend,
    i.value = .address (.str id) addend → id < u.strings.length

theorem arrangement_of_compileSource {source : String} {options : CompileOptions} {object : Object}
    {warnings : List Diagnostic} (compiled : compileSource source options = .ok (object, warnings)) :
    ∃ u code ps vs ss, parseSource source options.defines = .ok (u, warnings) ∧
      objectOf u (.ofUnit u) code = object ∧ Arrangement u code ps vs ss := by
  obtain ⟨u, code, labels, parsed, lowered, same⟩ := lowered_of_compileSource compiled
  obtain ⟨tokens, p, scanned, accepted, rfl⟩ := scanned_of_parseSource parsed
  have words : ∀ t ∈ seenTokens tokens, t.kind.IsPlain := fun t member => (scanned t member).isPlain
  obtain ⟨current, statics, recorded⟩ := recorded_of_parseTokens accepted words
  have distinct : code.labels.Nodup := functions_nodup lowered (Nat.le_of_eq (Nat.zero_add _))
  have laid := Code.layout_laid distinct
  obtain ⟨ps, run, sources, bytes, sites⟩ := run_of_functions lowered laid
  obtain ⟨vs, ss, arranged, globals, strings⟩ := DataLayout.arranged_ofUnit p.unit
  rw [Nat.zero_add] at run
  refine ⟨p.unit, code, ps, vs, ss, parsed, same, ⟨labels, lowered⟩, laid, run, sources, bytes, sites,
    arranged, globals, strings, ⟨current, statics, recorded⟩, Parser.made_of_parseTokens accepted,
    fun f member => ?_, fun g member => ((parsed_of_parseTokens accepted).globals g member).strings⟩
  exact ((spelled_of_parseTokens accepted words).uses f member).mono fun _ _ spelled isFunction =>
    (spelled isFunction).isPlain words

end Lowering

/-- The ranges of the string literals of a unit, where its code and its data look for them. -/
def TranslationUnit.literalRanges (u : TranslationUnit) : List SectionRange :=
  (Lowering.unitLayout u (.ofUnit u)).strings.zipWith
    (fun place bytes => ⟨place.1, place.2, bytes.length⟩) u.strings

namespace Object

/-- The symbols of functions, or those of variables. -/
def symbolsOf (o : Object) (kind : SymbolKind) : List ObjectSymbol :=
  o.symbols.filter (·.kind = kind)

/-- A variable lies in the section of its symbol, aligned as its type asks for. The items of its
initialiser have ranges of the variable for themselves, and their values are there. -/
structure HoldsVariable (o : Object) (g : GlobalVar) (s : ObjectSymbol) : Prop where
  name_eq : s.name = g.name
  size_eq : s.size = g.ty.size
  offset_dvd : g.ty.align ∣ s.offset
  place : ∃ p, o.sections[s.sectionId]? = some p ∧ s.offset + s.size ≤ p.size ∧ g.ty.align ∣ p.align
  apart : ∀ items ∈ g.init, items.Pairwise InitItem.Before
  items : ∀ items ∈ g.init, ∀ i ∈ items, i.offset + i.value.width ≤ g.ty.size ∧
    o.Shows s.sectionId (s.offset + i.offset) i.value.stored

/-- How an object is shared out among the functions, variables and string literals of a unit. -/
structure SharedOut (o : Object) (u : TranslationUnit) : Prop where
  functions : (o.symbolsOf .function).map (·.name) = u.functions.map (·.name)
  tile : ∃ text, o.sections[0]? = some text ∧ text.kind = .text ∧ text.size = text.data.length ∧
    ObjectSymbol.Tile 0 0 (o.symbolsOf .function) text.size
  apart : ((o.symbolsOf .data).map (·.range) ++ u.literalRanges).Pairwise SectionRange.Apart
  placed : List.Forall₂ o.HoldsVariable u.globals (o.symbolsOf .data)
  shown : List.Forall₂ (fun bytes r => r.size = bytes.length ∧ o.Shows r.sectionId r.offset bytes)
    u.strings u.literalRanges
  /-- What is not zero in a section of data is part of the value of an item or of a string literal. -/
  zero : ∀ id p k b, 0 < id → o.sections[id]? = some p → p.data[k]? = some b → b ≠ 0 →
    (∃ v ∈ u.globals.zip (o.symbolsOf .data), v.2.sectionId = id ∧ ∃ items ∈ v.1.init, ∃ i ∈ items,
      v.2.offset + i.offset ≤ k ∧ k < v.2.offset + i.offset + i.value.stored.length) ∨
    ∃ r ∈ u.literalRanges, r.Contains id k

end Object

namespace Lowering

/-- The sections behind the code are those of the kinds of data. -/
theorem exists_dataSection {u : TranslationUnit} {code : UnitCode} {id : Nat} {p : Section}
    (isData : 0 < id) (found : (objectOf u (.ofUnit u) code).sections[id]? = some p) :
    ∃ kind, (DataLayout.ofUnit u).sectionId kind = id ∧
      dataSection u (unitLayout u (.ofUnit u)) code.layout (.ofUnit u) kind = p := by
  obtain ⟨j, rfl⟩ := Nat.exists_eq_add_one.mpr isData
  obtain ⟨kind, isKind, rfl⟩ := Option.map_eq_some_iff.mp ((List.getElem?_map ..).symm.trans found)
  exact ⟨kind, DataLayout.sectionId_of_getElem? isKind, rfl⟩

end Lowering

namespace Lowering.Arrangement

variable {u : TranslationUnit} {code : UnitCode} {ps : List PlacedFunction}
  {vs : List PlacedVariable} {ss : List PlacedString}

theorem names (h : Arrangement u code ps vs ss) : (u.globals.map (·.name)).Nodup := by
  obtain ⟨_, _, recorded⟩ := h.recorded
  exact recorded.globalNames

theorem holds (h : Arrangement u code ps vs ss) : (DataLayout.ofUnit u).Holds u.globals := by
  obtain ⟨_, _, recorded⟩ := h.recorded
  exact DataLayout.holds_ofUnit recorded.contained

/-- The symbols of the object are those of its functions and variables. -/
theorem symbols (h : Arrangement u code ps vs ss) : (objectOf u (.ofUnit u) code).symbols =
    ps.map (·.symbol) ++ vs.map (·.symbol (.ofUnit u)) := by
  let starts := u.functions.zipIdx.map fun p => (p.1, code.offsetOf p.2)
  have eq : starts = ps.map fun p => (p.source, p.start) := by
    have starts := h.run.starts
    rwa [h.functions] at starts
  have all : (objectOf u (.ofUnit u) code).symbols =
      (starts.map fun p => functionSymbol code.layout (starts.map (·.2)) p.1 p.2) ++
        u.globals.filterMap (globalSymbol (.ofUnit u)) := rfl
  rw [all, eq, List.map_map, List.map_map]
  congr 1
  · refine List.map_congr_left fun p member => ?_
    have next := h.run.next_start member
    change functionSymbol code.layout (ps.map (·.start)) p.source p.start = p.symbol
    unfold functionSymbol PlacedFunction.symbol
    rw [next]
    simp [PlacedFunction.stop]
  · have distinct := h.names
    rw [← h.globals] at distinct ⊢
    exact h.data.symbols distinct

theorem functionSymbols (h : Arrangement u code ps vs ss) :
    (objectOf u (.ofUnit u) code).symbolsOf .function = ps.map (·.symbol) := by
  rw [Object.symbolsOf, h.symbols, List.filter_append, List.filter_map, List.filter_map]
  simp [Function.comp_def, PlacedFunction.symbol, PlacedVariable.symbol]

theorem variableSymbols (h : Arrangement u code ps vs ss) :
    (objectOf u (.ofUnit u) code).symbolsOf .data = vs.map (·.symbol (.ofUnit u)) := by
  rw [Object.symbolsOf, h.symbols, List.filter_append, List.filter_map, List.filter_map]
  simp [Function.comp_def, PlacedFunction.symbol, PlacedVariable.symbol]

theorem literalPlaces (h : Arrangement u code ps vs ss) : (unitLayout u (.ofUnit u)).strings =
    ss.map fun s => ((DataLayout.ofUnit u).sectionId .readOnly, s.offset) := by
  change (DataLayout.ofUnit u).strings.map _ = _
  rw [h.data.strings, List.map_map]
  rfl

theorem literalRanges (h : Arrangement u code ps vs ss) :
    u.literalRanges = ss.map fun s => (DataLayout.ofUnit u).range s.part := by
  rw [TranslationUnit.literalRanges, h.literalPlaces, ← h.strings, List.zipWith_map, List.zipWith_self]
  rfl

/-- The section of a kind of data, or the code if there is no data of the kind. -/
theorem place (h : Arrangement u code ps vs ss) (kind : DataKind) :
    let d := DataLayout.ofUnit u
    ∃ p, (objectOf u d code).sections[d.sectionId kind]? = some p ∧
      (d.buffer kind).size ≤ p.size ∧ (d.buffer kind).align ∣ p.align ∧
      (kind ≠ .zero → d.bytes kind <+: p.data) := by
  intro d
  rcases d.sectionId_cases kind with ⟨i, found, same⟩ | ⟨empty, same⟩
  · refine ⟨_, same ▸ section_of_kind code found, ?_, ?_, fun stored => ?_⟩
    · exact Nat.le_of_eq (size_dataSection h.holds ..).symm
    · cases kind <;> exact Nat.dvd_refl _
    · rw [dataSection_of_stored stored]
      exact List.prefix_rfl
  · refine ⟨_, by rw [same]; rfl, ?_, ?_, fun stored => ?_⟩
    · exact empty ▸ Nat.zero_le _
    · rcases h.data.aligned kind with align | align | align | align <;>
        exact align ▸ (by decide : _ ∣ textAlign)
    · have none : d.bytes kind = [] := by
        refine List.eq_nil_of_length_eq_zero ?_
        rw [DataLayout.bytes, List.length_reverse]
        exact (h.data.consists.filled kind stored).trans empty
      exact none ▸ List.nil_prefix

variable (h : Arrangement u code ps vs ss)
include h

theorem mem_globals {v : PlacedVariable} (member : v ∈ vs) : v.source ∈ u.globals :=
  h.globals ▸ List.mem_map_of_mem member

/-- What a part of the data contains is in the object. -/
theorem shows_part {p : DataPart} (member : p ∈ vs.map (·.part) ++ ss.map (·.part))
    (stored : p.kind ≠ .zero) : (objectOf u (.ofUnit u) code).Shows
      ((DataLayout.ofUnit u).sectionId p.kind) p.offset p.contents := by
  obtain ⟨place, found, -, -, data⟩ := h.place p.kind
  exact ⟨place, found, (h.data.consists.shown p member).trans ((data stored).drop p.offset)⟩

/-- The string literals are where the code and the data look for them. -/
theorem shown_literals : List.Forall₂ (fun bytes r => r.size = bytes.length ∧
    (objectOf u (.ofUnit u) code).Shows r.sectionId r.offset bytes) u.strings u.literalRanges := by
  rw [h.literalRanges, ← h.strings, List.forall₂_map_left_iff, List.forall₂_map_right_iff]
  refine List.forall₂_same.mpr fun s member => ⟨rfl, ?_⟩
  exact h.shows_part (List.mem_append_right _ (List.mem_map_of_mem member)) nofun

theorem small_of_init (sized : ∀ s ∈ (objectOf u (.ofUnit u) code).sections, s.data.length < 2 ^ 63)
    {v : PlacedVariable} (member : v ∈ vs) {items : List InitItem} (init : items ∈ v.source.init) :
    v.source.ty.size < Word.modulus - 1 := by
  have stored := DataLayout.dataKind_ne_zero init
  obtain ⟨place, found, shown⟩ :=
    h.shows_part (List.mem_append_left _ (List.mem_map_of_mem member)) stored
  have length := shown.length_le
  have limit := sized place (List.mem_of_getElem? found)
  rw [PlacedVariable.contents_part stored, GlobalVar.length_contents, List.length_drop] at length
  exact Nat.lt_of_le_of_lt length (Nat.lt_of_le_of_lt (Nat.sub_le ..)
    (Nat.lt_of_lt_of_le limit (by decide)))

theorem holdsVariable
    (sized : ∀ s ∈ (objectOf u (.ofUnit u) code).sections, s.data.length < 2 ^ 63)
    {v : PlacedVariable} (member : v ∈ vs) :
    (objectOf u (.ofUnit u) code).HoldsVariable v.source (v.symbol (.ofUnit u)) := by
  have isPart : v.part ∈ vs.map (·.part) ++ ss.map (·.part) :=
    List.mem_append_left _ (List.mem_map_of_mem member)
  obtain ⟨multiple, aligned⟩ := h.data.placed v member
  have made := h.made v.source (h.mem_globals member)
  refine ⟨rfl, rfl, multiple, ?_, fun items init => ?_, fun items init i listed => ?_⟩
  · obtain ⟨place, found, size, align, -⟩ := h.place v.source.dataKind
    refine ⟨place, found, Nat.le_trans (h.data.consists.inside v.part isPart) size, ?_⟩
    exact Nat.dvd_trans (v.source.ty.isAlignment.dvd (h.data.aligned _) aligned) align
  · have small := h.small_of_init sized member init
    exact ((made.filled items init).spread ⟨made.complete, small⟩).1
  · have small := h.small_of_init sized member init
    have stored := DataLayout.dataKind_ne_zero init
    have within := ((made.filled items init).spread ⟨made.complete, small⟩).2 i listed
    obtain ⟨place, found, shown⟩ := h.shows_part isPart stored
    refine ⟨by simpa using within.2, place, found, ?_⟩
    have item := v.source.stored_prefix_contents made small init listed
    rw [PlacedVariable.contents_part stored] at shown
    rw [← List.drop_drop]
    exact item.trans (shown.drop i.offset)

theorem nonzero_byte {id k : Nat} {p : Section} {b : UInt8} (isData : 0 < id)
    (found : (objectOf u (.ofUnit u) code).sections[id]? = some p) (byte : p.data[k]? = some b)
    (nonzero : b ≠ 0) :
    (∃ v ∈ vs, (v.symbol (.ofUnit u)).sectionId = id ∧ ∃ items ∈ v.source.init, ∃ i ∈ items,
      v.offset + i.offset ≤ k ∧ k < v.offset + i.offset + i.value.stored.length) ∨
    ∃ s ∈ ss, ((DataLayout.ofUnit u).range s.part).Contains id k := by
  obtain ⟨kind, same, rfl⟩ := exists_dataSection isData found
  have stored : kind ≠ .zero := by
    rintro rfl
    cases byte
  rw [dataSection_of_stored stored] at byte
  obtain ⟨part, member, rfl, start, stop⟩ := h.data.consists.zero kind k b byte nonzero
  have contained : part.contents[k - part.offset]? = some b := by
    have shown := List.prefix_iff_getElem?.mp (h.data.consists.shown part member)
    have inside : k - part.offset < part.contents.length := by omega
    have here := shown _ inside
    rw [List.getElem?_drop, Nat.add_sub_cancel' start] at here
    rw [List.getElem?_eq_getElem inside]
    exact here.symm.trans byte
  rcases List.mem_append.mp member with isVariable | isString
  · obtain ⟨v, listed, rfl⟩ := List.mem_map.mp isVariable
    rw [PlacedVariable.contents_part stored] at contained
    obtain ⟨items, init, i, isItem, least, most⟩ := v.source.storesAt_of_contents contained nonzero
    have here : v.part.offset = v.offset := rfl
    exact .inl ⟨v, listed, same, items, init, i, isItem, by omega⟩
  · obtain ⟨s, listed, rfl⟩ := List.mem_map.mp isString
    exact .inr ⟨s, listed, same, start, stop⟩

/-- The object of a unit is shared out among what the unit defines. -/
theorem sharedOut (sized : ∀ s ∈ (objectOf u (.ofUnit u) code).sections, s.data.length < 2 ^ 63) :
    (objectOf u (.ofUnit u) code).SharedOut u := by
  have functions := h.functionSymbols
  have variables' := h.variableSymbols
  have literals := h.literalRanges
  constructor
  · rw [functions, ← h.functions, List.map_map, List.map_map]
    rfl
  · rw [functions]
    exact ⟨_, rfl, rfl, rfl, h.run.tile⟩
  · have apart := h.data.consists.apart
    rw [List.map_append, List.map_map, List.map_map] at apart
    rw [variables', literals, List.map_map]
    exact apart
  · rw [variables', ← h.globals, List.forall₂_map_left_iff, List.forall₂_map_right_iff]
    exact List.forall₂_same.mpr fun v member => h.holdsVariable sized member
  · exact h.shown_literals
  · intro id p k b isData found byte nonzero
    rw [variables', literals, ← h.globals]
    refine (h.nonzero_byte isData found byte nonzero).imp ?_ ?_
    · rintro ⟨v, member, same, stores⟩
      refine ⟨(v.source, v.symbol (.ofUnit u)), ?_, same, stores⟩
      rw [List.zip_map']
      exact List.mem_map_of_mem member
    · rintro ⟨s, member, contains⟩
      exact ⟨_, List.mem_map_of_mem member, contains⟩

end Lowering.Arrangement

open Lowering

/-- What a source defines shares out the sections of its object, as long as none has more bytes than
an array of bytes may have. -/
theorem sharedOut_of_compileSource {source : String} {options : CompileOptions} {object : Object}
    {warnings : List Diagnostic} (compiled : compileSource source options = .ok (object, warnings))
    (sized : ∀ s ∈ object.sections, s.data.length < 2 ^ 63) :
    ∃ u, parseSource source options.defines = .ok (u, warnings) ∧ object.SharedOut u := by
  obtain ⟨u, code, ps, vs, ss, parsed, rfl, arrangement⟩ := arrangement_of_compileSource compiled
  exact ⟨u, parsed, arrangement.sharedOut sized⟩

/-- Data of every kind, with gaps where alignments ask for them, and two functions. -/
theorem sharedOut_of_mixedData :
    let source := "char c = 1; int a[3] = {1, 2}; char *s[2] = \x7b\"hi\", 0\x7d; const char k = 2; " ++
      "int z; static double d; int f(int n) { return n + z; } int g(void) { return f(a[1]); }"
    ∃ object warnings u, compileSource source {} = .ok (object, warnings) ∧
      object.sections.map (·.kind) = [.text, .data, .readOnly, .zero] ∧
      (object.symbolsOf .data).map (·.offset) = [0, 4, 16, 0, 0, 8] ∧
      (∀ s ∈ object.sections, s.data.length < 2 ^ 63) ∧
      parseSource source [] = .ok (u, warnings) ∧ object.SharedOut u := by
  intro source
  have facts : (compileSource source {}).toOption.any (fun r =>
      r.1.sections.map (·.kind) = [.text, .data, .readOnly, .zero] ∧
      (r.1.symbolsOf .data).map (·.offset) = [0, 4, 16, 0, 0, 8] ∧
      ∀ s ∈ r.1.sections, s.data.length < 2 ^ 63) = true := by
    rw [compileSource, parseSource_of_bytes (Text.toByteChars_append_of
      (Text.toByteChars_of_all ?_) (Text.toByteChars_of_all ?_))]
    all_goals decide +kernel
  obtain ⟨r, compiled, facts⟩ := exists_of_toOption_any facts
  obtain ⟨kinds, offsets, sized⟩ := of_decide_eq_true facts
  obtain ⟨u, parsed, sharedOut⟩ := sharedOut_of_compileSource compiled sized
  exact ⟨r.1, r.2, u, compiled, kinds, offsets, sized, parsed, sharedOut⟩

end LiveC
