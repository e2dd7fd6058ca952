import LiveC.Proofs.InitialStores

/-!
A static object and a local one that are initialised alike hold the same. The section of the one has
the bytes that the slot of the other has when its initialisation has run; only of a pointer to a
string literal the section has no bytes but a relocation, and the slot an address, each to the
characters in the object that the source is compiled to.
-/

namespace LiveC

open Lowering

/-! ### Values -/

section

variable {link : CodeTarget → Word} {places : List (Nat × Nat)} {strings others : List (List UInt8)}
  {items : List InitItem} {leaves : List (Nat × Leaf)} {size : Nat} {b slot : Nat → UInt8}

/-- The item that stores the address of a string literal. -/
theorem InitItem.Stores.address {item : InitItem} {offset : Nat} {ty : CType} {text : List UInt8}
    (h : item.Stores strings (offset, .address ty text)) :
    item.offset = offset ∧ item.value.isAddress = true ∧ ty.isPointer = true := by
  obtain ⟨same, isPointer, id, value, -⟩ := h
  exact ⟨same, by rw [value]; rfl, isPointer⟩

theorem InitItem.Stores.of_isAddress {item : InitItem} {p : Nat × Leaf} (h : item.Stores strings p)
    (isAddress : item.value.isAddress = true) : ∃ ty text id, p = (item.offset, .address ty text) ∧
      ty.isPointer = true ∧ item.value = .address (.str id) 0 ∧ strings[id]? = some text := by
  obtain ⟨offset, leaf⟩ := p
  obtain ⟨rfl, stores⟩ := h
  cases leaf with
  | address ty text =>
      obtain ⟨isPointer, id, value, found⟩ := stores
      exact ⟨ty, text, id, rfl, isPointer, value, found⟩
  | text | value => cases isAddress.symm.trans stores.1

/-- A value that is no address has the same bytes in a section and in a slot. -/
theorem Leaf.image_eq_stored {leaf : Leaf} {bs bs' : List UInt8} (plain : leaf.isAddress = false)
    (image : leaf.IsImage bs) (stored : leaf.IsStored link places strings bs') : bs = bs' := by
  cases leaf with
  | address => cases plain
  | text | value => exact image.trans stored.symm

/-- The same values make the same bytes, but for addresses. -/
theorem Pictured.eq (image : Pictured Leaf.IsImage size leaves b)
    (stored : Pictured (Leaf.IsStored link places strings) size leaves slot) {k : Nat}
    (inside : k < size)
    (plain : ∀ p ∈ leaves, p.2.isAddress = true → k < p.1 ∨ p.1 + p.2.size ≤ k) : b k = slot k := by
  by_cases taken : ∃ p ∈ leaves, p.1 ≤ k ∧ k < p.1 + p.2.size
  · obtain ⟨p, member, least, most⟩ := taken
    have noAddress : p.2.isAddress = false := by
      refine Bool.eq_false_iff.mpr fun isAddress => ?_
      have apart := plain p member isAddress
      omega
    have same := Leaf.image_eq_stored noAddress (image.values p member) (stored.values p member)
    obtain ⟨j, rfl⟩ := Nat.exists_eq_add_of_le least
    have short : j < p.2.size := by omega
    have byte := congrArg (·[j]?) same
    simp only [getElem?_window short, Option.some.injEq] at byte
    exact byte
  · have gap : ∀ p ∈ leaves, k < p.1 ∨ p.1 + p.2.size ≤ k := fun p member => by
      by_cases before : k < p.1
      · exact .inl before
      · exact .inr (Nat.le_of_not_lt fun most => taken ⟨p, member, Nat.le_of_not_lt before, most⟩)
    rw [image.gaps k inside gap, stored.gaps k inside gap]

/-! ### Places -/

/-- A section has from a start on the bytes of a slot, but for the addresses of string literals:
there it has zeros, and a relocation to characters for which the slot has an address. -/
structure Section.Agrees (place : Section) (object : Object) (start size : Nat) (items : List InitItem)
    (link : CodeTarget → Word) (own : Object) (slot : Nat → UInt8) : Prop where
  bytes : ∀ k < size, (∀ item ∈ items, item.value.isAddress = true →
    k < item.offset ∨ item.offset + 8 ≤ k) → place.data[start + k]? = some (slot k)
  addresses : ∀ item ∈ items, item.value.isAddress = true → ∃ text,
    (∀ k < 8, place.data[start + (item.offset + k)]? = some 0) ∧
    (∃ r ∈ place.relocations, r.offset = start + item.offset ∧ r.kind = .abs64 ∧
      ∃ sectionId offset : Nat, r.target = .sectionStart sectionId ∧ r.addend = asAddend offset ∧
        object.Shows sectionId offset text) ∧
    ∃ sectionId offset, own.Shows sectionId offset text ∧
      window slot item.offset 8 = (link (.place sectionId offset)).toBytes 8

/-- The image of values in a section agrees with the values in a slot. -/
theorem Section.agrees_of_pictured {place : Section} {object own : Object} {start : Nat}
    (stores : List.Forall₂ (InitItem.Stores strings) items leaves) (placed : Placed 0 size leaves)
    (image : Pictured Leaf.IsImage size leaves b)
    (stored : Pictured (Leaf.IsStored link places others) size leaves slot)
    (data : ∀ k < size, place.data[start + k]? = some (b k))
    (relocations : ∀ item ∈ items, ∀ id text, item.value = .address (.str id) 0 →
      strings[id]? = some text → ∃ r ∈ place.relocations, r.offset = start + item.offset ∧
        r.kind = .abs64 ∧ ∃ sectionId offset : Nat, r.target = .sectionStart sectionId ∧
          r.addend = asAddend offset ∧ object.Shows sectionId offset text)
    (literals : ∀ (id sectionId offset : Nat) (text : List UInt8), others[id]? = some text →
      places[id]? = some (sectionId, offset) → own.Shows sectionId offset text) :
    place.Agrees object start size items link own slot where
  bytes k inside apart := by
    rw [data k inside, image.eq stored inside fun p member isAddress => ?_]
    obtain ⟨offset, leaf⟩ := p
    cases leaf with
    | address ty text =>
        obtain ⟨item, listed, here⟩ := exists_of_forall₂ stores member
        obtain ⟨rfl, isAddress, isPointer⟩ := here.address
        rw [Leaf.size, CType.size_of_isPointer isPointer]
        exact apart item listed isAddress
    | text | value => cases isAddress
  addresses item listed isAddress := by
    obtain ⟨p, member, here⟩ := exists_of_forall₂ stores.flip listed
    obtain ⟨ty, text, id, rfl, isPointer, value, found⟩ := InitItem.Stores.of_isAddress here isAddress
    have word : (Leaf.address ty text).size = 8 := CType.size_of_isPointer isPointer
    obtain ⟨-, inside⟩ := placed.within member
    rw [word] at inside
    refine ⟨text, fun k short => ?_, relocations item listed id text value found, ?_⟩
    · have zero : window b item.offset 8 = List.replicate ty.size 0 := word ▸ image.values _ member
      have byte : (window b item.offset 8)[k]? = some (b (item.offset + k)) := getElem?_window short
      rw [zero, CType.size_of_isPointer isPointer, List.getElem?_replicate, if_pos short] at byte
      rw [data _ (by omega), ← byte]
    · obtain ⟨id', sectionId, offset, literal, place', address⟩ := stored.values _ member
      rw [word] at address
      exact ⟨sectionId, offset, literals id' sectionId offset text literal place', address⟩

end

/-! ### Readings -/

namespace Parser

/-- What a production gives, and the string literals of the unit behind it. -/
def result? {α : Type} (p : Parser α) (s : ParserState) : Option (α × List (List UInt8)) :=
  match p s with
  | .ok a t => some (a, t.unit.strings)
  | .error .. => none

theorem ok_of_result? {α : Type} {p : Parser α} {s : ParserState} {r : α × List (List UInt8)}
    (h : result? p s = some r) : ∃ t, p s = .ok r.1 t ∧ t.unit.strings = r.2 := by
  unfold result? at h
  split at h
  case h_1 a t run =>
    cases h
    exact ⟨t, run, rfl⟩
  case h_2 => cases h

/-- A production reads an initialiser of an object of a type, which it completes; behind it the unit
has certain string literals. -/
def Accepts {ι : Type} (init : CType → Nat → Parser (CType × List ι)) (i : Initial)
    (ty completed : CType) (yielded : List ι) (strings : List (List UInt8)) : Prop :=
  ∃ s more, s.kinds = i.kinds ++ more ∧ Ending more ∧
    result? (init ty 0) s = some ((completed, yielded), strings)

/-- An initialiser is read as what it says of the object. -/
theorem Accepts.read {ι : Type} {form : InitForm ι} {init : Nat → CType → Nat → Parser (CType × List ι)}
    (initialises : Initialises form init) {n : Nat} {i : Initial} {ty completed : CType}
    {yielded : List ι} {strings : List (List UInt8)}
    (h : Accepts (init n) i ty completed yielded strings) :
    ∃ leaves, i.read ty 0 = some (completed, leaves) ∧ Yielded form strings leaves yielded := by
  obtain ⟨s, more, kinds, ending, accepted⟩ := h
  obtain ⟨t, run, rfl⟩ := ok_of_result? accepted
  exact (reads_initials initialises n kinds ending run).2

end Parser

/-- A source is parsed to a unit and compiled to an object. -/
structure Compiles (source : String) (options : CompileOptions) (u : TranslationUnit)
    (object : Object) : Prop where
  parsed : ∃ warnings, parseSource source options.defines = .ok (u, warnings)
  compiled : ∃ warnings, compileSource source options = .ok (object, warnings)

/-- A unit has a variable of a type, which items initialise; the string literals that they refer to
are those of the unit. -/
structure TranslationUnit.Defines (u : TranslationUnit) (g : GlobalVar) (ty : CType)
    (items : List InitItem) (strings : List (List UInt8)) : Prop where
  member : g ∈ u.globals
  ty : g.ty = ty
  init : g.init = some items
  strings : strings <+: u.strings

/-- Code for the statement that initialises a local variable of a type, in the context of a function
of a unit. The variable is no parameter and has a slot. -/
structure TranslationUnit.Initialises (u : TranslationUnit) (c : FunctionContext) (id : Nat)
    (offset : BitVec 32) (ty : CType) (stores : List InitStore) (strings : List (List UInt8))
    (code : UnitCode) : Prop where
  lowered : ∃ loop n n', stmt c loop (.init id ty.isArray stores) n = .ok (code, n')
  declared : ∃ f, FunctionContext.Of c (unitLayout u (.ofUnit u)) f ∧ f.signature.params.length ≤ id ∧
    ∃ v, f.locals[id]? = some v ∧ v.ty = ty
  slot : c.offsets[id]? = some offset
  strings : strings <+: u.strings

/-- What a source is compiled to has its variables and the characters of its literals. -/
theorem Compiles.image {source : String} {options : CompileOptions} {u : TranslationUnit}
    {object : Object} (h : Compiles source options u object) : ∃ code,
      objectOf u (.ofUnit u) code = object ∧ (∀ g ∈ u.globals, g.Contained) ∧
      (u.globals.map (·.name)).Nodup := by
  obtain ⟨warnings, parsed⟩ := h.parsed
  obtain ⟨warnings', compiled⟩ := h.compiled
  obtain ⟨u', code, parsed', same, ⟨current, statics, recorded⟩, -⟩ := compiled_eq_ok compiled
  cases parsed.symm.trans parsed'
  exact ⟨code, same, recorded.contained, recorded.globalNames⟩

/-! ### An array of names -/

/-- The initialiser `{"ab", 0}`. -/
def Initial.names : Initial := .braces [.text [97, 98] [], .value (.int 0 false false true)] false

/-- The type of an array of so many names. -/
def CType.names (length : Option Nat) : CType := .array (.pointer (.int .char)) length

/-- A static and a local array of names. -/
def namesSource : String :=
  "char *names[] = \x7b\"ab\", 0\x7d; void init(void) \x7b char *names[] = \x7b\"ab\", 0\x7d; \x7d"

/-- Where the parser is in front of the initialiser of the names. -/
def ParserState.names : ParserState where
  rest := (Initial.names.kinds ++ [TokenKind.punct .semicolon]).map (⟨·, .start⟩)
  endLoc := .start

/-- Where the code of a function has its variables, if there is only one of the size of two names. -/
def Lowering.FunctionContext.names (u : TranslationUnit) (f : Function) : FunctionContext where
  layout := unitLayout u (.ofUnit u)
  offsets := [BitVec.ofInt 32 (-16)]
  locals := f.locals
  finish := 0

/-- The names are accepted in both forms, and what they are compiled to is a static object and code
that initialises a local one. -/
theorem exists_names : ∃ (stores : List InitStore) (u : TranslationUnit) (object : Object)
    (g : GlobalVar) (c : FunctionContext) (code : UnitCode),
    Parser.Accepts (Parser.productions maxNesting).staticInit .names (.names none) (.names (some 2))
      [⟨0, .address (.str 0) 0⟩, ⟨8, .int 0 8⟩] [[97, 98, 0]] ∧
    Parser.Accepts (Parser.productions maxNesting).localInit .names (.names none) (.names (some 2))
      stores [[97, 98, 0]] ∧
    Compiles namesSource {} u object ∧ g.name = "names" ∧
    u.Defines g (.names (some 2)) [⟨0, .address (.str 0) 0⟩, ⟨8, .int 0 8⟩] [[97, 98, 0]] ∧
    u.Initialises c 0 (BitVec.ofInt 32 (-16)) (.names (some 2)) stores [[97, 98, 0]] code := by
  have ending : Parser.Ending [TokenKind.punct .semicolon] := ⟨.semicolon, [], rfl, .inr (.inl rfl)⟩
  have static : Parser.result? ((Parser.productions maxNesting).staticInit (.names none) 0) .names =
      some ((.names (some 2), [⟨0, .address (.str 0) 0⟩, ⟨8, .int 0 8⟩]), [[97, 98, 0]]) := by
    decide +kernel
  have facts : (parseSource namesSource []).toOption.any (fun p =>
      p.1.lower.toOption.isSome ∧ (Parser.result?
        ((Parser.productions maxNesting).localInit (.names none) 0) .names).any fun r =>
        r.1.1 = .names (some 2) ∧ r.2 = [[97, 98, 0]] ∧ p.1.strings = [[97, 98, 0], [97, 98, 0]] ∧
        (∃ g ∈ p.1.globals, g.name = "names" ∧ g.ty = .names (some 2) ∧
          g.init = some [⟨0, .address (.str 0) 0⟩, ⟨8, .int 0 8⟩]) ∧
        ∃ f ∈ p.1.functions, f.signature.params = [] ∧ f.locals.map (·.ty) = [.names (some 2)] ∧
          (allocateLocals {} 0 f.locals).toOption.map (·.slots) = some [-16] ∧
          (stmt (FunctionContext.names p.1 f) none (.init 0 true r.1.2) 1).toOption.isSome = true) =
      true := by
    rw [namesSource, parseSource_of_bytes (Text.toByteChars_of_all ?_)]
    all_goals decide +kernel
  obtain ⟨⟨u, warnings⟩, parsed, facts⟩ := exists_of_toOption_any facts
  obtain ⟨lowers, facts⟩ := of_decide_eq_true facts
  obtain ⟨⟨⟨ty, stores⟩, strings⟩, automatic, facts⟩ := (Option.any_eq_true ..).mp facts
  obtain ⟨rfl, rfl, literals, ⟨g, member, name, isNames, init⟩, f, -, params, locals, frame, lowered⟩ :=
    of_decide_eq_true facts
  obtain ⟨⟨code, n⟩, lowered⟩ := Option.isSome_iff_exists.mp lowered
  obtain ⟨object, made⟩ := Option.isSome_iff_exists.mp lowers
  obtain ⟨frame, allocated, slots⟩ := Option.map_eq_some_iff.mp frame
  obtain ⟨v, others, isLocals, isNames', -⟩ := List.map_eq_cons_iff.mp locals
  have front : [[97, 98, 0]] <+: u.strings := by
    rw [literals]
    exact List.prefix_append [[97, 98, 0]] [[97, 98, 0]]
  refine ⟨stores, u, object, g, .names u f, code, ⟨.names, _, rfl, ending, static⟩,
    ⟨.names, _, rfl, ending, automatic⟩,
    ⟨⟨warnings, parsed⟩, ⟨warnings, compileSource_of_lower rfl parsed (ok_of_toOption made)⟩⟩, name,
    ⟨member, isNames, init, front⟩, ⟨none, 1, n, ok_of_toOption lowered⟩,
    ⟨f, ⟨rfl, rfl, frame, ?_, ?_⟩, ?_, v, ?_, isNames'⟩, rfl, front⟩
  · rw [params]
    exact ok_of_toOption allocated
  · rw [slots]
    rfl
  · rw [params]
    exact Nat.le_refl 0
  · rw [isLocals]
    rfl

/-! ### Agreement -/

/-- An object that the same values initialise in a section and in a slot is the same in both, when
the code of its initialisation has run. -/
theorem agrees_of_yielded {i : Initial} {ty completed : CType} (completable : ty.isCompletable = true)
    {leaves : List (Nat × Leaf)} (said : i.read ty 0 = some (completed, leaves))
    {items : List InitItem} {stores : List InitStore} {strings strings' : List (List UInt8)}
    (yielded : Yielded .static strings leaves items)
    (yielded' : Yielded .automatic strings' leaves stores)
    {source source' : String} {options options' : CompileOptions} {u u' : TranslationUnit}
    {object object' : Object} (compiles : Compiles source options u object)
    (compiles' : Compiles source' options' u' object') {g : GlobalVar}
    (defines : u.Defines g completed items strings) {c : FunctionContext} {id : Nat}
    {offset : BitVec 32} {code : UnitCode} (initialises : u'.Initialises c id offset completed stores strings' code) :
    ∃ s ∈ object.symbols, s.name = g.name ∧ s.size = completed.size ∧
      ∃ place, object.sections[s.sectionId]? = some place ∧
        ∀ (link : CodeTarget → Word) (program rest : UnitCode) (m : Machine), ∃ m',
          (unitCode link).Reaches program ⟨code ++ rest, m⟩ ⟨rest, m'⟩ ∧
          place.Agrees object s.offset completed.size items link object'
            (slotByte m'.memory (m'.locate ⟨.rbp, offset⟩) completed.size) := by
  obtain ⟨globalCode, rfl, contained, distinct⟩ := compiles.image
  obtain ⟨localCode, rfl, contained', -⟩ := compiles'.image
  obtain ⟨f, of, behind, v, found, rfl⟩ := initialises.declared
  obtain ⟨loop, k, k', lowered⟩ := initialises.lowered
  have stores := stores_of_yielded (yielded.mono defines.strings)
  obtain ⟨symbol, listed, name, size, place, isSection, data, relocations⟩ :=
    image_of_global globalCode contained distinct defines.member defines.init
  rw [defines.ty] at size data
  have placed := of.placed found behind initialises.slot said completable
  have image := pictured_contents defines.init stores (defines.ty ▸ placed)
  rw [defines.ty] at image
  have pointers : ∀ p ∈ leaves, ∀ ty text, p.2 = .address ty text → ty.isPointer = true := by
    rintro ⟨offset, leaf⟩ member ty text rfl
    obtain ⟨item, -, here⟩ := exists_of_forall₂ stores member
    exact here.address.2.2
  refine ⟨symbol, listed, name, size, place, isSection, fun link program rest m => ?_⟩
  obtain ⟨m', reaches, frame, stored⟩ := pictured_of_init link of found behind initialises.slot
    said completable (yielded'.mono initialises.strings) pointers lowered program rest m
  have there : m'.locate ⟨.rbp, offset⟩ = m.gp .rbp + offset.signExtend 64 :=
    congrArg (· + _) frame
  rw [← there] at stored
  refine ⟨m', reaches, Section.agrees_of_pictured stores placed image stored (fun j inside => ?_)
    (fun item member id text value literal => ?_) fun id sectionId offset text literal place' => ?_⟩
  · have enough : j < g.contents.length := by rwa [g.length_contents, defines.ty]
    rw [data j inside, List.getElem?_eq_getElem enough, Option.getD_some]
  · obtain ⟨r, isRelocation, at_, kind, target⟩ := relocations item member id value
    obtain ⟨sectionId, offset, there, shows⟩ := shows_string globalCode contained literal
    obtain ⟨target, addend⟩ := target sectionId offset there
    exact ⟨r, isRelocation, at_, kind, sectionId, offset, target, addend, shows⟩
  · obtain ⟨sectionId', offset', there, shows⟩ := shows_string localCode contained' literal
    cases place'.symm.trans there
    exact shows

/-- Read as the initialiser of a static object and as that of a local one, an initialiser completes
the type alike; and where the one is in its section and the other in its slot, when the code of its
initialisation has run, they agree. -/
theorem initialisers_agree {i : Initial} {ty : CType} (completable : ty.isCompletable = true)
    {n n' : Nat} {staticTy localTy : CType} {items : List InitItem} {stores : List InitStore}
    {strings strings' : List (List UInt8)}
    (static : Parser.Accepts (Parser.productions n).staticInit i ty staticTy items strings)
    (automatic : Parser.Accepts (Parser.productions n').localInit i ty localTy stores strings') :
    staticTy = localTy ∧
      ∀ {source source' : String} {options options' : CompileOptions} {u u' : TranslationUnit}
        {object object' : Object} {g : GlobalVar} {c : FunctionContext} {id : Nat}
        {offset : BitVec 32} {code : UnitCode}, Compiles source options u object →
        Compiles source' options' u' object' → u.Defines g staticTy items strings →
        u'.Initialises c id offset localTy stores strings' code →
        ∃ s ∈ object.symbols, s.name = g.name ∧ s.size = staticTy.size ∧
          ∃ place, object.sections[s.sectionId]? = some place ∧
            ∀ (link : CodeTarget → Word) (program rest : UnitCode) (m : Machine), ∃ m',
              (unitCode link).Reaches program ⟨code ++ rest, m⟩ ⟨rest, m'⟩ ∧
              place.Agrees object s.offset staticTy.size items link object'
                (slotByte m'.memory (m'.locate ⟨.rbp, offset⟩) staticTy.size) := by
  obtain ⟨leaves, said, yielded⟩ := static.read Parser.initialises_static
  obtain ⟨leaves', said', yielded'⟩ := automatic.read Parser.initialises_automatic
  cases said.symm.trans said'
  exact ⟨rfl, fun compiles compiles' defines initialises =>
    agrees_of_yielded completable said yielded yielded' compiles compiles' defines initialises⟩

/-- The static names and the local ones agree. -/
theorem initialisers_agree_names : ∃ (stores : List InitStore) (u : TranslationUnit) (object : Object)
    (g : GlobalVar) (c : FunctionContext) (code : UnitCode),
    (CType.names none).isCompletable = true ∧
    Parser.Accepts (Parser.productions maxNesting).staticInit .names (.names none) (.names (some 2))
      [⟨0, .address (.str 0) 0⟩, ⟨8, .int 0 8⟩] [[97, 98, 0]] ∧
    Parser.Accepts (Parser.productions maxNesting).localInit .names (.names none) (.names (some 2))
      stores [[97, 98, 0]] ∧
    Compiles namesSource {} u object ∧
    u.Defines g (.names (some 2)) [⟨0, .address (.str 0) 0⟩, ⟨8, .int 0 8⟩] [[97, 98, 0]] ∧
    u.Initialises c 0 (BitVec.ofInt 32 (-16)) (.names (some 2)) stores [[97, 98, 0]] code ∧
    ∃ s ∈ object.symbols, s.name = g.name ∧ s.size = 16 ∧
      ∃ place, object.sections[s.sectionId]? = some place ∧
        ∀ (link : CodeTarget → Word) (program rest : UnitCode) (m : Machine), ∃ m',
          (unitCode link).Reaches program ⟨code ++ rest, m⟩ ⟨rest, m'⟩ ∧
          place.Agrees object s.offset 16 [⟨0, .address (.str 0) 0⟩, ⟨8, .int 0 8⟩] link object
            (slotByte m'.memory (m'.locate ⟨.rbp, BitVec.ofInt 32 (-16)⟩) 16) := by
  obtain ⟨stores, u, object, g, c, code, static, automatic, compiles, -, defines, initialises⟩ :=
    exists_names
  exact ⟨stores, u, object, g, c, code, rfl, static, automatic, compiles, defines, initialises,
    (initialisers_agree rfl static automatic).2 compiles compiles defines initialises⟩

/-- The section of the static names begins with a zero; the slot of the local ones begins with the
address of a string literal, which may be any. -/
theorem names_differ : ∃ (items : List InitItem) (stores : List InitStore) (strings : List (List UInt8))
    (u : TranslationUnit) (object : Object) (g : GlobalVar) (c : FunctionContext) (code : UnitCode),
    Parser.Accepts (Parser.productions maxNesting).staticInit .names (.names none) (.names (some 2))
      items strings ∧
    Parser.Accepts (Parser.productions maxNesting).localInit .names (.names none) (.names (some 2))
      stores strings ∧
    Compiles namesSource {} u object ∧ u.Defines g (.names (some 2)) items strings ∧
    u.Initialises c 0 (BitVec.ofInt 32 (-16)) (.names (some 2)) stores strings code ∧
    ∃ s ∈ object.symbols, s.name = g.name ∧
      ∃ place, object.sections[s.sectionId]? = some place ∧ place.data[s.offset]? = some 0 ∧
        ∃ link : CodeTarget → Word, ∀ (program rest : UnitCode) (m : Machine), ∃ m',
          (unitCode link).Reaches program ⟨code ++ rest, m⟩ ⟨rest, m'⟩ ∧
          slotByte m'.memory (m'.locate ⟨.rbp, BitVec.ofInt 32 (-16)⟩) 16 0 = 1 := by
  obtain ⟨stores, u, object, g, c, code, static, automatic, compiles, -, defines, initialises⟩ :=
    exists_names
  obtain ⟨leaves, said, yielded⟩ := static.read Parser.initialises_static
  obtain ⟨leaves', said', yielded'⟩ := automatic.read Parser.initialises_automatic
  cases said.symm.trans said'
  obtain ⟨s, listed, name, -, place, isSection, runs⟩ :=
    agrees_of_yielded rfl said yielded yielded' compiles compiles defines initialises
  refine ⟨_, stores, _, u, object, g, c, code, static, automatic, compiles, defines, initialises, s,
    listed, name, place, isSection, ?_, fun _ => 1, fun program rest m => ?_⟩
  · obtain ⟨m', -, agrees⟩ := runs (fun _ => 1) [] [] default
    obtain ⟨text, zero, -⟩ := agrees.addresses _ (.head _) rfl
    exact zero 0 (by decide)
  · obtain ⟨m', reaches, agrees⟩ := runs (fun _ => 1) program rest m
    obtain ⟨text, -, -, sectionId, offset, -, word⟩ := agrees.addresses _ (.head _) rfl
    have first := congrArg (·[0]?) word
    simp only [getElem?_window (by decide : 0 < 8)] at first
    exact ⟨m', reaches, Option.some.inj first⟩

end LiveC
