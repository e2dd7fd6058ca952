import LiveC.Object.Elf
import LiveC.Proofs.LinkTargets
import Mathlib.Data.List.Perm.Basic

/-!
What the file of an object holds. Its sections are those of the object with tables between and
behind them; its symbols are those of the object in another order, one for each section that
relocations refer to and one for each undefined name.
-/

namespace LiveC

namespace Elf

/-- A section that holds contents of the program, also if they are only zeros. -/
def Section.isContent (s : Section) : Bool :=
  match s.body with
  | .bytes _ | .zeros _ => true
  | _ => false

/-- The numbers of the sections with contents. -/
def File.contentIds (f : File) : List Nat :=
  (f.sections.zipIdx.filter fun s => s.1.isContent).map Prod.snd

/-- An entry of a function or of data. -/
def Symbol.isDefinition (e : Symbol) : Bool := e.type == typeFunction || e.type == typeObject

/-- The entries of a section, if it is a symbol table. -/
def Section.symbolEntries (s : Section) : List Symbol :=
  match s.body with
  | .symbols entries => entries
  | _ => []

theorem File.symbols_eq (f : File) : f.symbols = f.sections.flatMap Section.symbolEntries := rfl

/-- The entries of a section, if it is a relocation table for the section of a number. -/
def Section.relocationEntries (id : Nat) (s : Section) : List Rela :=
  match s.body with
  | .relas entries => if s.info = id then entries else []
  | _ => []

/-- The entries of the relocation tables for a section. -/
def File.relocationsOf (f : File) (id : Nat) : List Rela :=
  f.sections.flatMap (Section.relocationEntries id)

end Elf

namespace Object

/-- The body of a section: its bytes, or its size if it is zero-filled. -/
def contents (s : Section) : Elf.Body :=
  if s.kind = .zero then .zeros s.size else .bytes s.data

/-- An entry of a file says what is declared of a symbol. -/
structure Describes (f : Elf.File) (s : ObjectSymbol) (e : Elf.Symbol) : Prop where
  name : e.name = Text.utf8 s.name
  place : f.contentIds[s.sectionId]? = some e.sectionId
  offset : e.value = s.offset
  size : e.size = s.size
  binding : e.binding = if s.isGlobal then Elf.bindingGlobal else Elf.bindingLocal
  type : e.type = if s.kind = .function then Elf.typeFunction else Elf.typeObject

/-- An entry stands for what a relocation refers to: the start of the section, the symbol that the
object defines under the name, or an undefined symbol of the name. -/
def StandsFor (o : Object) (f : Elf.File) (e : Elf.Symbol) : RelocTarget → Prop
  | .sectionStart id =>
    e.type = Elf.typeSection ∧ e.value = 0 ∧ f.contentIds[id]? = some e.sectionId
  | .symbol name =>
    match o.global? name with
    | some s => Describes f s e
    | none => e.name = Text.utf8 name ∧ e.sectionId = 0

/-- The types that the System V ABI gives relocations: `R_X86_64_64`, `R_X86_64_PC32`,
`R_X86_64_PLT32` and `R_X86_64_32`. -/
def typeCode : RelocKind → Nat
  | .abs64 => 1
  | .pc32 => 2
  | .branch32 => 4
  | .abs32 => 10

/-- An entry of a relocation table says the same as a relocation. -/
structure Relocates (o : Object) (f : Elf.File) (r : Relocation) (e : Elf.Rela) : Prop where
  offset : e.offset = r.offset
  type : e.type = typeCode r.kind
  addend : e.addend = r.addend
  symbol : ∃ t, f.symbols[e.symbol]? = some t ∧ o.StandsFor f t r.target

/-- A file holds all of an object. -/
structure StoredIn (o : Object) (f : Elf.File) : Prop where
  sections : (f.sections.filter (·.isContent)).map (fun s => (s.name, s.body, s.align)) =
    o.sections.map fun s => (Text.utf8 s.name, contents s, s.align)
  symbols : ∃ entries, List.Forall₂ (Describes f) o.symbols entries ∧
    (f.symbols.filter (·.isDefinition)).Perm entries
  undefined : (f.symbols.filter fun e => e.sectionId = 0).map Elf.Symbol.name =
    [] :: o.undefinedNames.map Text.utf8
  relocations : ∀ (id : Nat) (s : Section), o.sections[id]? = some s →
    ∃ number, f.contentIds[id]? = some number ∧
      List.Forall₂ (o.Relocates f) s.relocations (f.relocationsOf number)

/-! ### Numbers of sections -/

variable {o : Object}

/-- How many sections the file has for a section of the object. -/
def width (s : Section) : Nat := if s.relocations.isEmpty then 1 else 2

theorem elfSectionId_zero (o : Object) : o.elfSectionId 0 = 1 := rfl

theorem elfSectionId_succ {id : Nat} {s : Section} (h : o.sections[id]? = some s) :
    o.elfSectionId (id + 1) = o.elfSectionId id + width s := by
  unfold elfSectionId width
  rw [List.take_add_one, h, List.filter_append, List.length_append]
  cases none : s.relocations.isEmpty <;> simp [none] <;> omega

theorem elfSectionId_strictMono (o : Object) : StrictMono o.elfSectionId := by
  intro i j less
  have := ((List.take_sublist_take_left (l := o.sections) less.le).filter
    (fun s : Section => !s.relocations.isEmpty)).length_le
  unfold elfSectionId
  omega

/-! ### Sections -/

/-- The section of the file with the contents of a section. -/
def mainSection (s : Section) : Elf.Section where
  name := Text.utf8 s.name
  flags := elfFlags s.kind
  align := s.align
  link := 0
  info := 0
  body := contents s

/-- The section of the file with the relocations of a section. -/
def relocationSection (o : Object) (symtab id : Nat) (s : Section) : Elf.Section where
  name := Text.utf8 (".rela" ++ s.name)
  flags := Elf.flagInfoLink
  align := 8
  link := symtab
  info := o.elfSectionId id
  body := .relas (s.relocations.map o.elfRela)

theorem elfSections_eq (symtab id : Nat) (s : Section) : o.elfSections symtab id s =
    mainSection s :: if s.relocations.isEmpty then [] else [o.relocationSection symtab id s] := by
  unfold elfSections mainSection contents relocationSection
  cases s.relocations.isEmpty <;> cases s.kind <;> rfl

theorem isContent_mainSection (s : Section) : (mainSection s).isContent = true := by
  unfold mainSection contents
  cases s.kind <;> rfl

/-- What the object gives to the file, from a section on. -/
def sectionsFrom (o : Object) (symtab id : Nat) (l : List Section) : List Elf.Section :=
  (l.zipIdx id).flatMap fun s => o.elfSections symtab s.2 s.1

theorem sectionsFrom_cons (symtab id : Nat) (s : Section) (l : List Section) :
    o.sectionsFrom symtab id (s :: l) =
      o.elfSections symtab id s ++ o.sectionsFrom symtab (id + 1) l := rfl

theorem contents_sectionsFrom (symtab id : Nat) (l : List Section) :
    (o.sectionsFrom symtab id l).filter (·.isContent) = l.map mainSection := by
  induction l generalizing id with
  | nil => rfl
  | cons s l ih =>
      rw [sectionsFrom_cons, elfSections_eq, List.filter_append, ih, List.map_cons,
        List.filter_cons_of_pos (isContent_mainSection s)]
      split <;> rfl

theorem contentIds_sectionsFrom (symtab : Nat) {id : Nat} {l : List Section}
    (h : o.sections.drop id = l) :
    (((o.sectionsFrom symtab id l).zipIdx (o.elfSectionId id)).filter (·.1.isContent)).map
      Prod.snd = (List.range' id l.length).map o.elfSectionId := by
  induction l generalizing id with
  | nil => rfl
  | cons s l ih =>
      have here : o.sections[id]? = some s := by
        rw [← List.head?_drop, h, List.head?_cons]
      have others : o.sections.drop (id + 1) = l := by
        rw [← List.tail_drop, h, List.tail_cons]
      have next := ih others
      rw [elfSectionId_succ here] at next
      rw [sectionsFrom_cons, elfSections_eq, List.cons_append, List.zipIdx_cons,
        List.filter_cons_of_pos (p := fun s : Elf.Section × Nat => s.1.isContent)
          (isContent_mainSection s), List.map_cons, List.length_cons, List.range'_succ,
        List.map_cons, ← next]
      unfold width
      split <;> rfl

theorem zipIdx_tables {tables : List Elf.Section} (none : ∀ s ∈ tables, s.isContent = false)
    (n : Nat) : (tables.zipIdx n).filter (·.1.isContent) = [] := by
  refine List.filter_eq_nil_iff.mpr fun s member => ?_
  rw [none s.1 (List.fst_mem_of_mem_zipIdx member)]
  exact Bool.false_ne_true

/-- The sections that the object gives to the file. -/
def partSections (o : Object) : List Elf.Section :=
  o.sectionsFrom (o.elfSectionId o.sections.length) 0 o.sections

def symbolTable (o : Object) : Elf.Section where
  name := Text.utf8 ".symtab"
  flags := 0
  align := 8
  link := o.elfSectionId o.sections.length + 1
  info := (o.elfOrder.filter ElfOrigin.isLocal).length + 1
  body := .symbols (nullSymbol :: o.elfOrder.map o.elfSymbol)

/-- The names of the symbols. -/
def symbolNames (o : Object) : Elf.Section where
  name := Text.utf8 ".strtab"
  flags := 0
  align := 1
  link := 0
  info := 0
  body := .strings
    (Elf.stringTable ((nullSymbol :: o.elfOrder.map o.elfSymbol).map Elf.Symbol.name))

/-- The names of the sections, its own among them. -/
def nameTable (o : Object) : Elf.Section where
  name := Text.utf8 ".shstrtab"
  flags := 0
  align := 1
  link := 0
  info := 0
  body := .strings (Elf.stringTable (((nullSection :: (o.partSections ++
    [o.symbolTable, o.symbolNames])).map Elf.Section.name) ++ [Text.utf8 ".shstrtab"]))

theorem sections_elfFile (o : Object) : o.elfFile.sections =
    nullSection :: (o.partSections ++ [o.symbolTable, o.symbolNames, o.nameTable]) := by
  unfold elfFile
  dsimp only
  rw [List.cons_append, List.cons_append, List.append_assoc]
  rfl

theorem contentIds_elfFile (o : Object) :
    o.elfFile.contentIds = (List.range o.sections.length).map o.elfSectionId := by
  have tables : ∀ s ∈ [o.symbolTable, o.symbolNames, o.nameTable], s.isContent = false := by
    intro s member
    simp only [List.mem_cons, List.not_mem_nil, or_false] at member
    obtain rfl | rfl | rfl := member <;> rfl
  have contents := contentIds_sectionsFrom (o.elfSectionId o.sections.length) o.sections.drop_zero
  rw [elfSectionId_zero] at contents
  unfold Elf.File.contentIds
  rw [sections_elfFile, List.zipIdx_cons, List.filter_cons_of_neg Bool.false_ne_true,
    List.zipIdx_append, List.filter_append, zipIdx_tables tables, List.append_nil, partSections,
    contents, List.range_eq_range']

theorem contentIds_getElem? {id : Nat} (h : id < o.sections.length) :
    o.elfFile.contentIds[id]? = some (o.elfSectionId id) := by
  rw [contentIds_elfFile, List.getElem?_map, List.getElem?_range h]
  rfl

theorem contents_elfFile (o : Object) :
    o.elfFile.sections.filter (·.isContent) = o.sections.map mainSection := by
  have tables : [o.symbolTable, o.symbolNames, o.nameTable].filter (·.isContent) = [] := rfl
  rw [sections_elfFile, List.filter_cons_of_neg Bool.false_ne_true, List.filter_append,
    partSections, contents_sectionsFrom, tables, List.append_nil]

/-! ### Symbols -/

theorem symbolEntries_mainSection (s : Section) : (mainSection s).symbolEntries = [] := by
  unfold mainSection contents
  cases s.kind <;> rfl

theorem symbols_sectionsFrom (symtab id : Nat) (l : List Section) :
    (o.sectionsFrom symtab id l).flatMap Elf.Section.symbolEntries = [] := by
  refine List.flatMap_eq_nil_iff.mpr fun e member => ?_
  obtain ⟨s, -, member⟩ := List.mem_flatMap.mp member
  rw [elfSections_eq] at member
  obtain rfl | other := List.mem_cons.mp member
  · exact symbolEntries_mainSection _
  · split at other
    · cases other
    · cases List.mem_singleton.mp other
      rfl

theorem symbols_elfFile (o : Object) :
    o.elfFile.symbols = nullSymbol :: o.elfOrder.map o.elfSymbol := by
  rw [Elf.File.symbols_eq, sections_elfFile, List.flatMap_cons, List.flatMap_append, partSections,
    symbols_sectionsFrom, List.nil_append]
  change [] ++ ((nullSymbol :: o.elfOrder.map o.elfSymbol) ++ []) = _
  rw [List.nil_append, List.append_nil]

theorem elfOrder_perm (o : Object) : o.elfOrder.Perm o.elfOrigins :=
  List.filter_append_perm _ _

/-- The origins of symbols that the object does not define itself. -/
def referred (o : Object) : List ElfOrigin :=
  ((o.relocations.map fun r => o.elfTarget r.target).filter fun u => match u with
    | .defined _ => false
    | _ => true).eraseDups

theorem elfOrigins_eq (o : Object) : o.elfOrigins = o.symbols.map .defined ++ o.referred := rfl

theorem describes_elfSymbol (valid : o.Valid) {s : ObjectSymbol} (member : s ∈ o.symbols) :
    Describes o.elfFile s (o.elfSymbol (.defined s)) := by
  obtain ⟨place, found, -⟩ := valid.symbols s member
  obtain ⟨inside, -⟩ := List.getElem?_eq_some_iff.mp found
  refine ⟨rfl, contentIds_getElem? inside, rfl, rfl, rfl, ?_⟩
  cases h : s.kind <;> simp [elfSymbol, h]

theorem definitions_perm (o : Object) :
    (o.elfFile.symbols.filter (·.isDefinition)).Perm
      (o.symbols.map fun s => o.elfSymbol (.defined s)) := by
  have defined (s : ObjectSymbol) : (o.elfSymbol (.defined s)).isDefinition = true := by
    unfold elfSymbol
    cases h : s.kind <;> simp only [h] <;> rfl
  have others : (o.referred.map o.elfSymbol).filter (·.isDefinition) = [] := by
    rw [List.filter_map, List.map_eq_nil_iff, List.filter_eq_nil_iff]
    intro u member
    unfold referred at member
    have kind := (List.mem_filter.mp (List.mem_eraseDups.mp member)).2
    cases u with
    | defined => cases kind
    | sectionStart | undefined => exact Bool.false_ne_true
  rw [symbols_elfFile, List.filter_cons_of_neg Bool.false_ne_true]
  refine (((elfOrder_perm o).map o.elfSymbol).filter (·.isDefinition)).trans (.of_eq ?_)
  rw [elfOrigins_eq, List.map_append, List.filter_append, others, List.append_nil, List.map_map]
  exact List.filter_eq_self.mpr fun e member => by
    obtain ⟨s, -, rfl⟩ := List.mem_map.mp member
    exact defined s

theorem eraseDups_map {α β : Type} [BEq α] [LawfulBEq α] [BEq β] [LawfulBEq β] {f : α → β}
    (injective : Function.Injective f) (l : List α) :
    (l.map f).eraseDups = l.eraseDups.map f := by
  induction h : l.length using Nat.strong_induction_on generalizing l with
  | _ n ih =>
      cases l with
      | nil => rfl
      | cons a l =>
          have shorter : (l.filter fun b => !b == a).length < n := by
            rw [← h, List.length_cons, Nat.lt_succ_iff]
            exact List.length_filter_le ..
          have same : ((fun b => !b == f a) ∘ f) = fun b => !b == a := by
            funext b
            simp [injective.eq_iff]
          rw [List.map_cons, List.eraseDups_cons, List.eraseDups_cons, List.map_cons,
            List.filter_map, same, ih _ shorter _ rfl]

/-- An origin that only a relocation gives. -/
def isUndefined : ElfOrigin → Bool
  | .undefined _ => true
  | _ => false

theorem elfTarget_own {name : String} {s : ObjectSymbol} (found : o.global? name = some s) :
    o.elfTarget (.symbol name) = .defined s := by
  rw [elfTarget, found]

theorem elfTarget_external {name : String} (missing : o.global? name = none) :
    o.elfTarget (.symbol name) = .undefined name := by
  rw [elfTarget, missing]

theorem undefined_targets (o : Object) :
    (o.relocations.map fun r => o.elfTarget r.target).filter isUndefined =
      (o.usedNames.filter fun n => (o.global? n).isNone).map .undefined := by
  unfold usedNames
  induction o.relocations with
  | nil => rfl
  | cons r l ih =>
      rw [List.map_cons, List.filterMap_cons]
      cases r.target with
      | sectionStart id => exact ih
      | symbol name =>
          cases found : o.global? name with
          | some s =>
              rw [elfTarget_own found, List.filter_cons_of_neg Bool.false_ne_true,
                List.filter_cons_of_neg (by simp [found]), ih]
          | none =>
              rw [elfTarget_external found, List.filter_cons_of_pos rfl,
                List.filter_cons_of_pos (by simp [found]), List.map_cons, ih]

theorem referred_undefined (o : Object) :
    o.referred.filter isUndefined = o.undefinedNames.map .undefined := by
  rw [referred, undefinedNames_eq, ← eraseDups_map fun _ _ => ElfOrigin.undefined.inj,
    ← eraseDups_filter, List.filter_filter, ← undefined_targets]
  congr 2
  funext u
  cases u <;> rfl

theorem sectionId_elfSymbol (u : ElfOrigin) :
    decide ((o.elfSymbol u).sectionId = 0) = isUndefined u := by
  have positive (id : Nat) : o.elfSectionId id ≠ 0 := by
    unfold elfSectionId
    omega
  cases u with
  | defined | sectionStart => exact decide_eq_false (positive _)
  | undefined => rfl

theorem elfOrder_undefined (o : Object) :
    o.elfOrder.filter isUndefined = o.undefinedNames.map .undefined := by
  have noLocal : (o.elfOrigins.filter ElfOrigin.isLocal).filter isUndefined = [] := by
    rw [List.filter_filter, List.filter_eq_nil_iff]
    rintro (_ | _ | _) - <;> simp [isUndefined, ElfOrigin.isLocal]
  have noneDefined : (o.symbols.map ElfOrigin.defined).filter isUndefined = [] := by
    rw [List.filter_map, List.map_eq_nil_iff]
    exact List.filter_eq_nil_iff.mpr fun _ _ => Bool.false_ne_true
  have others : (o.elfOrigins.filter (!·.isLocal)).filter isUndefined =
      o.elfOrigins.filter isUndefined := by
    rw [List.filter_filter]
    congr 1
    funext u
    cases u <;> simp [isUndefined, ElfOrigin.isLocal]
  rw [elfOrder, List.filter_append, noLocal, List.nil_append, others, elfOrigins_eq,
    List.filter_append, noneDefined, List.nil_append, referred_undefined]

theorem undefined_elfFile (o : Object) :
    (o.elfFile.symbols.filter fun e => e.sectionId = 0).map Elf.Symbol.name =
      [] :: o.undefinedNames.map Text.utf8 := by
  have same : ((fun e : Elf.Symbol => decide (e.sectionId = 0)) ∘ o.elfSymbol) = isUndefined :=
    funext sectionId_elfSymbol
  rw [symbols_elfFile,
    List.filter_cons_of_pos (p := fun e : Elf.Symbol => decide (e.sectionId = 0)) rfl,
    List.map_cons, List.filter_map, same, elfOrder_undefined, List.map_map, List.map_map]
  rfl

/-! ### Relocations -/

theorem elfTarget_mem_elfOrder {r : Relocation} (member : r ∈ o.relocations) :
    o.elfTarget r.target ∈ o.elfOrder := by
  have outside (external : ∀ s, o.elfTarget r.target ≠ .defined s) :
      o.elfTarget r.target ∈ o.elfOrigins := by
    refine List.mem_append_right _ (List.mem_eraseDups.mpr (List.mem_filter.mpr
      ⟨List.mem_map_of_mem member, ?_⟩))
    split
    case h_1 s same => exact absurd same (external s)
    case h_2 => rfl
  refine (elfOrder_perm o).mem_iff.mpr ?_
  cases target : r.target with
  | sectionStart id => exact target ▸ outside fun _ same => by cases target ▸ same
  | symbol name =>
      cases found : o.global? name with
      | some s =>
          rw [elfTarget_own found]
          exact List.mem_append_left _ (List.mem_map_of_mem (List.mem_of_find?_eq_some found))
      | none =>
          refine target ▸ outside fun _ same => ?_
          rw [target, elfTarget_external found] at same
          cases same

theorem symbol_elfSymbolId {r : Relocation} (member : r ∈ o.relocations) :
    o.elfFile.symbols[o.elfSymbolId r.target]? = some (o.elfSymbol (o.elfTarget r.target)) := by
  have inside : o.elfOrder.findIdx (· == o.elfTarget r.target) < o.elfOrder.length :=
    List.findIdx_lt_length_of_exists ⟨_, elfTarget_mem_elfOrder member, beq_self_eq_true _⟩
  have found := eq_of_beq (List.findIdx_getElem (w := inside))
  rw [symbols_elfFile, elfSymbolId, Nat.add_comm, List.getElem?_cons_succ, List.getElem?_map,
    List.getElem?_eq_getElem inside, Option.map_some, found]

theorem standsFor_elfSymbol (valid : o.Valid) {s : Section} (inside : s ∈ o.sections)
    {r : Relocation} (member : r ∈ s.relocations) :
    o.StandsFor o.elfFile (o.elfSymbol (o.elfTarget r.target)) r.target := by
  cases target : r.target with
  | sectionStart id =>
      have present := (valid.sections s inside).targets r member id target
      exact ⟨rfl, rfl, contentIds_getElem? present⟩
  | symbol name =>
      unfold StandsFor
      cases found : o.global? name with
      | some own =>
          rw [elfTarget_own found]
          simp only [found]
          exact describes_elfSymbol valid (List.mem_of_find?_eq_some found)
      | none =>
          rw [elfTarget_external found]
          simp only [found]
          exact ⟨rfl, rfl⟩

theorem relocates_elfRela (valid : o.Valid) {s : Section} (inside : s ∈ o.sections)
    {r : Relocation} (member : r ∈ s.relocations) : o.Relocates o.elfFile r (o.elfRela r) :=
  ⟨rfl, by cases h : r.kind <;> simp [elfRela, elfRelocType, typeCode, h], rfl, _,
    symbol_elfSymbolId (List.mem_flatMap.mpr ⟨s, inside, member⟩),
    standsFor_elfSymbol valid inside member⟩

/-- What a list gives for one index. -/
theorem flatMap_zipIdx {α β : Type} (g : α → List β) {l : List α} {i : Nat} {a : α}
    (h : l[i]? = some a) (n : Nat) :
    (l.zipIdx n).flatMap (fun b => if b.2 = n + i then g b.1 else []) = g a := by
  induction l generalizing i n with
  | nil => cases h
  | cons b l ih =>
      rw [List.zipIdx_cons, List.flatMap_cons]
      cases i with
      | zero =>
          cases h
          have others :
              (l.zipIdx (n + 1)).flatMap (fun b => if b.2 = n + 0 then g b.1 else []) = [] := by
            refine List.flatMap_eq_nil_iff.mpr fun c member => if_neg ?_
            have := List.le_snd_of_mem_zipIdx member
            omega
          rw [others, List.append_nil]
          exact if_pos rfl
      | succ i =>
          have next := ih (i := i) h (n + 1)
          rw [Nat.add_assoc, Nat.add_comm 1] at next
          rw [next, if_neg (by omega), List.nil_append]

theorem relocationEntries_elfSections (symtab id n : Nat) (s : Section) :
    (o.elfSections symtab n s).flatMap (Elf.Section.relocationEntries (o.elfSectionId id)) =
      if n = id then s.relocations.map o.elfRela else [] := by
  have main : (mainSection s).relocationEntries (o.elfSectionId id) = [] := by
    unfold mainSection contents
    cases s.kind <;> rfl
  rw [elfSections_eq, List.flatMap_cons, main, List.nil_append]
  cases none : s.relocations.isEmpty with
  | true =>
      rw [List.isEmpty_iff.mp none, List.map_nil, ite_self]
      rfl
  | false =>
      rw [if_neg Bool.false_ne_true, List.flatMap_singleton]
      unfold Elf.Section.relocationEntries relocationSection
      simp only [(elfSectionId_strictMono o).injective.eq_iff]

theorem relocationsOf_elfFile {id : Nat} {s : Section} (h : o.sections[id]? = some s) :
    o.elfFile.relocationsOf (o.elfSectionId id) = s.relocations.map o.elfRela := by
  have own := flatMap_zipIdx (fun s : Section => s.relocations.map o.elfRela) h 0
  rw [Nat.zero_add] at own
  unfold Elf.File.relocationsOf
  rw [sections_elfFile, List.flatMap_cons, List.flatMap_append, partSections, sectionsFrom,
    List.flatMap_assoc]
  simp only [relocationEntries_elfSections]
  rw [own]
  change [] ++ (_ ++ []) = _
  rw [List.nil_append, List.append_nil]

/-! ### The whole file -/

/-- The file of a valid object holds all of it. -/
theorem storedIn_elfFile (valid : o.Valid) : o.StoredIn o.elfFile where
  sections := by
    rw [contents_elfFile, List.map_map]
    rfl
  symbols := ⟨_, List.forall₂_map_right_iff.mpr (List.forall₂_same.mpr fun _ member =>
    describes_elfSymbol valid member), definitions_perm o⟩
  undefined := undefined_elfFile o
  relocations := fun id s h => by
    obtain ⟨inside, -⟩ := List.getElem?_eq_some_iff.mp h
    refine ⟨_, contentIds_getElem? inside, ?_⟩
    rw [relocationsOf_elfFile h]
    exact List.forall₂_map_right_iff.mpr (List.forall₂_same.mpr fun r member =>
      relocates_elfRela valid (List.mem_of_getElem? h) member)

end Object
end LiveC
