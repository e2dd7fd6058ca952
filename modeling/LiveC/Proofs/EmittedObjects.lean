import LiveC.Proofs.ElfReading
import LiveC.Proofs.StoredObjects
import LiveC.Text.Bytes
import LiveC.Session.Basic

/-!
Emission keeps all of an object. The file of a valid object is one that reading gives back, and a
malformed object is refused.
-/

namespace LiveC

namespace Object

variable {o : Object}

/-- No name has a zero byte, which would end it in a string table. -/
structure NulFree (o : Object) : Prop where
  sections : ∀ s ∈ o.sections, 0 ∉ Text.utf8 s.name
  symbols : ∀ s ∈ o.symbols, 0 ∉ Text.utf8 s.name
  targets : ∀ name ∈ o.undefinedNames, 0 ∉ Text.utf8 name

/-- The numbers of a file have room for what an object needs: there are fewer than 2¹⁶ sections, the
file is shorter than 2³² bytes, and addends are signed words. -/
structure Encodable (o : Object) : Prop where
  sections : o.elfFile.sections.length < 2 ^ 16
  bytes : o.elfFile.bytes.length < 2 ^ 32
  addends : ∀ r ∈ o.relocations, Word.least ≤ r.addend ∧ r.addend ≤ Word.greatest

/-! ### Bounds -/

theorem bounds_of_checkSections {x : Extents} {index : Nat} {l : List Section}
    (h : checkSections o x index l = .ok ()) :
    ∀ s ∈ l, s.align < 2 ^ 64 ∧ s.size ≤ maxExtent := by
  induction l generalizing x index with
  | nil => exact List.forall_mem_nil _
  | cons s l ih =>
      obtain ⟨_, first, others⟩ := ok_of_bind h
      obtain ⟨power, extent, -⟩ := checkSection_eq_ok.mp first
      obtain ⟨i, bound, align⟩ := isPowerOfTwo_iff.mp power
      refine List.forall_mem_cons.mpr ⟨⟨?_, (Nat.le_add_left ..).trans extent⟩, ih others⟩
      exact align ▸ Nat.pow_lt_pow_right (by decide) bound

theorem bounds_of_validate (h : o.validate = .ok ()) :
    ∀ s ∈ o.sections, s.align < 2 ^ 64 ∧ s.size ≤ maxExtent := by
  obtain ⟨_, sections, -⟩ := ok_of_bind h
  exact bounds_of_checkSections sections

theorem length_sectionsFrom (symtab : Nat) {id : Nat} {l : List Section}
    (h : o.sections.drop id = l) :
    o.elfSectionId id + (o.sectionsFrom symtab id l).length = o.elfSectionId (id + l.length) := by
  induction l generalizing id with
  | nil => rfl
  | cons s l ih =>
      have here : o.sections[id]? = some s := by
        rw [← List.head?_drop, h, List.head?_cons]
      have next := ih (by rw [← List.tail_drop, h, List.tail_cons])
      rw [elfSectionId_succ here] at next
      rw [sectionsFrom_cons, elfSections_eq, List.length_append, List.length_cons, List.length_cons,
        ← Nat.add_assoc id, Nat.add_right_comm id, ← next]
      unfold width
      split <;> simp only [List.length_nil, List.length_singleton] <;> omega

theorem length_partSections (o : Object) :
    o.partSections.length + 1 = o.elfSectionId o.sections.length := by
  have all := length_sectionsFrom (o.elfSectionId o.sections.length) o.sections.drop_zero
  rw [elfSectionId_zero, Nat.zero_add, Nat.add_comm] at all
  exact all

theorem length_sections_elfFile (o : Object) :
    o.elfFile.sections.length = o.elfSectionId o.sections.length + 3 := by
  rw [sections_elfFile, List.length_cons, List.length_append, ← length_partSections]
  rfl

/-- The sections of the file. -/
inductive IsPart (o : Object) : Elf.Section → Prop
  | null : IsPart o nullSection
  | contents {id : Nat} {s : Section} (found : o.sections[id]? = some s) :
      IsPart o (mainSection s)
  | relocations {id : Nat} {s : Section} (found : o.sections[id]? = some s) :
      IsPart o (o.relocationSection (o.elfSectionId o.sections.length) id s)
  | symbols : IsPart o o.symbolTable
  | symbolNames : IsPart o o.symbolNames
  | names : IsPart o o.nameTable

theorem isPart_of_mem {e : Elf.Section} (member : e ∈ o.elfFile.sections) : o.IsPart e := by
  rw [sections_elfFile] at member
  obtain rfl | member := List.mem_cons.mp member
  · exact .null
  obtain part | table := List.mem_append.mp member
  · obtain ⟨s, inside, part⟩ := List.mem_flatMap.mp part
    have found := List.mem_zipIdx_iff_getElem?.mp inside
    rw [elfSections_eq] at part
    obtain rfl | relocations := List.mem_cons.mp part
    · exact .contents found
    · split at relocations
      · cases relocations
      · cases List.mem_singleton.mp relocations
        exact .relocations found
  · simp only [List.mem_cons, List.not_mem_nil, or_false] at table
    obtain rfl | rfl | rfl := table
    · exact .symbols
    · exact .symbolNames
    · exact .names

theorem sections_getElem?_tables (o : Object) (i : Nat) :
    o.elfFile.sections[o.elfSectionId o.sections.length + i]? =
      [o.symbolTable, o.symbolNames, o.nameTable][i]? := by
  rw [sections_elfFile, ← length_partSections, Nat.add_right_comm, List.getElem?_cons_succ,
    List.getElem?_append_right (by omega), Nat.add_sub_cancel_left]

theorem body_mainSection (s : Section) :
    (mainSection s).body = .zeros s.size ∨ (mainSection s).body = .bytes s.data := by
  rw [mainSection, contents]
  split
  · exact .inl rfl
  · exact .inr rfl

theorem mainSection_mem {s : Section} (member : s ∈ o.sections) :
    mainSection s ∈ o.elfFile.sections := by
  have content : mainSection s ∈ o.elfFile.sections.filter (·.isContent) :=
    contents_elfFile o ▸ List.mem_map_of_mem member
  exact (List.mem_filter.mp content).1

theorem symbolTable_mem (o : Object) : o.symbolTable ∈ o.elfFile.sections :=
  List.mem_of_getElem? (sections_getElem?_tables o 0)

/-- What has a symbol, with what is known of it. -/
theorem origin_cases (valid : o.Valid) {u : ElfOrigin} (member : u ∈ o.elfOrder) :
    (∃ s ∈ o.symbols, u = .defined s) ∨ (∃ id < o.sections.length, u = .sectionStart id) ∨
      ∃ name ∈ o.undefinedNames, u = .undefined name := by
  obtain own | outside := List.mem_append.mp ((elfOrder_perm o).mem_iff.mp member)
  · obtain ⟨s, inside, rfl⟩ := List.mem_map.mp own
    exact .inl ⟨s, inside, rfl⟩
  · obtain ⟨used, kind⟩ := List.mem_filter.mp (List.mem_eraseDups.mp outside)
    obtain ⟨r, inside, rfl⟩ := List.mem_map.mp used
    cases target : r.target with
    | sectionStart id =>
        obtain ⟨s, place, field⟩ := List.mem_flatMap.mp inside
        exact .inr (.inl ⟨id, (valid.sections s place).targets r field id target, rfl⟩)
    | symbol name =>
        cases found : o.global? name with
        | some s =>
            rw [target, elfTarget_own found] at kind
            cases kind
        | none =>
            exact .inr (.inr ⟨name, mem_undefinedNames.mpr ⟨⟨r, inside, target⟩, found⟩,
              elfTarget_external found⟩)

theorem noZero_ascii {s : String} (h : 0 ∉ s.toUTF8.data.toList) : 0 ∉ Text.utf8 s := by
  rwa [Text.utf8, Text.toList_eq_data]

theorem noZero_name (names : o.NulFree) {e : Elf.Section} (part : o.IsPart e) : 0 ∉ e.name := by
  cases part with
  | null => exact List.not_mem_nil
  | contents found => exact names.sections _ (List.mem_of_getElem? found)
  | relocations found =>
      change 0 ∉ Text.utf8 (".rela" ++ _)
      rw [Text.utf8_append, List.mem_append, not_or]
      exact ⟨noZero_ascii (by decide), names.sections _ (List.mem_of_getElem? found)⟩
  | symbols | symbolNames | names => exact noZero_ascii (by decide)

theorem noZero_symbol (valid : o.Valid) (names : o.NulFree) {u : ElfOrigin}
    (member : u ∈ o.elfOrder) : 0 ∉ (o.elfSymbol u).name := by
  obtain ⟨s, inside, rfl⟩ | ⟨id, -, rfl⟩ | ⟨name, inside, rfl⟩ := origin_cases valid member
  · exact names.symbols s inside
  · exact List.not_mem_nil
  · exact names.targets name inside

section

variable (fits : o.Encodable)
include fits

theorem contents_lt {e : Elf.Section} (member : e ∈ o.elfFile.sections) :
    e.body.contents.length < 2 ^ 32 := by
  obtain ⟨i, found⟩ := List.mem_iff_getElem?.mp member
  have inside := Elf.File.startOf_le found
  have := fits.bytes
  omega

theorem size_lt {e : Elf.Section} (member : e ∈ o.elfFile.sections)
    (stored : ∀ n, e.body ≠ .zeros n) : e.body.size < 2 ^ 32 := by
  have inside := contents_lt fits member
  rwa [Elf.length_contents stored] at inside

theorem elfSectionId_lt {id : Nat} (h : id ≤ o.sections.length) :
    o.elfSectionId id + 3 < 2 ^ 16 := by
  have order := (elfSectionId_strictMono o).monotone h
  have count := fits.sections
  rw [length_sections_elfFile] at count
  omega

theorem length_elfOrder_lt : 24 * (o.elfOrder.length + 1) < 2 ^ 32 := by
  have table := size_lt fits (symbolTable_mem o) nofun
  rwa [symbolTable, Elf.Body.size, List.length_cons, List.length_map] at table

theorem data_lt {s : Section} (member : s ∈ o.sections) (bytes : s.kind ≠ .zero) :
    s.data.length < 2 ^ 32 := by
  have stored := contents_lt fits (mainSection_mem member)
  rwa [mainSection, contents, if_neg bytes] at stored

theorem part_fits (valid : o.validate = .ok ()) {e : Elf.Section}
    (member : e ∈ o.elfFile.sections) : e.Fits := by
  have tables := elfSectionId_lt fits le_rfl
  have count := length_elfOrder_lt fits
  cases isPart_of_mem member with
  | null => exact ⟨by decide, by decide, by decide, by decide, by decide⟩
  | contents found =>
      rename_i id s
      have inside := List.mem_of_getElem? found
      obtain ⟨align, size⟩ := bounds_of_validate valid s inside
      have flags : elfFlags s.kind < 2 ^ 64 := by cases s.kind <;> decide
      refine ⟨flags, align, Nat.two_pow_pos 32, Nat.two_pow_pos 32, ?_⟩
      rw [mainSection, contents]
      split
      case isTrue => exact size.trans_lt (by decide)
      case isFalse bytes => exact (data_lt fits inside bytes).trans (by decide)
  | relocations found =>
      obtain ⟨inside, -⟩ := List.getElem?_eq_some_iff.mp found
      have own := elfSectionId_lt fits inside.le
      have size := size_lt fits member nofun
      constructor <;> simp only [relocationSection, Elf.flagInfoLink] at size ⊢ <;> omega
  | symbols =>
      have locals := List.length_filter_le ElfOrigin.isLocal o.elfOrder
      have size := size_lt fits member nofun
      constructor <;> simp only [symbolTable] at size ⊢ <;> omega
  | symbolNames =>
      have size := size_lt fits member nofun
      constructor <;> simp only [symbolNames] at size ⊢ <;> omega
  | names =>
      have size := size_lt fits member nofun
      constructor <;> simp only [nameTable] at size ⊢ <;> omega

theorem symbol_fits (valid : o.validate = .ok ()) {u : ElfOrigin} (member : u ∈ o.elfOrder) :
    (o.elfSymbol u).Fits := by
  obtain ⟨s, inside, rfl⟩ | ⟨id, inside, rfl⟩ | ⟨name, inside, rfl⟩ :=
    origin_cases (valid_of_validate valid) member
  · obtain ⟨place, found, extent⟩ := (valid_of_validate valid).symbols s inside
    obtain ⟨present, -⟩ := List.getElem?_eq_some_iff.mp found
    have own := elfSectionId_lt fits present.le
    have size := (bounds_of_validate valid place (List.mem_of_getElem? found)).2
    unfold maxExtent at size
    have binding : (o.elfSymbol (.defined s)).binding < 16 := by
      cases scope : s.isGlobal <;> simp only [elfSymbol, scope] <;> decide
    have type : (o.elfSymbol (.defined s)).type < 16 := by
      cases kind : s.kind <;> simp only [elfSymbol, kind] <;> decide
    have other : (o.elfSymbol (.defined s)).other < 256 := by
      cases scope : s.isGlobal <;> simp only [elfSymbol, scope] <;> decide
    refine ⟨binding, type, other, ?_, ?_, ?_⟩ <;> simp only [elfSymbol] <;> omega
  · have own := elfSectionId_lt fits inside.le
    constructor <;> simp only [elfSymbol, Elf.bindingLocal, Elf.typeSection] <;> omega
  · constructor <;> simp only [elfSymbol, Elf.bindingGlobal, Elf.typeNone] <;> omega

theorem rela_fits (valid : o.Valid) {s : Section} (inside : s ∈ o.sections) {r : Relocation}
    (member : r ∈ s.relocations) : (o.elfRela r).Fits := by
  have field := (valid.sections s inside).fields r member
  have bytes : s.kind ≠ .zero := fun zero => by
    rw [((valid.sections s inside).zero zero).2] at member
    cases member
  have data := data_lt fits inside bytes
  have count := length_elfOrder_lt fits
  have index : o.elfOrder.findIdx (· == o.elfTarget r.target) ≤ o.elfOrder.length :=
    List.findIdx_le_length
  have type : elfRelocType r.kind < 2 ^ 32 := by cases r.kind <;> decide
  obtain ⟨least, greatest⟩ := fits.addends r (List.mem_flatMap.mpr ⟨s, inside, member⟩)
  refine ⟨?_, type, ?_, least, greatest⟩ <;> simp only [elfRela, elfSymbolId] <;> omega

theorem storable_elfFile (valid : o.validate = .ok ()) (names : o.NulFree) :
    o.elfFile.Storable where
  type := (by decide : Elf.relocatableFile < 2 ^ 16)
  machine := (by decide : Elf.machineX86_64 < 2 ^ 16)
  count := fits.sections
  small := fits.bytes
  names := by
    refine ⟨o.nameTable, ?_, ?_⟩
    · rw [length_sections_elfFile]
      exact sections_getElem?_tables o 2
    · rw [Elf.File.sectionNames, sections_elfFile]
      simp only [nameTable, List.map_cons, List.map_append, List.map_nil, List.cons_append,
        List.nil_append, List.append_assoc]
  sections := fun e member =>
    ⟨part_fits fits valid member, noZero_name names (isPart_of_mem member)⟩
  symbols := fun e member entries body => by
    cases isPart_of_mem member with
    | @contents _ s => obtain other | other := body_mainSection s <;> cases other.symm.trans body
    | symbols =>
        cases body
        refine ⟨⟨o.symbolNames, sections_getElem?_tables o 1, rfl⟩, List.forall_mem_cons.mpr
          ⟨⟨?_, List.not_mem_nil⟩, List.forall_mem_map.mpr fun u inside => ?_⟩⟩
        · exact ⟨by decide, by decide, by decide, by decide, by decide, by decide⟩
        · exact ⟨symbol_fits fits valid inside,
            noZero_symbol (valid_of_validate valid) names inside⟩
    | null | relocations | symbolNames | names => cases body
  relocations := fun e member entries body r inside => by
    cases isPart_of_mem member with
    | @contents _ s => obtain other | other := body_mainSection s <;> cases other.symm.trans body
    | relocations found =>
        cases body
        obtain ⟨r, field, rfl⟩ := List.mem_map.mp inside
        exact rela_fits fits (valid_of_validate valid) (List.mem_of_getElem? found) field
    | null | symbols | symbolNames | names => cases body

end

/-- Emission of a valid object gives the bytes of a file that holds all of it, and reading these
bytes gives that file if its numbers have room for the object. A malformed object is refused with
the fault that validation finds. -/
theorem emit_keeps (o : Object) :
    (o.validate = .ok () → o.NulFree → o.emit = .ok o.elfFile.bytes ∧ o.StoredIn o.elfFile ∧
      (o.Encodable → Elf.read? o.elfFile.bytes = some o.elfFile)) ∧
    ∀ fault, o.validate = .error fault → o.emit = .error fault ∧
      ∀ s : Session, s.object? = some o → s.emitObject = .error (.emission fault) := by
  refine ⟨fun valid names => ⟨?_, storedIn_elfFile (valid_of_validate valid),
    fun fits => (storable_elfFile fits valid names).read?_bytes⟩, fun fault malformed => ?_⟩
  · rw [emit, valid]
    rfl
  · have refused : o.emit = .error fault := by
      rw [emit, malformed]
      rfl
    refine ⟨refused, fun s holds => ?_⟩
    rw [Session.emitObject, holds]
    simp only [refused]
    rfl

/-- A function that calls `puts` through an undefined symbol and reads data at the start of a
zero-filled section, beside a local and a global symbol of one name. -/
def sample : Object where
  sections :=
    [.ofBytes .text (List.replicate 16 0) 16
      [{ offset := 1, kind := .branch32, target := .symbol "puts", addend := -4 },
       { offset := 6, kind := .pc32, target := .sectionStart 1, addend := -4 },
       { offset := 11, kind := .abs32, target := .symbol "x", addend := 0 }],
     .zeroed 8 4]
  symbols :=
    [{ name := "f", kind := .function, sectionId := 0, offset := 0, size := 16, isGlobal := true },
     { name := "x", kind := .data, sectionId := 1, offset := 0, size := 4, isGlobal := false },
     { name := "x", kind := .data, sectionId := 1, offset := 4, size := 4, isGlobal := true }]

theorem emit_keeps_sample : sample.emit = .ok sample.elfFile.bytes ∧
    sample.StoredIn sample.elfFile ∧ Elf.read? sample.elfFile.bytes = some sample.elfFile := by
  have names : sample.NulFree := ⟨by decide +kernel, by decide +kernel, by decide +kernel⟩
  have fits : sample.Encodable := ⟨by decide +kernel, by decide +kernel, by decide +kernel⟩
  obtain ⟨emitted, stored, read⟩ := (emit_keeps sample).1 (by decide +kernel) names
  exact ⟨emitted, stored, read fits⟩

end Object
end LiveC
