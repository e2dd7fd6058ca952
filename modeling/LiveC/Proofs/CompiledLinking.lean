import LiveC.Proofs.CompiledObjects
import LiveC.Proofs.LinkOutcome

/-!
Compiled objects link once their names are bound. Their relocations are addresses of eight bytes,
and calls through stubs that lie in the block of the calls, so no field is out of reach.
-/

namespace LiveC

/-- A relocation that is in reach wherever blocks and names lie: an address of eight bytes, or a
call in code. Its name is not one that the object has for others. -/
inductive Relocation.Reaches (o : Object) (s : Section) (r : Relocation) : Prop
  | address (kind : r.kind = .abs64) (least : -2 ^ 63 ≤ r.addend) (less : r.addend < 2 ^ 63)
      (unbound : ∀ name, r.target = .symbol name → o.global? name = none)
  | call {name : String} (code : s.kind = .text) (kind : r.kind = .branch32)
      (addend : r.addend = -4) (target : r.target = .symbol name) (unbound : o.global? name = none)

theorem Relocation.Reaches.unbound {o : Object} {s : Section} {r : Relocation} {name : String}
    (h : r.Reaches o s) (target : r.target = .symbol name) : o.global? name = none := by
  cases h with
  | address _ _ _ unbound => exact unbound name target
  | call _ _ _ target' unbound =>
      cases target.symm.trans target'
      exact unbound

namespace Link

variable {o : Object} {registry : Registry} {l : ImageLayout} {regions : List Region}

/-! ### Ranges -/

/-- Blocks that end in the lower half of all addresses. -/
def Low (regions : List Region) : Prop := ∀ r ∈ regions, r.base.toNat + r.size ≤ 2 ^ 63

instance : Decidable (Low regions) :=
  inferInstanceAs (Decidable (∀ r ∈ regions, r.base.toNat + r.size ≤ 2 ^ 63))

/-- Names that are bound in the lower half of all addresses. -/
def LowNames (registry : Registry) : Prop :=
  ∀ b ∈ registry.bindings, b.2.address.toNat < 2 ^ 63

instance : Decidable (LowNames registry) :=
  inferInstanceAs (Decidable (∀ b ∈ registry.bindings, b.2.address.toNat < 2 ^ 63))

/-- What is in a block is as far behind its start as its offset says. -/
theorem address_of_block (zeroed : Zeroed l.blocks regions) (low : Low regions)
    {block size : Nat} {kind : SectionKind} (there : l.blocks[block]? = some (kind, size)) :
    ∃ base, base + size ≤ 2 ^ 63 ∧
      ∀ offset ≤ size, (addressIn regions block offset).toNat = base + offset := by
  obtain ⟨r, found, -, rfl⟩ := region_of_block zeroed there
  have end' := low r (List.mem_of_getElem? found)
  refine ⟨r.base.toNat, end', fun offset le => ?_⟩
  unfold addressIn
  rw [found, BitVec.toNat_add, BitVec.toNat_ofNat]
  change (r.base.toNat + offset % 2 ^ 64) % 2 ^ 64 = _
  omega

section

variable {p : Placement} {r : Relocation} {S : Word} {found : Option SymbolKind}
  (sound : o.Sound l) (zeroed : Zeroed l.blocks regions) (low : Low regions)
  (refers : Refers o registry l regions r S found)
include sound zeroed low refers

/-- An address leads to a section or to a name that is bound. -/
theorem target_le (names : LowNames registry) (kind : r.kind = .abs64)
    (unbound : ∀ name, r.target = .symbol name → o.global? name = none) : S.toNat ≤ 2 ^ 63 := by
  cases refers with
  | @start id q target placed =>
      obtain ⟨size, there, inside⟩ := sound.inside q (List.mem_of_getElem? placed)
      obtain ⟨base, end', at'⟩ := address_of_block zeroed low there
      unfold Placement.stop at inside
      rw [at' q.offset (by omega)]
      omega
  | own target known =>
      rw [unbound _ target] at known
      cases known
  | host target isUndefined bound => exact Nat.le_of_lt (names _ (mem_of_lookup bound))
  | stub target isUndefined bound branch => cases kind.symm.trans branch

/-- A call leads to a stub, which lies behind all code in the same block. -/
theorem stub_behind (valid : o.Valid) (code : ∀ size, (SectionKind.text, size) ∈ l.blocks → size < 2 ^ 31)
    {name : String} (placed : p ∈ l.placements) (site : r ∈ p.source.relocations)
    (inCode : p.source.kind = .text) (kind : r.kind = .branch32) (target : r.target = .symbol name)
    (unbound : o.global? name = none) :
    ∃ base offset : Nat, S.toNat = base + offset ∧
      (addressIn regions p.block (p.offset + r.offset)).toNat = base + (p.offset + r.offset) ∧
      p.offset + r.offset + 4 ≤ offset ∧ offset < 2 ^ 31 := by
  cases refers with
  | start target' => cases target.symm.trans target'
  | own target' known =>
      cases target.symm.trans target'
      rw [unbound] at known
      cases known
  | host _ _ _ other => exact absurd kind other
  | @stub name host block size offset target' _ _ _ stub text =>
      obtain ⟨size', there, inside⟩ := sound.inside p placed
      rw [inCode] at there
      obtain rfl := text_unique sound text there
      rw [text] at there
      cases there
      obtain ⟨base, -, at'⟩ := address_of_block zeroed low text
      have isStub := mem_of_lookup stub
      obtain ⟨block', size', text', fits⟩ := sound.hasStubs.inside _ isStub
      obtain rfl := text_unique sound text text'
      rw [text] at text'
      cases text'
      have behind := sound.hasStubs.behind p placed inCode _ isStub
      have small := code _ (List.mem_of_getElem? text)
      have section' := valid.sections _ (source_mem sound placed)
      have field := section'.fields r site
      rw [← section'.size (by rw [inCode]; nofun), kind] at field
      change r.offset + 4 ≤ p.source.size at field
      unfold Placement.stop at behind
      dsimp only at behind fits
      refine ⟨base, offset, at' _ (by omega), at' _ (by omega), by omega, by omega⟩

/-- The field has room for what it must hold. -/
theorem inRange_of_reaches (valid : o.Valid) (names : LowNames registry)
    (code : ∀ size, (SectionKind.text, size) ∈ l.blocks → size < 2 ^ 31)
    (placed : p ∈ l.placements) (site : r ∈ p.source.relocations) (reaches : r.Reaches o p.source) :
    r.InRange S (addressIn regions p.block (p.offset + r.offset)) := by
  unfold Relocation.InRange
  cases reaches with
  | address kind least less unbound =>
      have le := target_le sound zeroed low refers names kind unbound
      rw [kind]
      dsimp only
      omega
  | call inCode kind addend target unbound =>
      obtain ⟨base, offset, isTarget, isSite, behind, small⟩ :=
        stub_behind sound zeroed low refers valid code placed site inCode kind target unbound
      rw [kind, addend, isTarget, isSite]
      dsimp only
      omega

end

/-! ### Objects -/

/-- Linking succeeds, or fails for a name that the object does not define: the name is not bound,
or bound to something of another kind than it is taken for. -/
inductive Outcome (o : Object) (registry : Registry) (taken : String → SymbolKind → Prop)
    {α : Type} : Except LinkError α → Prop
  | links (image : α) : Outcome o registry taken (.ok image)
  | undefined {name : String} {others : List String}
      (missing : ∀ n ∈ name :: others, n ∈ o.undefinedNames ∧ registry.contains n = false) :
      Outcome o registry taken (.error (.undefined name others))
  | mismatch {name : String} {expected : SymbolKind} {host : HostSymbol}
      (used : name ∈ o.undefinedNames) (takes : taken name expected)
      (bound : registry.find? name = some host) (differ : expected ≠ host.kind) :
      Outcome o registry taken (.error (.kindMismatch (.symbol name) expected host.kind))

theorem Outcome.mono {taken taken' : String → SymbolKind → Prop} {α : Type}
    {r : Except LinkError α} (h : Outcome o registry taken r)
    (more : ∀ name kind, taken name kind → taken' name kind) : Outcome o registry taken' r := by
  cases h with
  | links image => exact .links image
  | undefined missing => exact .undefined missing
  | mismatch used takes bound differ => exact .mismatch used (more _ _ takes) bound differ

section

variable {σ : Type} {allocate : σ → Nat → Option (Word × σ)} {space : σ}

/-- Linking an object of relocations that are in reach fails for names only. -/
theorem linkWith_of_reaches (valid : o.validate = .ok ()) (aligned : ∀ s ∈ o.sections, s.align ≤ pageSize)
    (reaches : ∀ s ∈ o.sections, ∀ r ∈ s.relocations, r.Reaches o s) (names : LowNames registry)
    (code : o.blockSize .text < 2 ^ 31) (memory : ∀ l, o.layout = .ok l →
      ∃ regions space', allocateBlocks allocate space l.blocks = .ok (regions, space') ∧ Low regions) :
    Outcome o registry
      (fun name kind => ∃ r ∈ o.relocations, r.target = .symbol name ∧ r.expected = some kind)
      (o.linkWith allocate registry space) := by
  have given : ∀ l, o.layout = .ok l → ∃ r, allocateBlocks allocate space l.blocks = .ok r :=
    fun l layout => by
      obtain ⟨regions, space', given, -⟩ := memory l layout
      exact ⟨_, given⟩
  have stubs : jumpStubSize * o.stubNames.length < 2 ^ 63 :=
    Nat.lt_of_le_of_lt (Object.le_stubsEnd ..) (Nat.lt_trans code (by decide))
  rcases linkable_or_firstFault registry given stubs with linkable | ⟨e, fault⟩
  · obtain ⟨image, links⟩ := linkWith_of_linkable given stubs linkable
    rw [links]
    exact .links image
  rw [linkWith_of_firstFault stubs fault]
  cases fault with
  | malformed invalid => cases valid.symm.trans invalid
  | undefined _ missing =>
      refine .undefined fun n member => ?_
      rw [← missing] at member
      exact Object.mem_missingNames.mp member
  | alignment _ _ misaligned =>
      rw [misaligned?_eq_none.mpr aligned] at misaligned
      cases misaligned
  | @relocation l regions s before after _ _ bound layout blocks split fine offends =>
      obtain ⟨space', blocks⟩ := blocks
      obtain ⟨regions', space'', blocks', low⟩ := memory l layout
      cases blocks.symm.trans blocks'
      have sound := Object.sound_of_layout (Object.valid_of_validate valid) layout
      obtain ⟨placed, site⟩ := mem_sites.mp (split ▸ List.mem_append_right before (.head after))
      have source := source_mem sound placed
      have reaches := reaches _ source _ site
      cases offends with
      | overflow refers agrees beyond =>
          refine absurd (inRange_of_reaches sound (zeroed_of_allocateBlocks blocks) low refers
            (Object.valid_of_validate valid) names (fun size text => ?_) placed site reaches) beyond
          exact (Object.size_of_layout layout _ text).trans_lt code
      | mismatch refers isExpected differ =>
          have known : s.2 ∈ o.relocations := List.mem_flatMap.mpr ⟨_, source, site⟩
          cases refers with
          | own target found =>
              rw [reaches.unbound target] at found
              cases found
          | host target unbound found | stub target unbound found =>
              have used := Object.mem_undefinedNames.mpr ⟨⟨_, known, target⟩, unbound⟩
              rw [target]
              exact .mismatch used ⟨_, known, target, isExpected⟩ found differ

end

end Link

/-! ### What units refer to -/

theorem SymbolTable.hasKind_of_definition? {t : SymbolTable} {name : String} {isFunction : Bool}
    (h : t.definition? name = some isFunction) : t.HasKind name isFunction := by
  obtain ⟨s, found, defined⟩ := Option.bind_eq_some_iff.mp h
  unfold GlobalSymbol.definition at defined
  split at defined
  · exact ⟨s, found, Option.some.inj defined⟩
  · cases defined

namespace Lowering

variable {u : TranslationUnit} {d : DataLayout} {code : UnitCode} {name : String}

theorem declaredKind_of_hasKind {isFunction : Bool} (h : u.symbols.HasKind name isFunction) :
    declaredKind u name = some (.ofDeclared isFunction) := by
  obtain ⟨s, found, rfl⟩ := h
  unfold declaredKind
  rw [found]
  rfl

/-- The object defines only names of its functions and variables for others. -/
theorem mem_names_of_global? {s : ObjectSymbol} (h : (objectOf u d code).global? name = some s) :
    name ∈ u.functions.map (·.name) ∨
      ∃ g ∈ u.globals, g.name = name ∧ g.isStatic = false ∧ globalSymbol d g = some s := by
  have visible := List.find?_some h
  obtain ⟨isGlobal, named⟩ := Bool.and_eq_true_iff.mp visible
  obtain rfl := eq_of_beq named
  rcases List.mem_append.mp (List.mem_of_find?_eq_some h) with isFunction | isVariable
  · left
    rw [← names_functionSymbols u code]
    exact List.mem_map_of_mem isFunction
  · obtain ⟨g, member, found⟩ := List.mem_filterMap.mp isVariable
    obtain ⟨same, -, visible⟩ := globalSymbol_eq_some found
    rw [isGlobal] at visible
    exact .inr ⟨g, member, same.symm, by simpa using visible, found⟩

theorem not_mem_of_noEntry (h : (unitLayout u d).entries.lookup name = none) :
    name ∉ u.functions.map (·.name) := by
  have names : (unitLayout u d).entries.map Prod.fst = u.functions.map (·.name) := by
    unfold unitLayout
    rw [List.map_map]
    exact map_zipIdx_names (fun _ => rfl) u.functions
  exact names ▸ not_mem_of_lookup h

/-- An imported name is not one that the object has for others. -/
theorem global?_of_imported (imported : (unitLayout u d).target name = .imported name) :
    (objectOf u d code).global? name = none := by
  obtain ⟨noEntry, noPlace, -⟩ := UnitLayout.target_of_imported imported
  cases found : (objectOf u d code).global? name with
  | none => rfl
  | some s =>
      rcases mem_names_of_global? found with isFunction | ⟨g, -, rfl, -, symbol⟩
      · exact absurd isFunction (not_mem_of_noEntry noEntry)
      · obtain ⟨⟨kind, offset⟩, placed, -⟩ := Option.map_eq_some_iff.mp symbol
        have absent : g.name ∉ (unitLayout u d).data.map Prod.fst := not_mem_of_lookup noPlace
        have present : (g.name, d.sectionId kind, offset) ∈ (unitLayout u d).data :=
          List.mem_map.mpr ⟨_, mem_of_lookup placed, rfl⟩
        exact absurd (List.mem_map_of_mem present) absent

theorem asAddend_bounds (n : Int) : -2 ^ 63 ≤ asAddend n ∧ asAddend n < 2 ^ 63 :=
  ⟨BitVec.le_toInt _, BitVec.toInt_lt⟩

/-- A relocation takes identifiers for what they are declared as. -/
def TakesDeclared (u : TranslationUnit) (r : Relocation) : Prop :=
  ∀ name expected, r.target = .symbol name → r.expected = some expected → IsPlain name →
    declaredKind u name = some expected

theorem imported_of_relocTarget {assembled : Assembled Reference} {target : CodeTarget}
    (h : (relocTarget assembled target).1 = .symbol name) : target = .imported name := by
  cases target with
  | imported => exact congrArg CodeTarget.imported (RelocTarget.symbol.inj h)
  | entry | place => cases h

theorem reaches_dataRelocation (a : DataAddress) (s : Section) :
    (dataRelocation u (unitLayout u d) code.layout a).Reaches (objectOf u d code) s ∧
      TakesDeclared u (dataRelocation u (unitLayout u d) code.layout a) := by
  unfold dataRelocation TakesDeclared
  constructor
  · refine .address rfl (asAddend_bounds _).1 (asAddend_bounds _).2 fun name target => ?_
    have imported := imported_of_relocTarget target
    split at imported
    case h_1 other _ =>
      obtain ⟨-, -, rfl⟩ := UnitLayout.target_of_imported imported
      exact global?_of_imported imported
    case h_2 => cases imported
  · intro name expected target isExpected plain
    have imported := imported_of_relocTarget target
    dsimp only at isExpected
    split at imported
    case h_1 other isName =>
      obtain ⟨-, -, rfl⟩ := UnitLayout.target_of_imported imported
      rw [isName] at isExpected
      dsimp only at isExpected
      rw [imported] at isExpected
      exact isExpected
    case h_2 => cases imported

theorem address_of_mem_relocations {layout : UnitLayout} {assembled : Assembled Reference}
    {kind : DataKind} {r : Relocation}
    (h : r ∈ (dataSection u layout assembled d kind).relocations) :
    ∃ a ∈ d.addresses, dataRelocation u layout assembled a = r := by
  cases kind with
  | zero => cases h
  | data | readOnly =>
      obtain ⟨a, member, same⟩ := List.mem_map.mp h
      exact ⟨a, (List.mem_filter.mp member).1, same⟩

section

variable {declaring : List Nat} {current : Option (String × CType)} {statics : Nat}
  (recorded : u.Recorded declaring current statics)
include recorded

/-- A name that is called is that of a function here or elsewhere, and not of a variable. -/
theorem global?_of_call (noEntry : (unitLayout u d).entries.lookup name = none)
    (declared : u.symbols.Declares name true) : (objectOf u d code).global? name = none := by
  cases found : (objectOf u d code).global? name with
  | none => rfl
  | some s =>
      rcases mem_names_of_global? found with isFunction | ⟨g, member, rfl, visible, -⟩
      · exact absurd isFunction (not_mem_of_noEntry noEntry)
      · obtain ⟨plain, defined⟩ | ⟨isStatic, -⟩ := recorded.globals g member
        · have isVariable := SymbolTable.hasKind_of_definition? defined
          cases (declared plain).unique isVariable
        · cases visible.symm.trans isStatic

theorem reaches_codeRelocation {f : Field} {site : Nat × Reference} {s : Section}
    (text : s.kind = .text) (refers : (unitLayout u d).Refers u.symbols.Declares f site.2) :
    (codeRelocation code.layout site).Reaches (objectOf u d code) s ∧
      TakesDeclared u (codeRelocation code.layout site) := by
  have addend : -2 ^ 63 ≤ (codeRelocation code.layout site).addend ∧
      (codeRelocation code.layout site).addend < 2 ^ 63 := asAddend_bounds _
  obtain ⟨offset, r⟩ := site
  dsimp only at refers
  cases refers with
  | entry | place => exact ⟨.address rfl addend.1 addend.2 nofun, nofun⟩
  | @imported _ name isFunction uses isImported =>
      refine ⟨.address rfl addend.1 addend.2 ?_, ?_⟩
      · rintro _ ⟨⟩
        exact global?_of_imported isImported
      · rintro _ _ ⟨⟩ ⟨⟩ plain
        exact declaredKind_of_hasKind (uses plain)
  | @call name uses noEntry =>
      refine ⟨.call text rfl rfl rfl (global?_of_call recorded noEntry uses), ?_⟩
      rintro _ _ ⟨⟩ ⟨⟩ plain
      exact declaredKind_of_hasKind (uses plain)

/-- All relocations of a unit are in reach, and take identifiers for what they are declared as. -/
theorem reaches_objectOf (refers : code.Links ((unitLayout u d).Refers u.symbols.Declares)) :
    ∀ s ∈ (objectOf u d code).sections, ∀ r ∈ s.relocations,
      r.Reaches (objectOf u d code) s ∧ TakesDeclared u r := by
  intro s member r site
  rcases List.mem_cons.mp member with rfl | data
  · obtain ⟨field, isField, rfl⟩ := List.mem_map.mp site
    obtain ⟨f, start, linked, -⟩ := code.layout_spec.2 field isField
    exact reaches_codeRelocation recorded rfl (refers f _ linked)
  · obtain ⟨kind, -, rfl⟩ := List.mem_map.mp data
    obtain ⟨a, -, rfl⟩ := address_of_mem_relocations site
    exact reaches_dataRelocation a _

end

/-- Sections are aligned as blocks of pages can meet. -/
theorem align_objectOf (code : UnitCode) (holds : d.Holds u.globals) :
    ∀ s ∈ (objectOf u d code).sections, 0 < s.align ∧ s.align ≤ pageSize := by
  intro s member
  rcases List.mem_cons.mp member with rfl | data
  · exact (by decide : 0 < textAlign ∧ textAlign ≤ pageSize)
  · obtain ⟨kind, -, rfl⟩ := List.mem_map.mp data
    have aligned : 0 < (d.buffer kind).align ∧ (d.buffer kind).align ≤ pageSize := by
      rcases holds.aligned kind with h | h | h | h <;> rw [h] <;> decide
    cases kind <;> exact aligned

/-- Sections are as small as validation wants them if the block of code is, and all data. -/
theorem size_le_maxExtent {o : Object} (positive : ∀ s ∈ o.sections, 0 < s.align)
    (small : o.blockSize .text < 2 ^ 31) (data : ∀ s ∈ o.sections, s.kind ≠ .text → s.size < 2 ^ 62) :
    ∀ s ∈ o.sections, s.size ≤ Object.maxExtent := by
  intro s member
  by_cases text : s.kind = .text
  · have le := Object.size_le_blockSize positive member
    rw [text] at le
    exact (le.trans small.le).trans (by decide)
  · exact Nat.le_pred_of_lt (data s member text)

end Lowering

open Lowering

/-- Compiled objects link once their names are bound to what the source declares them as. Nothing
is ever out of reach, malformed or misaligned. -/
theorem linkWith_of_compileSource {source : String} {options : CompileOptions} {object : Object}
    {warnings : List Diagnostic} {registry : Registry} {σ : Type}
    {allocate : σ → Nat → Option (Word × σ)} {space : σ}
    (compiled : compileSource source options = .ok (object, warnings))
    (code : object.blockSize .text < 2 ^ 31)
    (data : ∀ s ∈ object.sections, s.kind ≠ .text → s.size < 2 ^ 62) (names : Link.LowNames registry)
    (memory : ∀ l, object.layout = .ok l → ∃ regions space',
      Link.allocateBlocks allocate space l.blocks = .ok (regions, space') ∧ Link.Low regions) :
    ∃ unit, parseSource source options.defines = .ok (unit, warnings) ∧
      Link.Outcome object registry
        (fun name kind => IsPlain name → declaredKind unit name = some kind)
        (object.linkWith allocate registry space) := by
  obtain ⟨u, assembled, parsed, rfl, ⟨current, statics, recorded⟩, refers⟩ := compiled_eq_ok compiled
  have holds := DataLayout.holds_ofUnit recorded.contained
  have aligned := align_objectOf assembled holds
  have relocations := reaches_objectOf recorded refers
  have valid := validate_objectOf recorded holds refers
    (size_le_maxExtent (fun s member => (aligned s member).1) code data)
  have outcome := Link.linkWith_of_reaches valid (fun s member => (aligned s member).2)
    (fun s member r site => (relocations s member r site).1) names code memory
  refine ⟨u, parsed, outcome.mono fun name kind taken plain => ?_⟩
  obtain ⟨r, known, target, expected⟩ := taken
  obtain ⟨s, member, site⟩ := List.mem_flatMap.mp known
  exact (relocations s member r site).2 name kind target expected plain

/-- A function of the host that lies as far away from the code as it can. -/
theorem linkWith_of_farFunction :
    let source := "int f(int); int x; int *p = &x; int g(int a) { return f(a) + *p; }"
    let registry : Registry := { bindings := [("f", ⟨.function, 0x7fffffffffffffff, none⟩)] }
    ∃ object warnings unit, compileSource source {} = .ok (object, warnings) ∧
      object.stubNames = ["f"] ∧ parseSource source [] = .ok (unit, warnings) ∧
      Link.Outcome object registry
        (fun name kind => IsPlain name → declaredKind unit name = some kind)
        (object.linkWith AddressSpace.allocate? registry {}) := by
  intro source registry
  have facts : (compileSource source {}).toOption.any (fun r => r.1.stubNames = ["f"] ∧
      r.1.blockSize .text < 2 ^ 31 ∧ (∀ s ∈ r.1.sections, s.kind ≠ .text → s.size < 2 ^ 62) ∧
      (r.1.layout >>= fun l => Link.allocateBlocks AddressSpace.allocate? {} l.blocks).toOption.any
        fun blocks => Link.Low blocks.1) = true := by
    rw [compileSource, parseSource_of_bytes (Text.toByteChars_of_all ?_)]
    all_goals decide +kernel
  obtain ⟨r, compiled, facts⟩ := exists_of_toOption_any facts
  obtain ⟨stub, code, data, given⟩ := of_decide_eq_true facts
  have memory : ∀ l, r.1.layout = .ok l → ∃ regions space',
      Link.allocateBlocks AddressSpace.allocate? {} l.blocks = .ok (regions, space') ∧
        Link.Low regions := by
    intro l layout
    rw [layout, except_bind_of_ok rfl] at given
    obtain ⟨granted, blocks, low⟩ := exists_of_toOption_any given
    exact ⟨granted.1, granted.2, blocks, of_decide_eq_true low⟩
  have low : Link.LowNames registry := by decide
  obtain ⟨unit, parsed, outcome⟩ := linkWith_of_compileSource compiled code data low memory
  exact ⟨r.1, r.2, unit, compiled, stub, parsed, outcome⟩

end LiveC
