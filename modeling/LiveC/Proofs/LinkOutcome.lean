import LiveC.Proofs.LayoutOutcome
import LiveC.Proofs.LinkedImage

/-!
When an object links, and the first fault that is found otherwise: in the object, in the
names, in the alignment of a section, and then in the relocations one after the other. What is
checked again while blocks are filled never fails behind validation.
-/

namespace LiveC
namespace Link

variable {o : Object} {registry : Registry} {l : ImageLayout} {regions written : List Region}
  {resolved : List (String × HostSymbol)} {s : Placement × Relocation} {q : Patch}

/-- A relocation that can be filled: what it leads to is of the kind that it expects, and in
reach. -/
def Fine (o : Object) (registry : Registry) (l : ImageLayout) (regions : List Region)
    (s : Placement × Relocation) : Prop :=
  ∃ S found, Refers o registry l regions s.2 S found ∧ s.2.Agrees found ∧
    s.2.InRange S (addressIn regions s.1.block (s.1.offset + s.2.offset))

/-- What is wrong with a relocation. The kind is looked at before the range. -/
inductive Offends (o : Object) (registry : Registry) (l : ImageLayout) (regions : List Region)
    (s : Placement × Relocation) : LinkError → Prop where
  | mismatch {S : Word} {expected kind : SymbolKind}
      (refers : Refers o registry l regions s.2 S (some kind))
      (isExpected : s.2.expected = some expected) (differ : expected ≠ kind) :
      Offends o registry l regions s (.kindMismatch s.2.target expected kind)
  | overflow {S : Word} {found : Option SymbolKind}
      (refers : Refers o registry l regions s.2 S found) (agrees : s.2.Agrees found)
      (beyond : ¬s.2.InRange S (addressIn regions s.1.block (s.1.offset + s.2.offset))) :
      Offends o registry l regions s (.overflow s.2.target s.2.kind
        (s.2.value S (addressIn regions s.1.block (s.1.offset + s.2.offset))))

/-- The first of the faults of an object. -/
inductive FirstFault (o : Object) (registry : Registry) (allocated : ImageLayout → List Region → Prop) :
    LinkError → Prop where
  | malformed {fault : ObjectFault} (invalid : o.validate = .error fault) :
      FirstFault o registry allocated (.malformed fault)
  | undefined {name : String} {others : List String} (valid : o.validate = .ok ())
      (missing : o.missingNames registry = name :: others) :
      FirstFault o registry allocated (.undefined name others)
  | alignment {s : Section} (valid : o.validate = .ok ()) (bound : o.missingNames registry = [])
      (misaligned : Object.misaligned? (o.sectionsOf SectionKind.all) = some s) :
      FirstFault o registry allocated (.alignment s.name s.align)
  | relocation {l : ImageLayout} {regions : List Region} {s : Placement × Relocation}
      {before after : List (Placement × Relocation)} {e : LinkError}
      (valid : o.validate = .ok ()) (bound : o.missingNames registry = [])
      (layout : o.layout = .ok l) (given : allocated l regions)
      (split : sites l = before ++ s :: after)
      (fine : ∀ t ∈ before, Fine o registry l regions t)
      (offends : Offends o registry l regions s e) : FirstFault o registry allocated e

/-- An object of which every part can be linked. -/
structure Linkable (o : Object) (registry : Registry)
    (allocated : ImageLayout → List Region → Prop) : Prop where
  valid : o.validate = .ok ()
  bound : ∀ name ∈ o.undefinedNames, registry.contains name = true
  aligned : ∀ s ∈ o.sections, s.align ≤ pageSize
  fine : ∀ l regions, o.layout = .ok l → allocated l regions → ∀ p ∈ l.placements,
    ∀ r ∈ p.source.relocations, Fine o registry l regions (p, r)

/-! ### Relocations -/

section

variable (plan : o.Plan registry l resolved) (sound : o.Sound l) (member : s ∈ sites l)
include plan sound member

theorem field_of_fine (fine : Fine o registry l regions s) :
    ∃ q, (contextOf o l regions resolved).field s.1 s.2 = .ok q := by
  obtain ⟨S, found, refers, agrees, range⟩ := fine
  obtain ⟨placed, site⟩ := mem_sites.mp member
  obtain ⟨T, kind, target, refers'⟩ := refers_of_plan regions plan sound (source_mem sound placed) site
  obtain ⟨rfl, rfl⟩ := refers.unique sound refers'
  exact ⟨_, field_of_inRange target agrees range⟩

theorem field_of_offends {e : LinkError} (offends : Offends o registry l regions s e) :
    (contextOf o l regions resolved).field s.1 s.2 = .error e := by
  obtain ⟨placed, site⟩ := mem_sites.mp member
  obtain ⟨T, kind, target, refers'⟩ := refers_of_plan regions plan sound (source_mem sound placed) site
  cases offends with
  | mismatch refers isExpected differ =>
      obtain ⟨rfl, rfl⟩ := refers.unique sound refers'
      have contrary : ¬s.2.Agrees (some _) := fun agrees => differ (agrees _ isExpected _ rfl)
      obtain ⟨expected, kind, isExpected', isKind, -, refused⟩ :=
        field_of_not_agrees (p := s.1) target contrary
      cases isKind
      rw [isExpected] at isExpected'
      cases isExpected'
      exact refused
  | overflow refers agrees beyond =>
      obtain ⟨rfl, rfl⟩ := refers.unique sound refers'
      exact field_of_not_inRange target agrees beyond

/-- A relocation can be filled or offends. -/
theorem fine_or_offends (regions : List Region) : Fine o registry l regions s ∨ ∃ e, Offends o registry l regions s e := by
  obtain ⟨placed, site⟩ := mem_sites.mp member
  obtain ⟨S, found, -, refers⟩ :=
    refers_of_plan regions plan sound (source_mem sound placed) site
  by_cases agrees : s.2.Agrees found
  case neg =>
    obtain ⟨expected, kind, isExpected, rfl, differ, -⟩ := Relocation.checkKind_of_not_agrees agrees
    exact .inr ⟨_, .mismatch refers isExpected differ⟩
  case pos =>
    by_cases range : s.2.InRange S (addressIn regions s.1.block (s.1.offset + s.2.offset))
    · exact .inl ⟨S, found, refers, agrees, range⟩
    · exact .inr ⟨_, .overflow refers agrees range⟩

end

/-! ### What is written fits -/

theorem region_of_block (zeroed : Zeroed l.blocks regions) {block size : Nat} {kind : SectionKind}
    (there : l.blocks[block]? = some (kind, size)) :
    ∃ r, regions[block]? = some r ∧ r.isSealed = false ∧ r.size = size := by
  rw [← zeroed.blocks, List.getElem?_map] at there
  obtain ⟨r, found, same⟩ := Option.map_eq_some_iff.mp there
  refine ⟨r, found, ?_, congrArg Prod.snd same⟩
  rw [zeroed.allocated r (List.mem_of_getElem? found)]
  rfl

theorem fits_of_covers (zeroed : Zeroed l.blocks regions) {size : Nat} {kind : SectionKind}
    (there : l.blocks[q.block]? = some (kind, size)) (inside : q.offset + q.bytes.length ≤ size) :
    q.Fits regions := by
  obtain ⟨r, found, writable, rfl⟩ := region_of_block zeroed there
  exact ⟨r, found, writable, inside⟩

theorem fits_copyPatch (plan : o.Plan registry l resolved) (sound : o.Sound l)
    (zeroed : Zeroed l.blocks regions) (member : q ∈ copyPatches l) : q.Fits regions := by
  obtain ⟨p, isPlaced, rfl⟩ := List.mem_map.mp member
  obtain ⟨placed, kind⟩ := List.mem_filter.mp isPlaced
  obtain ⟨size, there, inside⟩ := sound.inside p placed
  have length := (plan.valid.sections _ (source_mem sound placed)).size (of_decide_eq_true kind)
  rw [Placement.stop, length] at inside
  exact fits_of_covers zeroed there inside

theorem fits_stubPatch (sound : o.Sound l) (zeroed : Zeroed l.blocks regions) {s : String × Nat}
    (member : s ∈ l.stubs) (isStub : IsStub registry l s q) : q.Fits regions := by
  obtain ⟨host, code, size, -, text, rfl⟩ := isStub
  obtain ⟨code', size', text', inside⟩ := sound.hasStubs.inside s member
  obtain rfl := text_unique sound text text'
  refine fits_of_covers zeroed text' ?_
  rw [stubPatch, length_jumpStub]
  exact inside

theorem fits_fieldPatch (plan : o.Plan registry l resolved) (sound : o.Sound l)
    (zeroed : Zeroed l.blocks regions) (member : s ∈ sites l)
    (isField : IsField o registry l regions s q) : q.Fits regions := by
  obtain ⟨placed, site⟩ := mem_sites.mp member
  obtain ⟨S, found, -, -, rfl⟩ := isField
  obtain ⟨size, there, inside⟩ := sound.inside s.1 placed
  have valid := plan.valid.sections _ (source_mem sound placed)
  have field := valid.fields s.2 site
  have kind : s.1.source.kind ≠ .zero := fun zero => by
    rw [(valid.zero zero).2] at site
    cases site
  have length := valid.size kind
  refine fits_of_covers zeroed there ?_
  have bytes : (fieldPatch regions s.1 s.2 S).bytes.length = s.2.kind.width :=
    Binary.length_little ..
  rw [Placement.stop] at inside
  rw [bytes]
  change s.1.offset + s.2.offset + s.2.kind.width ≤ size
  omega

/-! ### Filling -/

/-- Patches that fit are written, whatever comes behind them. -/
theorem foldlM_write_append {ps : List Patch} (fits : ∀ p ∈ ps, p.Fits regions)
    (rest : List (Except LinkError Patch)) :
    ∃ written, (ps.map Except.ok ++ rest).foldlM write regions = rest.foldlM write written := by
  obtain ⟨written, done⟩ := patches_of_fits fits
  refine ⟨written, ?_⟩
  rw [List.foldlM_append, List.foldlM_map]
  exact except_bind_of_ok done

section

variable (plan : o.Plan registry l resolved) (sound : o.Sound l) (zeroed : Zeroed l.blocks regions)
include plan sound zeroed

theorem fields_of_fine {ts : List (Placement × Relocation)} (subset : ts ⊆ sites l)
    (fine : ∀ t ∈ ts, Fine o registry l regions t) : ∃ ps : List Patch,
      ts.map (fun t => (contextOf o l regions resolved).field t.1 t.2) = ps.map .ok ∧
        ∀ q ∈ ps, q.Fits regions := by
  have known : ∀ t ∈ ts, ∃ q, (contextOf o l regions resolved).field t.1 t.2 = .ok q ∧
      q.Fits regions := by
    intro t member
    obtain ⟨q, isPatch⟩ := field_of_fine plan sound (subset member) (fine t member)
    exact ⟨q, isPatch, fits_fieldPatch plan sound zeroed (subset member)
      (isField_of_field plan sound (subset member) isPatch)⟩
  obtain ⟨ps, all⟩ := exists_forall₂ known
  refine ⟨ps, map_eq_map_ok.mpr (all.imp fun _ _ h => h.1), fun q member => ?_⟩
  obtain ⟨t, -, -, fits⟩ := exists_of_forall₂ all member
  exact fits

/-- The sections and the stubs are written, and then come the fields. -/
theorem fill_eq_fields : ∃ ps : List Patch, (∀ q ∈ ps, q.Fits regions) ∧
    (contextOf o l regions resolved).patches = ps.map .ok ++
      (sites l).map fun t => (contextOf o l regions resolved).field t.1 t.2 := by
  obtain ⟨stubs, known, areStubs⟩ := stubs_of_plan regions plan sound
  refine ⟨copyPatches l ++ stubs, List.forall_mem_append.mpr
    ⟨fun q => fits_copyPatch plan sound zeroed, fun q member => ?_⟩, ?_⟩
  · obtain ⟨s, isStub, patch⟩ := exists_of_forall₂ areStubs member
    exact fits_stubPatch sound zeroed isStub patch
  · rw [Context.patches, copies_eq, known, fields_eq, List.map_append]
    rfl

theorem fill_of_fine (fine : ∀ t ∈ sites l, Fine o registry l regions t) :
    ∃ written, (contextOf o l regions resolved).fill regions = .ok written := by
  obtain ⟨ps, fits, patches⟩ := fill_eq_fields plan sound zeroed
  obtain ⟨fields, known, fieldFits⟩ := fields_of_fine plan sound zeroed (List.Subset.refl _) fine
  obtain ⟨written, done⟩ :=
    foldlM_write_append (List.forall_mem_append.mpr ⟨fits, fieldFits⟩) []
  refine ⟨written, ?_⟩
  rw [List.append_nil, List.map_append] at done
  rw [Context.fill, patches, known, done]
  rfl

theorem fill_of_offends {before after : List (Placement × Relocation)} {e : LinkError}
    (split : sites l = before ++ s :: after) (fine : ∀ t ∈ before, Fine o registry l regions t)
    (offends : Offends o registry l regions s e) :
    (contextOf o l regions resolved).fill regions = .error e := by
  have subset : before ⊆ sites l := split ▸ List.subset_append_left ..
  have member : s ∈ sites l := split ▸ List.mem_append_right _ (.head _)
  obtain ⟨ps, fits, patches⟩ := fill_eq_fields plan sound zeroed
  obtain ⟨fields, known, fieldFits⟩ := fields_of_fine plan sound zeroed subset fine
  have refused := field_of_offends plan sound member offends
  obtain ⟨written, done⟩ := foldlM_write_append (List.forall_mem_append.mpr ⟨fits, fieldFits⟩)
    (.error e :: after.map fun t => (contextOf o l regions resolved).field t.1 t.2)
  rw [Context.fill, patches, split, List.map_append, List.map_cons, known, refused,
    ← List.append_assoc, ← List.map_append, done]
  rfl

end

/-! ### Linking -/

theorem exists_first {α : Type} {P : α → Prop} {as : List α} (h : ¬∀ a ∈ as, P a) :
    ∃ before a after, as = before ++ a :: after ∧ (∀ b ∈ before, P b) ∧ ¬P a := by
  induction as with
  | nil => exact absurd (List.forall_mem_nil _) h
  | cons a as ih =>
      by_cases first : P a
      · obtain ⟨before, b, after, rfl, all, found⟩ :=
          ih fun rest => h (List.forall_mem_cons.mpr ⟨first, rest⟩)
        exact ⟨a :: before, b, after, rfl, List.forall_mem_cons.mpr ⟨first, all⟩, found⟩
      · exact ⟨[], a, as, rfl, List.forall_mem_nil _, first⟩

theorem plan_of_valid (valid : o.validate = .ok ()) :
    o.plan registry = match o.missingNames registry with
      | name :: others => .error (.undefined name others)
      | [] => do return (← o.layout, (registry.snapshot o.undefinedNames).1) := by
  unfold Object.plan
  rw [valid, ← Object.snapshot_missing, mapError_ok]
  cases registry.snapshot o.undefinedNames with
  | mk found unbound => cases unbound <;> rfl

/-- Names are missing if one is that is used. -/
theorem missingNames_eq_nil :
    o.missingNames registry = [] ↔ ∀ name ∈ o.undefinedNames, registry.contains name = true := by
  simp only [List.eq_nil_iff_forall_not_mem, Object.mem_missingNames, not_and, Bool.not_eq_false]

theorem misaligned?_eq_none :
    Object.misaligned? (o.sectionsOf SectionKind.all) = none ↔ ∀ s ∈ o.sections, s.align ≤ pageSize := by
  unfold Object.misaligned? Object.sectionsOf
  rw [List.find?_eq_none]
  constructor
  · intro h s member
    have listed : s ∈ SectionKind.all.flatMap fun k => o.sections.filter (·.kind = k) :=
      List.mem_flatMap.mpr ⟨s.kind, Object.all_kinds s.kind,
        List.mem_filter.mpr ⟨member, decide_eq_true rfl⟩⟩
    simpa using h s listed
  · intro h s member
    obtain ⟨kind, -, listed⟩ := List.mem_flatMap.mp member
    simpa using h s (List.mem_filter.mp listed).1

section

variable {σ : Type} {allocate : σ → Nat → Option (Word × σ)} {space space' : σ}

/-- The blocks that a layout is given. -/
def Allocates (allocate : σ → Nat → Option (Word × σ)) (space : σ) (l : ImageLayout)
    (regions : List Region) : Prop :=
  ∃ space', allocateBlocks allocate space l.blocks = .ok (regions, space')

theorem linkWith_of_malformed {fault : ObjectFault} (h : o.validate = .error fault) :
    o.linkWith allocate registry space = .error (.malformed fault) := by
  unfold Object.linkWith Object.plan
  rw [h]
  rfl

theorem linkWith_of_undefined {name : String} {others : List String} (valid : o.validate = .ok ())
    (missing : o.missingNames registry = name :: others) :
    o.linkWith allocate registry space = .error (.undefined name others) := by
  unfold Object.linkWith
  rw [plan_of_valid valid, missing]
  rfl

theorem linkWith_of_misaligned {t : Section} (valid : o.validate = .ok ())
    (bound : o.missingNames registry = []) (stubs : jumpStubSize * o.stubNames.length < 2 ^ 63)
    (misaligned : Object.misaligned? (o.sectionsOf SectionKind.all) = some t) :
    o.linkWith allocate registry space = .error (.alignment t.name t.align) := by
  have isValid := Object.valid_of_validate valid
  have fails := (Object.layout_outcome isValid (Object.blockSize_text_lt isValid stubs)).1 t misaligned
  unfold Object.linkWith
  rw [plan_of_valid valid, bound]
  exact except_bind_of_error (except_bind_of_error fails)

/-- Behind a plan and an allocation, linking is filling. -/
theorem linkWith_of_allocated (valid : o.validate = .ok ()) (bound : o.missingNames registry = [])
    (layout : o.layout = .ok l) (given : allocateBlocks allocate space l.blocks = .ok (regions, space')) :
    ∃ resolved, o.Plan registry l resolved ∧ o.linkWith allocate registry space = do
      let filled ← (contextOf o l regions resolved).fill regions
      return (⟨filled, (contextOf o l regions resolved).loadedSymbols,
        (contextOf o l regions resolved).stats⟩, space') := by
  have planned : o.plan registry = .ok (l, (registry.snapshot o.undefinedNames).1) := by
    rw [plan_of_valid valid, bound]
    exact except_bind_of_ok layout
  refine ⟨_, Object.plan_of_plan planned, ?_⟩
  unfold Object.linkWith
  rw [except_bind_of_ok planned]
  exact except_bind_of_ok given

theorem linkWith_of_firstFault {e : LinkError} (stubs : jumpStubSize * o.stubNames.length < 2 ^ 63)
    (h : FirstFault o registry (Allocates allocate space) e) :
    o.linkWith allocate registry space = .error e := by
  cases h with
  | malformed invalid => exact linkWith_of_malformed invalid
  | undefined valid missing => exact linkWith_of_undefined valid missing
  | alignment valid bound misaligned => exact linkWith_of_misaligned valid bound stubs misaligned
  | relocation valid bound layout given split fine offends =>
      obtain ⟨space', given⟩ := given
      obtain ⟨resolved, plan, links⟩ := linkWith_of_allocated valid bound layout given
      rw [links]
      exact except_bind_of_error (fill_of_offends plan (Object.sound_of_layout plan.valid layout)
        (zeroed_of_allocateBlocks given) split fine offends)

/-- A valid object with a layout has a fault or can be linked. -/
theorem linkable_or_firstFault (registry : Registry)
    (memory : ∀ l, o.layout = .ok l → ∃ r, allocateBlocks allocate space l.blocks = .ok r)
    (stubs : jumpStubSize * o.stubNames.length < 2 ^ 63) :
    Linkable o registry (Allocates allocate space) ∨
      ∃ e, FirstFault o registry (Allocates allocate space) e := by
  cases valid : o.validate with
  | error fault => exact .inr ⟨_, .malformed valid⟩
  | ok =>
  cases bound : o.missingNames registry with
  | cons name others => exact .inr ⟨_, .undefined valid bound⟩
  | nil =>
  cases aligned : Object.misaligned? (o.sectionsOf SectionKind.all) with
  | some t => exact .inr ⟨_, .alignment valid bound aligned⟩
  | none =>
  have isValid := Object.valid_of_validate valid
  obtain ⟨l, layout⟩ :=
    (Object.layout_outcome isValid (Object.blockSize_text_lt isValid stubs)).2 aligned
  obtain ⟨⟨regions, space'⟩, given⟩ := memory l layout
  obtain ⟨resolved, plan, -⟩ := linkWith_of_allocated valid bound layout given
  have sound := Object.sound_of_layout plan.valid layout
  by_cases fine : ∀ t ∈ sites l, Fine o registry l regions t
  · refine .inl ⟨valid, missingNames_eq_nil.mp bound, misaligned?_eq_none.mp aligned, ?_⟩
    rintro l' regions' layout' ⟨space'', given'⟩ p placed r site
    rw [layout] at layout'
    cases layout'
    rw [given] at given'
    cases given'
    exact fine _ (mem_sites.mpr ⟨placed, site⟩)
  · obtain ⟨before, t, after, split, all, first⟩ := exists_first fine
    have member : t ∈ sites l := split ▸ List.mem_append_right _ (.head _)
    obtain ⟨e, offends⟩ := (fine_or_offends plan sound member regions).resolve_left first
    exact .inr ⟨e, .relocation valid bound layout ⟨space', given⟩ split all offends⟩

theorem linkWith_of_linkable
    (memory : ∀ l, o.layout = .ok l → ∃ r, allocateBlocks allocate space l.blocks = .ok r)
    (stubs : jumpStubSize * o.stubNames.length < 2 ^ 63)
    (h : Linkable o registry (Allocates allocate space)) :
    ∃ r, o.linkWith allocate registry space = .ok r := by
  have valid := Object.valid_of_validate h.valid
  obtain ⟨l, layout⟩ := (Object.layout_outcome valid (Object.blockSize_text_lt valid stubs)).2
    (misaligned?_eq_none.mpr h.aligned)
  obtain ⟨⟨regions, space'⟩, given⟩ := memory l layout
  obtain ⟨resolved, plan, links⟩ :=
    linkWith_of_allocated h.valid (missingNames_eq_nil.mpr h.bound) layout given
  have fine : ∀ t ∈ sites l, Fine o registry l regions t := fun t member =>
    h.fine l regions layout ⟨space', given⟩ t.1 (mem_sites.mp member).1 t.2 (mem_sites.mp member).2
  obtain ⟨written, done⟩ := fill_of_fine plan (Object.sound_of_layout plan.valid layout)
    (zeroed_of_allocateBlocks given) fine
  rw [links]
  exact ⟨_, except_bind_of_ok done⟩

/-- The outcome of linking, if there is memory and room for the stubs. Behind validation an
object is never found malformed, and only names that are bound nowhere are reported. -/
theorem linkWith_outcome
    (memory : ∀ l, o.layout = .ok l → ∃ r, allocateBlocks allocate space l.blocks = .ok r)
    (stubs : jumpStubSize * o.stubNames.length < 2 ^ 63) :
    ((∃ r, o.linkWith allocate registry space = .ok r) ↔
      Linkable o registry (Allocates allocate space)) ∧
    (∀ e, o.linkWith allocate registry space = .error e ↔
      FirstFault o registry (Allocates allocate space) e) ∧
    (o.validate = .ok () → ∀ e, o.linkWith allocate registry space = .error e →
      (∀ fault, e ≠ .malformed fault) ∧ e.diagnostics = (o.missingNames registry).map fun n =>
        ⟨.link, .error, s!"undefined symbol: {n}", none⟩) := by
  have faults : ∀ e, o.linkWith allocate registry space = .error e ↔
      FirstFault o registry (Allocates allocate space) e := by
    refine fun e => ⟨fun fails => ?_, linkWith_of_firstFault stubs⟩
    rcases linkable_or_firstFault registry memory stubs with links | ⟨e', fault⟩
    · obtain ⟨r, links⟩ := linkWith_of_linkable memory stubs links
      rw [fails] at links
      cases links
    · have fails' := linkWith_of_firstFault stubs fault
      rw [fails] at fails'
      cases fails'
      exact fault
  refine ⟨⟨?_, linkWith_of_linkable memory stubs⟩, faults, fun valid e fails => ?_⟩
  · rintro ⟨r, links⟩
    rcases linkable_or_firstFault registry memory stubs with linkable | ⟨e, fault⟩
    · exact linkable
    · rw [(faults e).mpr fault] at links
      cases links
  · cases (faults e).mp fails with
    | malformed invalid =>
        rw [valid] at invalid
        cases invalid
    | undefined _ missing =>
        rw [missing]
        exact ⟨nofun, rfl⟩
    | alignment _ bound _ =>
        rw [bound]
        exact ⟨nofun, rfl⟩
    | relocation _ bound _ _ _ _ offends =>
        rw [bound]
        cases offends <;> exact ⟨nofun, rfl⟩

end

theorem linkWith_outcome_branchingObject :
    Linkable branchingObject branchedTo (Allocates AddressSpace.allocate? {}) ∧
      FirstFault branchingObject {} (Allocates AddressSpace.allocate? {}) (.undefined "puts" []) := by
  have memory : ∀ l, branchingObject.layout = .ok l →
      ∃ r, allocateBlocks AddressSpace.allocate? {} l.blocks = .ok r := by
    intro l layout
    have given : (branchingObject.layout >>= fun l =>
        allocateBlocks AddressSpace.allocate? {} l.blocks).isOk = true := by decide +kernel
    rw [except_bind_of_ok layout] at given
    cases blocks : allocateBlocks AddressSpace.allocate? {} l.blocks with
    | ok r => exact ⟨r, rfl⟩
    | error e =>
        rw [blocks] at given
        cases given
  have links : (branchingObject.linkWith AddressSpace.allocate? branchedTo {}).isOk = true := by
    decide +kernel
  constructor
  · cases linked : branchingObject.linkWith AddressSpace.allocate? branchedTo {} with
    | ok r => exact (linkWith_outcome memory (by decide +kernel)).1.mp ⟨r, linked⟩
    | error e =>
        rw [linked] at links
        cases links
  · exact ((linkWith_outcome memory (by decide +kernel)).2.1 _).mp
      (linkWith_of_undefined (by decide +kernel) (by decide +kernel))

end Link
end LiveC
