import LiveC.Proofs.LayoutSound

/-!
What a layout comes to. Sections and stubs that are placed in order end where the sum of their
rounded sizes says, so that whether there is a layout is decided by alignments and that sum alone.
-/

namespace LiveC
namespace Object
variable {kind : SectionKind} {n m align block offset stop : Nat} {l : List (Section × Nat)}
  {ps : List Placement} {names : List String} {stubs : List (String × Nat)}

/-! ### When there is a layout -/

/-- A section of an alignment that blocks of pages cannot meet. -/
def misaligned? (sections : List Section) : Option Section := sections.find? (pageSize < ·.align)

theorem le_foldl_sectionEnd {sections : List Section} (positive : ∀ s ∈ sections, 0 < s.align)
    (offset : Nat) : offset ≤ sections.foldl sectionEnd offset := by
  induction sections generalizing offset with
  | nil => exact Nat.le_refl _
  | cons s sections ih =>
      obtain ⟨positive, others⟩ := List.forall_mem_cons.mp positive
      have behind : offset ≤ alignUp offset s.align := le_alignUp offset positive
      exact (behind.trans (Nat.le_add_right ..)).trans (ih others (sectionEnd offset s))

/-- Sections of a bounded extent are placed up to it, unless one of them cannot be aligned. -/
theorem placeSections_outcome (kind : SectionKind) (block offset : Nat) (positive : ∀ s ∈ l, 0 < s.1.align)
    (bound : (l.map Prod.fst).foldl sectionEnd offset ≤ maxExtent) :
    (∀ s ∈ misaligned? (l.map Prod.fst),
      placeSections kind block offset l = .error (.alignment s.name s.align)) ∧
    (misaligned? (l.map Prod.fst) = none → ∃ ps,
      placeSections kind block offset l = .ok (ps, (l.map Prod.fst).foldl sectionEnd offset)) := by
  induction l generalizing offset with
  | nil => exact ⟨fun _ h => absurd h (Option.not_mem_none _), fun _ => ⟨[], rfl⟩⟩
  | cons s l ih =>
      obtain ⟨s, id⟩ := s
      obtain ⟨first, others⟩ := List.forall_mem_cons.mp positive
      have rest := le_foldl_sectionEnd (List.forall_mem_map.mpr others) (sectionEnd offset s)
      rw [List.map_cons, List.foldl_cons] at bound
      obtain ⟨fails, succeeds⟩ := ih (sectionEnd offset s) others bound
      unfold misaligned? at fails succeeds ⊢
      unfold placeSections
      rw [List.map_cons, List.foldl_cons]
      by_cases page : pageSize < s.align
      case pos =>
        rw [List.find?_cons_of_pos (by simpa using page), if_pos page]
        refine ⟨fun t same => ?_, fun h => absurd h (Option.some_ne_none _)⟩
        cases Option.mem_some.mp same
        rfl
      case neg =>
        rw [List.find?_cons_of_neg (by simpa using page), if_neg page]
        have behind : offset ≤ alignUp offset s.align := le_alignUp offset first
        have start : alignOffset kind offset s.align = .ok (alignUp offset s.align) := by
          refine alignOffset_eq_ok.mpr ⟨?_, rfl⟩
          simp only [sectionEnd, maxExtent, Word.modulus, pageSize] at *
          omega
        have stop : checkOffset kind (alignUp offset s.align + s.size) = .ok (sectionEnd offset s) := by
          refine checkOffset_eq_ok.mpr ⟨?_, rfl⟩
          simp only [sectionEnd, maxExtent, Word.modulus] at *
          omega
        rw [except_bind_of_ok start, except_bind_of_ok stop]
        constructor
        · intro t found
          exact except_bind_of_error (fails t found)
        · intro met
          obtain ⟨ps, placed⟩ := succeeds met
          exact ⟨⟨id, s, block, alignUp offset s.align⟩ :: ps, except_bind_of_ok placed⟩

theorem placeStubs_succeeds (offset : Nat) (names : List String)
    (bound : offset + jumpStubSize * names.length < Word.modulus) :
    ∃ stubs, placeStubs offset names = .ok (stubs, offset + jumpStubSize * names.length) := by
  induction names generalizing offset with
  | nil => exact ⟨[], rfl⟩
  | cons name names ih =>
      rw [List.length_cons, Nat.mul_succ] at bound
      have stop : checkOffset .text (offset + jumpStubSize) = .ok (offset + jumpStubSize) :=
        checkOffset_eq_ok.mpr ⟨by omega, rfl⟩
      obtain ⟨stubs, placed⟩ := ih (offset + jumpStubSize) (by omega)
      refine ⟨(name, offset) :: stubs, ?_⟩
      rw [placeStubs, except_bind_of_ok stop, except_bind_of_ok placed, List.length_cons,
        Nat.mul_succ, Nat.add_assoc, Nat.add_comm jumpStubSize]
      rfl

/-- Where the stubs of names end behind code that ends at an offset. -/
def stubsEnd (offset : Nat) (names : List String) : Nat :=
  if names.isEmpty then offset else alignUp offset jumpStubSize + jumpStubSize * names.length

/-- Stubs are placed behind code of a bounded extent if they end within the words. -/
theorem placeStubsBehind_succeeds (names : List String) (extent : offset ≤ maxExtent)
    (room : stubsEnd offset names < Word.modulus) : ∃ r, placeStubsBehind offset names = .ok r := by
  unfold placeStubsBehind
  unfold stubsEnd at room
  split
  case isTrue => exact ⟨_, rfl⟩
  case isFalse nonempty =>
    rw [if_neg nonempty] at room
    have start : alignOffset .text offset jumpStubSize = .ok (alignUp offset jumpStubSize) := by
      refine alignOffset_eq_ok.mpr ⟨?_, rfl⟩
      simp only [maxExtent, Word.modulus, jumpStubSize] at *
      omega
    obtain ⟨stubs, placed⟩ := placeStubs_succeeds (alignUp offset jumpStubSize) names room
    rw [except_bind_of_ok start]
    exact ⟨_, placed⟩

/-- The size of the block of a kind: the sections, and the stubs if it is that of code. -/
def blockSize (o : Object) (kind : SectionKind) : Nat :=
  stubsEnd ((o.sections.filter (·.kind = kind)).foldl sectionEnd 0) (o.stubNamesIn kind)

/-- The sections in the order in which they are placed, kind by kind. -/
def sectionsOf (o : Object) (kinds : List SectionKind) : List Section :=
  kinds.flatMap fun k => o.sections.filter (·.kind = k)

variable {o : Object}

theorem map_fst_zipIdx_filter (o : Object) (kind : SectionKind) :
    (o.sections.zipIdx.filter (·.1.kind = kind)).map Prod.fst = o.sections.filter (·.kind = kind) := by
  rw [← List.zipIdx_map_fst 0 o.sections, List.filter_map, List.zipIdx_map_fst]
  rfl

/-- The stubs of a valid object end within the words if they take no more than half of them. -/
theorem blockSize_text_lt (valid : o.Valid) (stubs : jumpStubSize * o.stubNames.length < 2 ^ 63) :
    o.blockSize .text < Word.modulus := by
  have extent := valid.extents .text
  have near : alignUp ((o.sections.filter (·.kind = .text)).foldl sectionEnd 0) jumpStubSize <
      (o.sections.filter (·.kind = .text)).foldl sectionEnd 0 + jumpStubSize := alignUp_lt _ (by decide)
  have names : o.stubNamesIn .text = o.stubNames := if_pos rfl
  unfold blockSize stubsEnd
  rw [names]
  simp only [maxExtent, Word.modulus, jumpStubSize] at *
  split <;> omega

/-- All blocks end within the words if the stubs do. -/
theorem blockSize_lt (valid : o.Valid) (room : o.blockSize .text < Word.modulus)
    (kind : SectionKind) : o.blockSize kind < Word.modulus := by
  by_cases code : kind = .text
  case pos => rwa [code]
  case neg =>
    have none : o.stubNamesIn kind = [] := if_neg code
    have extent := valid.extents kind
    unfold blockSize
    rw [none]
    exact Nat.lt_of_le_of_lt extent (by decide)

theorem placeKind_outcome (valid : o.Valid) (room : o.blockSize .text < Word.modulus)
    (l : ImageLayout) (kind : SectionKind) :
    (∀ s ∈ misaligned? (o.sections.filter (·.kind = kind)),
      o.placeKind l kind = .error (.alignment s.name s.align)) ∧
    (misaligned? (o.sections.filter (·.kind = kind)) = none → ∃ l', o.placeKind l kind = .ok l') := by
  have same := map_fst_zipIdx_filter o kind
  have outcome := placeSections_outcome kind l.blocks.length 0
    (l := o.sections.zipIdx.filter (·.1.kind = kind)) ?_ ?_
  case refine_1 =>
    intro s member
    exact valid.positive s.1 (List.mem_of_getElem? (mem_zipIdx_filter.mp member).1)
  case refine_2 =>
    rw [same]
    exact valid.extents kind
  rw [same] at outcome
  obtain ⟨fails, succeeds⟩ := outcome
  unfold placeKind
  constructor
  · intro s found
    exact except_bind_of_error (fails s found)
  · intro met
    obtain ⟨ps, placed⟩ := succeeds met
    obtain ⟨r, behind⟩ := placeStubsBehind_succeeds (o.stubNamesIn kind)
      (valid.extents kind) (blockSize_lt valid room kind)
    rw [except_bind_of_ok placed]
    exact ⟨_, except_bind_of_ok behind⟩

theorem placeKinds_outcome (valid : o.Valid) (room : o.blockSize .text < Word.modulus)
    (l : ImageLayout) (kinds : List SectionKind) :
    (∀ s ∈ misaligned? (o.sectionsOf kinds),
      kinds.foldlM o.placeKind l = .error (.alignment s.name s.align)) ∧
    (misaligned? (o.sectionsOf kinds) = none → ∃ l', kinds.foldlM o.placeKind l = .ok l') := by
  induction kinds generalizing l with
  | nil => exact ⟨nofun, fun _ => ⟨l, rfl⟩⟩
  | cons kind kinds ih =>
      obtain ⟨fails, succeeds⟩ := placeKind_outcome valid room l kind
      have split : misaligned? (o.sectionsOf (kind :: kinds)) =
          (misaligned? (o.sections.filter (·.kind = kind))).or (misaligned? (o.sectionsOf kinds)) := by
        simp only [misaligned?, sectionsOf, List.flatMap_cons, List.find?_append]
      rw [split, List.foldlM_cons]
      cases here : misaligned? (o.sections.filter (·.kind = kind)) with
      | some s =>
          rw [fails s here]
          refine ⟨fun t found => ?_, nofun⟩
          rw [← Option.mem_some.mp found]
          rfl
      | none =>
          obtain ⟨next, placed⟩ := succeeds here
          rw [except_bind_of_ok placed, Option.none_or]
          exact ih next

/-- A valid object has a layout, unless a section cannot be aligned. -/
theorem layout_outcome (valid : o.Valid) (room : o.blockSize .text < Word.modulus) :
    (∀ s ∈ misaligned? (o.sectionsOf SectionKind.all),
      o.layout = .error (.alignment s.name s.align)) ∧
    (misaligned? (o.sectionsOf SectionKind.all) = none → ∃ l, o.layout = .ok l) := by
  obtain ⟨fails, succeeds⟩ := placeKinds_outcome valid room {} SectionKind.all
  unfold layout
  constructor
  · intro s found
    exact except_bind_of_error (fails s found)
  · intro met
    obtain ⟨drafted, placed⟩ := succeeds met
    have d : Draft o SectionKind.all drafted :=
      (draft_nil o).placeKinds valid.positive (by decide) placed
    have found : ∀ id ∈ List.range o.sections.length, ∃ p, drafted.placementOf id = .ok p := by
      intro id member
      unfold ImageLayout.placementOf
      have lt := List.mem_range.mp member
      obtain ⟨p, isPlaced, same⟩ := d.complete id _ (List.getElem?_eq_getElem lt) (all_kinds _)
      cases hit : drafted.placements.find? (·.id = id) with
      | some p => exact ⟨p, rfl⟩
      | none =>
          refine absurd (List.find?_eq_none.mp hit p isPlaced) ?_
          simpa using same
    obtain ⟨placements, all⟩ := mapM_succeeds found
    exact ⟨{ drafted with placements },
      (except_bind_of_ok placed).trans (except_bind_of_ok all)⟩

/-! ### The sizes of blocks -/

theorem stop_of_placeSections (h : placeSections kind block offset l = .ok (ps, stop)) :
    stop = (l.map Prod.fst).foldl sectionEnd offset := by
  induction l generalizing offset ps stop with
  | nil =>
      cases h
      rfl
  | cons s l ih =>
      unfold placeSections at h
      split at h
      case isTrue => cases h
      case isFalse =>
        obtain ⟨start, isStart, h⟩ := ok_of_bind h
        obtain ⟨sectionStop, isStop, h⟩ := ok_of_bind h
        obtain ⟨⟨others, last⟩, placed, h⟩ := ok_of_bind h
        cases h
        obtain ⟨-, rfl⟩ := alignOffset_eq_ok.mp isStart
        obtain ⟨-, rfl⟩ := checkOffset_eq_ok.mp isStop
        exact ih placed

theorem stop_of_placeStubs (h : placeStubs offset names = .ok (stubs, stop)) :
    stop = offset + jumpStubSize * names.length := by
  induction names generalizing offset stubs stop with
  | nil =>
      cases h
      rfl
  | cons name names ih =>
      obtain ⟨stubStop, isStop, h⟩ := ok_of_bind h
      obtain ⟨⟨others, last⟩, placed, h⟩ := ok_of_bind h
      cases h
      obtain ⟨-, rfl⟩ := checkOffset_eq_ok.mp isStop
      rw [ih placed, List.length_cons, Nat.mul_succ]
      omega

theorem stop_of_placeStubsBehind (h : placeStubsBehind offset names = .ok (stubs, stop)) :
    stop = stubsEnd offset names := by
  unfold placeStubsBehind at h
  unfold stubsEnd
  split at h
  case isTrue empty =>
    cases h
    rw [if_pos empty]
  case isFalse nonempty =>
    obtain ⟨start, isStart, placed⟩ := ok_of_bind h
    obtain ⟨-, rfl⟩ := alignOffset_eq_ok.mp isStart
    rw [if_neg nonempty]
    exact stop_of_placeStubs placed

theorem offset_le_stubsEnd (offset : Nat) (names : List String) : offset ≤ stubsEnd offset names := by
  unfold stubsEnd
  split
  · exact Nat.le_refl _
  · exact (le_alignUp offset (by decide)).trans (Nat.le_add_right ..)

theorem le_stubsEnd (offset : Nat) (names : List String) :
    jumpStubSize * names.length ≤ stubsEnd offset names := by
  unfold stubsEnd
  split
  case isTrue empty =>
    rw [List.isEmpty_iff.mp empty]
    exact Nat.zero_le _
  case isFalse => exact Nat.le_add_left ..

theorem size_le_blockSize (positive : ∀ s ∈ o.sections, 0 < s.align) {s : Section}
    (member : s ∈ o.sections) : s.size ≤ o.blockSize s.kind := by
  have placed : s ∈ o.sections.filter (·.kind = s.kind) :=
    List.mem_filter.mpr ⟨member, decide_eq_true rfl⟩
  have positive : ∀ t ∈ o.sections.filter (·.kind = s.kind), 0 < t.align :=
    fun t member => positive t (List.mem_filter.mp member).1
  obtain ⟨before, after, split⟩ := List.append_of_mem placed
  rw [split] at positive
  have rest := le_foldl_sectionEnd
    (fun t member => positive t (List.mem_append_right _ (.tail _ member)))
    (sectionEnd (before.foldl sectionEnd 0) s)
  have stubs := offset_le_stubsEnd ((o.sections.filter (·.kind = s.kind)).foldl sectionEnd 0)
    (o.stubNamesIn s.kind)
  unfold blockSize
  rw [split, List.foldl_append, List.foldl_cons] at stubs ⊢
  exact (Nat.le_add_left ..).trans (rest.trans stubs)

section

variable {l l' : ImageLayout}

theorem size_of_placeKind (h : o.placeKind l kind = .ok l')
    (sizes : ∀ b ∈ l.blocks, b.2 = o.blockSize b.1) : ∀ b ∈ l'.blocks, b.2 = o.blockSize b.1 := by
  obtain ⟨⟨ps, stop⟩, placed, h⟩ := ok_of_bind h
  obtain ⟨⟨stubs, last⟩, behind, h⟩ := ok_of_bind h
  cases h
  have size : last = o.blockSize kind := by
    rw [stop_of_placeStubsBehind behind, stop_of_placeSections placed, map_fst_zipIdx_filter]
    rfl
  dsimp only
  split
  · exact sizes
  · exact List.forall_mem_append.mpr ⟨sizes, List.forall_mem_singleton.mpr size⟩

theorem size_of_placeKinds {kinds : List SectionKind} (h : kinds.foldlM o.placeKind l = .ok l')
    (sizes : ∀ b ∈ l.blocks, b.2 = o.blockSize b.1) : ∀ b ∈ l'.blocks, b.2 = o.blockSize b.1 := by
  induction kinds generalizing l with
  | nil =>
      cases h
      exact sizes
  | cons kind kinds ih =>
      rw [List.foldlM_cons] at h
      obtain ⟨next, placed, rest⟩ := ok_of_bind h
      exact ih rest (size_of_placeKind placed sizes)

/-- A layout has blocks of these sizes. -/
theorem size_of_layout (h : o.layout = .ok l) : ∀ b ∈ l.blocks, b.2 = o.blockSize b.1 := by
  obtain ⟨drafted, placed, h⟩ := ok_of_bind h
  obtain ⟨placements, -, h⟩ := ok_of_bind h
  cases h
  have none : ∀ b ∈ ({} : ImageLayout).blocks, b.2 = o.blockSize b.1 := List.forall_mem_nil _
  have sizes := size_of_placeKinds placed none
  exact sizes

end

end Object
end LiveC
