import LiveC.Proofs.LinkOutcome

/-!
The layout of a validated object. Its sections end where validation computed the extents of their
kinds, one behind the other in the order of the object, and each kind that is present has a block;
the stubs of imported branch targets make a block of code present too.
-/

namespace LiveC

namespace Object

/-- The extents of the kinds, as validation computes them section by section. -/
def extentsOf (sections : List Section) : Extents := sections.foldl Extents.add .empty

theorem foldl_add (sections : List Section) (x : Extents) (kind : SectionKind) :
    sections.foldl Extents.add x kind =
      (sections.filter (·.kind = kind)).foldl sectionEnd (x kind) := by
  induction sections generalizing x with
  | nil => rfl
  | cons s sections ih =>
      rw [List.foldl_cons, ih, Extents.add]
      by_cases same : kind = s.kind
      · rw [if_pos same, List.filter_cons_of_pos (by simpa using same.symm), List.foldl_cons]
      · rw [if_neg same, List.filter_cons_of_neg (by simpa using Ne.symm same)]

theorem extentsOf_apply (sections : List Section) (kind : SectionKind) :
    extentsOf sections kind = (sections.filter (·.kind = kind)).foldl sectionEnd 0 :=
  foldl_add sections .empty kind

/-- Validation goes on behind sections with the extents that they have. -/
theorem checkSections_append (o : Object) (before behind : List Section) (x : Extents) (index : Nat) :
    checkSections o x index (before ++ behind) = (checkSections o x index before >>= fun _ =>
      checkSections o (before.foldl Extents.add x) (index + before.length) behind) := by
  induction before generalizing x index with
  | nil => rfl
  | cons s before ih =>
      rw [List.cons_append, checkSections, checkSections]
      cases checkSection o x index s with
      | error fault => rfl
      | ok =>
          refine (ih (x.add s) (index + 1)).trans ?_
          rw [List.length_cons, Nat.add_assoc, Nat.add_comm 1]
          rfl

/-! ### Where sections end -/

variable {kind : SectionKind} {block offset stop n : Nat} {ps : List Placement}

/-- A section that is placed ends behind itself and those of its kind before it. -/
theorem stop_of_mem_placeSections {sections : List Section}
    (h : placeSections kind block offset ((sections.zipIdx n).filter (·.1.kind = kind)) =
      .ok (ps, stop)) : ∀ p ∈ ps, n ≤ p.id ∧
        p.stop = ((sections.take (p.id + 1 - n)).filter (·.kind = kind)).foldl sectionEnd offset := by
  induction sections generalizing n offset ps stop with
  | nil =>
      cases h
      exact List.forall_mem_nil _
  | cons s sections ih =>
      have behind (p : Placement) (le : n + 1 ≤ p.id) :
          (s :: sections).take (p.id + 1 - n) = s :: sections.take (p.id + 1 - (n + 1)) := by
        rw [show p.id + 1 - n = p.id + 1 - (n + 1) + 1 by omega, List.take_succ_cons]
      rw [List.zipIdx_cons] at h
      by_cases same : s.kind = kind
      case pos =>
        rw [List.filter_cons_of_pos (by simpa using same), placeSections] at h
        split at h
        case isTrue => cases h
        case isFalse =>
          obtain ⟨start, isStart, h⟩ := ok_of_bind h
          obtain ⟨sectionStop, isStop, h⟩ := ok_of_bind h
          obtain ⟨⟨others, last⟩, placed, h⟩ := ok_of_bind h
          cases h
          obtain ⟨-, rfl⟩ := alignOffset_eq_ok.mp isStart
          obtain ⟨-, rfl⟩ := checkOffset_eq_ok.mp isStop
          refine List.forall_mem_cons.mpr ⟨⟨Nat.le_refl _, ?_⟩, fun p member => ?_⟩
          · rw [show n + 1 - n = 0 + 1 by omega, List.take_succ_cons, List.take_zero,
              List.filter_cons_of_pos (by simpa using same)]
            rfl
          · obtain ⟨le, stop⟩ := ih placed p member
            refine ⟨by omega, ?_⟩
            rw [behind p le, List.filter_cons_of_pos (by simpa using same), List.foldl_cons]
            exact stop
      case neg =>
        rw [List.filter_cons_of_neg (by simpa using same)] at h
        intro p member
        obtain ⟨le, stop⟩ := ih h p member
        refine ⟨by omega, ?_⟩
        rw [behind p le, List.filter_cons_of_neg (by simpa using same)]
        exact stop

/-! ### The blocks that are present -/

/-- Whether a kind has sections or stubs to hold. -/
def occupies (o : Object) (kind : SectionKind) : Bool :=
  o.sections.any (·.kind = kind) || !(o.stubNamesIn kind).isEmpty

theorem occupies_iff {o : Object} : o.occupies kind = true ↔
    (∃ s ∈ o.sections, s.kind = kind) ∨ (kind = .text ∧ o.stubNames ≠ []) := by
  unfold occupies stubNamesIn
  rw [Bool.or_eq_true, List.any_eq_true]
  refine or_congr (by simp) ?_
  by_cases code : kind = .text <;> simp [code]

/-- The kinds so far have a block if there is something to hold, and their sections end where
validation computed. -/
structure Arranged (o : Object) (kinds : List SectionKind) (l : ImageLayout) : Prop where
  ends : ∀ p ∈ l.placements, p.stop = extentsOf (o.sections.take (p.id + 1)) p.source.kind
  blocks : l.blocks.map Prod.fst = kinds.filter o.occupies

variable {o : Object} {kinds more : List SectionKind} {l l' : ImageLayout}

theorem Arranged.placeKind (a : Arranged o kinds l) (positive : ∀ s ∈ o.sections, 0 < s.align)
    (h : o.placeKind l kind = .ok l') : Arranged o (kinds ++ [kind]) l' := by
  have aligned : ∀ s ∈ o.sections.zipIdx.filter (·.1.kind = kind), 0 < s.1.align :=
    fun s member => positive _ (List.mem_of_getElem? (mem_zipIdx_filter.mp member).1)
  obtain ⟨⟨ps, stop⟩, isPlaced, h⟩ := ok_of_bind h
  obtain ⟨⟨stubs, last⟩, behind, h⟩ := ok_of_bind h
  cases h
  have placed := placed_of_placeSections aligned isPlaced
  have names := (placedStubs_of_placeStubsBehind behind).names
  refine ⟨List.forall_mem_append.mpr ⟨a.ends, fun p member => ?_⟩, ?_⟩
  · have isKind := (mem_zipIdx_filter.mp (placed.mem_source member)).2
    rw [extentsOf_apply, isKind]
    exact (stop_of_mem_placeSections isPlaced p member).2
  · have empty : (ps.isEmpty && stubs.isEmpty) = !o.occupies kind := by
      have sections : ps.isEmpty = !o.sections.any (·.kind = kind) := by
        have none : ps.isEmpty = (o.sections.filter (·.kind = kind)).isEmpty := by
          rw [← List.isEmpty_map, placed.sources, ← List.isEmpty_map, map_fst_zipIdx_filter]
        rw [none, Bool.eq_iff_iff]
        simp
      rw [sections, ← List.isEmpty_map, names, occupies, Bool.not_or, Bool.not_not]
    dsimp only
    rw [empty, List.filter_append, ← a.blocks]
    cases present : o.occupies kind with
    | true =>
        rw [List.filter_cons_of_pos present]
        exact List.map_append
    | false =>
        rw [List.filter_cons_of_neg (by simp [present])]
        exact (List.append_nil _).symm

theorem Arranged.placeKinds (a : Arranged o kinds l) (positive : ∀ s ∈ o.sections, 0 < s.align)
    (h : more.foldlM o.placeKind l = .ok l') : Arranged o (kinds ++ more) l' := by
  induction more generalizing kinds l with
  | nil =>
      cases h
      rwa [List.append_nil]
  | cons kind more ih =>
      rw [List.foldlM_cons] at h
      obtain ⟨next, first, rest⟩ := ok_of_bind h
      have split : kinds ++ kind :: more = kinds ++ [kind] ++ more := by simp
      rw [split]
      exact ih (a.placeKind positive first) rest

/-- The sections of a layout are those that its blocks were made of, in the order of the object. -/
theorem arranged_of_layout (positive : ∀ s ∈ o.sections, 0 < s.align) (h : o.layout = .ok l) :
    Arranged o SectionKind.all l := by
  obtain ⟨drafted, placed, h⟩ := ok_of_bind h
  obtain ⟨ps, found, h⟩ := ok_of_bind h
  cases h
  have start : Arranged o [] {} := ⟨List.forall_mem_nil _, rfl⟩
  obtain ⟨ends, blocks⟩ := start.placeKinds positive placed
  refine ⟨fun p member => ends p ?_, blocks⟩
  obtain ⟨id, -, lookup⟩ := exists_of_forall₂ (mapM_eq_ok.mp found) member
  unfold ImageLayout.placementOf at lookup
  split at lookup
  case h_1 q hit =>
    cases lookup
    exact List.mem_of_find?_eq_some hit
  case h_2 => cases lookup

/-! ### The layout as a whole -/

/-- What a layout promises of an object. -/
structure LaidOut (o : Object) (l : ImageLayout) : Prop where
  /-- Each section has a place, under its number. -/
  placed : l.placements.map Placement.source = o.sections ∧
    ∀ (id : Nat) (p : Placement), l.placements[id]? = some p → p.id = id
  /-- Sections of one kind share a block, in their order and apart. -/
  ordered : ∀ p ∈ l.placements, ∀ q ∈ l.placements, p.source.kind = q.source.kind →
    p.block = q.block ∧ (p.id < q.id → p.stop ≤ q.offset)
  aligned : ∀ p ∈ l.placements, p.source.align ∣ p.offset
  inside : ∀ p ∈ l.placements, ∃ size, l.blocks[p.block]? = some (p.source.kind, size) ∧
    p.stop ≤ size
  /-- A section ends at the extent of its kind behind the sections up to it. -/
  ends : ∀ p ∈ l.placements, p.stop = extentsOf (o.sections.take (p.id + 1)) p.source.kind
  last : ∀ p ∈ l.placements, (∀ q ∈ l.placements, q.source.kind = p.source.kind → q.id ≤ p.id) →
    p.stop = extentsOf o.sections p.source.kind
  /-- Each imported branch target has one stub. -/
  stubs : (l.stubs.map Prod.fst).Nodup ∧ ∀ name, name ∈ l.stubs.map Prod.fst ↔
    ∃ r ∈ o.relocations, r.kind = .branch32 ∧ r.target = .symbol name ∧ o.global? name = none
  /-- Stubs lie in the block of code, apart and behind all of its sections. -/
  stubsApart : l.stubs.Pairwise fun s t => s.2 + 16 ≤ t.2
  stubsInside : ∀ s ∈ l.stubs, 16 ∣ s.2 ∧
    (∃ code size : Nat, l.blocks[code]? = some (SectionKind.text, size) ∧ s.2 + 16 ≤ size) ∧
    ∀ p ∈ l.placements, p.source.kind = .text → p.stop ≤ s.2
  /-- Each kind that has sections or stubs has one block. -/
  blocks : (l.blocks.map Prod.fst).Nodup ∧ ∀ kind, kind ∈ l.blocks.map Prod.fst ↔
    (∃ s ∈ o.sections, s.kind = kind) ∨ (kind = .text ∧ l.stubs ≠ [])

/-- Behind the last section of a kind nothing adds to its extent. -/
theorem extentsOf_take {id : Nat} (last : ∀ s ∈ o.sections.drop id, s.kind ≠ kind) :
    extentsOf (o.sections.take id) kind = extentsOf o.sections kind := by
  have none : (o.sections.drop id).filter (·.kind = kind) = [] :=
    List.filter_eq_nil_iff.mpr fun s member => by simpa using last s member
  rw [extentsOf_apply, extentsOf_apply]
  conv_rhs => rw [← List.take_append_drop id o.sections, List.filter_append, none, List.append_nil]

theorem laidOut_of_layout (valid : o.Valid) (h : o.layout = .ok l) : LaidOut o l := by
  obtain ⟨sources, numbered, inside, aligned, apart, present, stubs⟩ := sound_of_layout valid h
  obtain ⟨ends, blocks⟩ := arranged_of_layout valid.positive h
  have distinct : (l.blocks.map Prod.fst).Nodup := present.nodup (by decide)
  have shared (p) (hp : p ∈ l.placements) (q) (hq : q ∈ l.placements)
      (same : p.source.kind = q.source.kind) : p.block = q.block := by
    obtain ⟨size, found, -⟩ := inside p hp
    obtain ⟨size', found', -⟩ := inside q hq
    have lt := (List.getElem?_eq_some_iff.mp found).1
    refine (List.getElem?_inj (by rwa [List.length_map]) distinct).mp ?_
    rw [List.getElem?_map, List.getElem?_map, found, found']
    exact congrArg some same
  exact {
    placed := ⟨sources, numbered⟩
    ordered := fun p hp q hq same => ⟨shared p hp q hq same,
      (apart p hp q hq (shared p hp q hq same)).1⟩
    aligned := fun p member => (aligned p member).1
    inside
    ends
    last := fun p member last => by
      rw [ends p member]
      refine extentsOf_take fun s behind same => ?_
      obtain ⟨i, found⟩ := List.mem_iff_getElem?.mp behind
      rw [List.getElem?_drop, ← sources, List.getElem?_map, Option.map_eq_some_iff] at found
      obtain ⟨q, placed, rfl⟩ := found
      have le := last q (List.mem_of_getElem? placed) same
      rw [numbered _ q placed] at le
      omega
    stubs := by
      rw [stubs.names]
      exact ⟨nodup_eraseDups _, fun name => mem_stubNames⟩
    stubsApart := stubs.ordered
    stubsInside := fun s member => ⟨stubs.aligned s member, stubs.inside s member,
      fun p placed code => stubs.behind p placed code s member⟩
    blocks := by
      refine ⟨distinct, fun kind => ?_⟩
      rw [blocks, List.mem_filter, and_iff_right (all_kinds kind), occupies_iff, ← stubs.names,
        ne_eq, List.map_eq_nil_iff] }

/-- An object that validation accepts, with sections that pages can align, is laid out if its stubs
end within the words. The layout follows the extents that validation computed, each kind in the
order of the object. -/
theorem layout_follows_validation (o : Object) (accepted : o.validate = .ok ())
    (pages : ∀ s ∈ o.sections, s.align ≤ pageSize)
    (room : alignUp (extentsOf o.sections .text) 16 + 16 * o.stubNames.length < Word.modulus) :
    (∃ l, o.layout = .ok l ∧ LaidOut o l) ∧
      ∀ before behind, o.sections = before ++ behind → checkSections o .empty 0 o.sections =
        (checkSections o .empty 0 before >>= fun _ =>
          checkSections o (extentsOf before) before.length behind) := by
  have valid := valid_of_validate accepted
  constructor
  · have room : o.blockSize .text < Word.modulus := by
      have extent := le_alignUp ((o.sections.filter (·.kind = .text)).foldl sectionEnd 0)
        (show 0 < 16 by decide)
      have names : o.stubNamesIn .text = o.stubNames := if_pos rfl
      rw [extentsOf_apply] at room
      rw [blockSize, names, stubsEnd, jumpStubSize]
      split <;> omega
    obtain ⟨l, laid⟩ := (layout_outcome valid room).2 (Link.misaligned?_eq_none.mpr pages)
    exact ⟨l, laid, laidOut_of_layout valid laid⟩
  · intro before behind split
    rw [split, checkSections_append, Nat.zero_add]
    rfl

/-- An object of mixed kinds without code, with two branches to one imported function: the block of
code holds the stub alone. -/
theorem layout_follows_validation_stubAlone :
    let branch (offset : Nat) : Relocation := ⟨offset, .branch32, .symbol "g", -4, none⟩
    let o : Object := ⟨[.zeroed 3 2, .ofBytes .data [0, 0, 0, 0, 0] 1 [branch 0, branch 1],
      .zeroed 8 8, .ofBytes .data [7] 4], []⟩
    o.validate = .ok () ∧ (∀ s ∈ o.sections, s.align ≤ pageSize) ∧
      alignUp (extentsOf o.sections .text) 16 + 16 * o.stubNames.length < Word.modulus ∧
      ∃ l, o.layout = .ok l ∧ LaidOut o l ∧ l.stubs = [("g", 0)] ∧
        l.blocks = [(.text, 16), (.data, 9), (.zero, 16)] := by
  intro branch o
  have accepted : o.validate = .ok () := by decide +kernel
  have pages : ∀ s ∈ o.sections, s.align ≤ pageSize := by decide
  have room : alignUp (extentsOf o.sections .text) 16 + 16 * o.stubNames.length < Word.modulus := by
    decide +kernel
  obtain ⟨⟨l, laid, promises⟩, -⟩ := layout_follows_validation o accepted pages room
  have result : o.layout.map (fun l => (l.stubs, l.blocks)) =
      .ok ([("g", 0)], [(.text, 16), (.data, 9), (.zero, 16)]) := by decide +kernel
  rw [laid] at result
  obtain ⟨stubs, blocks⟩ := Prod.mk.inj (Except.ok.inj result)
  exact ⟨accepted, pages, room, l, laid, promises, stubs, blocks⟩

end Object
end LiveC
