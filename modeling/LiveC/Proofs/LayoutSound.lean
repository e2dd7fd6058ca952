import LiveC.Link.Layout
import LiveC.Proofs.ValidObjects
import Mathlib.Data.List.Pairwise

/-!
A layout gives every section a place of its own in the block of its kind, and every stub one
behind the code. The blocks of the kinds are added one after the other; what holds of the
sections of the kinds so far is kept.
-/

namespace LiveC

namespace Placement

def stop (p : Placement) : Nat := p.offset + p.source.size

/-- Sections in one block follow one another in their order. -/
def Apart (p q : Placement) : Prop :=
  p.block = q.block → (p.id < q.id → p.stop ≤ q.offset) ∧ (q.id < p.id → q.stop ≤ p.offset)

theorem Apart.symm {p q : Placement} (h : p.Apart q) : q.Apart p :=
  fun same => ⟨(h same.symm).2, (h same.symm).1⟩

end Placement

namespace Object

variable {kind : SectionKind} {n m align block offset stop : Nat} {l : List (Section × Nat)}
  {ps : List Placement} {names : List String} {stubs : List (String × Nat)}

theorem checkOffset_eq_ok : checkOffset kind n = .ok m ↔ n < Word.modulus ∧ n = m := by
  unfold checkOffset
  split
  case isTrue word => rw [Except.ok.injEq, and_iff_right word]
  case isFalse beyond =>
    constructor
    · intro h
      cases h
    · exact fun h => absurd h.1 beyond

theorem alignOffset_eq_ok : alignOffset kind n align = .ok m ↔
    n + (align - 1) < Word.modulus ∧ alignUp n align = m := by
  unfold alignOffset
  constructor
  · intro h
    obtain ⟨_, word, h⟩ := ok_of_bind h
    cases h
    exact ⟨(checkOffset_eq_ok.mp word).1, rfl⟩
  · rintro ⟨word, rfl⟩
    rw [checkOffset_eq_ok.mpr ⟨word, rfl⟩]
    rfl

/-! ### One block -/

/-- Sections that are placed into a block, from an offset to the end of the last one. -/
structure Placed (block offset : Nat) (l : List (Section × Nat)) (ps : List Placement)
    (stop : Nat) : Prop where
  sources : ps.map (fun p => (p.source, p.id)) = l
  le : offset ≤ stop
  inside : ∀ p ∈ ps, p.block = block ∧ offset ≤ p.offset ∧ p.stop ≤ stop ∧
    p.source.align ∣ p.offset ∧ p.source.align ≤ pageSize
  ordered : ps.Pairwise fun p q => p.stop ≤ q.offset

theorem placed_of_placeSections (aligned : ∀ s ∈ l, 0 < s.1.align)
    (h : placeSections kind block offset l = .ok (ps, stop)) : Placed block offset l ps stop := by
  induction l generalizing offset ps stop with
  | nil =>
      cases h
      exact ⟨rfl, Nat.le_refl _, List.forall_mem_nil _, .nil⟩
  | cons s l ih =>
      obtain ⟨s, id⟩ := s
      obtain ⟨positive, aligned⟩ := List.forall_mem_cons.mp aligned
      unfold placeSections at h
      split at h
      case isTrue => cases h
      case isFalse page =>
        obtain ⟨start, isStart, h⟩ := ok_of_bind h
        obtain ⟨sectionStop, isStop, h⟩ := ok_of_bind h
        obtain ⟨⟨others, last⟩, placed, h⟩ := ok_of_bind h
        cases h
        obtain ⟨-, rfl⟩ := alignOffset_eq_ok.mp isStart
        obtain ⟨-, rfl⟩ := checkOffset_eq_ok.mp isStop
        have behind : offset ≤ alignUp offset s.align := le_alignUp offset positive
        obtain ⟨sources, le, inside, ordered⟩ := ih aligned placed
        refine ⟨by rw [List.map_cons, sources], by omega, List.forall_mem_cons.mpr ⟨?_, ?_⟩,
          List.pairwise_cons.mpr ⟨fun p member => (inside p member).2.1, ordered⟩⟩
        · exact ⟨rfl, behind, le, dvd_alignUp offset s.align, Nat.le_of_not_lt page⟩
        · intro p member
          obtain ⟨same, from', rest⟩ := inside p member
          exact ⟨same, by omega, rest⟩

/-- Stubs that are placed one behind the other, from an offset to the end of the last one. -/
structure PlacedStubs (offset : Nat) (names : List String) (stubs : List (String × Nat))
    (stop : Nat) : Prop where
  names : stubs.map Prod.fst = names
  le : offset ≤ stop
  inside : ∀ s ∈ stubs, offset ≤ s.2 ∧ s.2 + jumpStubSize ≤ stop ∧ jumpStubSize ∣ s.2
  ordered : stubs.Pairwise fun s t => s.2 + jumpStubSize ≤ t.2

theorem placedStubs_of_placeStubs (aligned : jumpStubSize ∣ offset)
    (h : placeStubs offset names = .ok (stubs, stop)) : PlacedStubs offset names stubs stop := by
  induction names generalizing offset stubs stop with
  | nil =>
      cases h
      exact ⟨rfl, Nat.le_refl _, List.forall_mem_nil _, .nil⟩
  | cons name names ih =>
      unfold placeStubs at h
      obtain ⟨stubStop, isStop, h⟩ := ok_of_bind h
      obtain ⟨⟨others, last⟩, placed, h⟩ := ok_of_bind h
      cases h
      obtain ⟨-, rfl⟩ := checkOffset_eq_ok.mp isStop
      obtain ⟨same, le, inside, ordered⟩ := ih (Nat.dvd_add_self_right.mpr aligned) placed
      refine ⟨by rw [List.map_cons, same], by omega, List.forall_mem_cons.mpr ⟨?_, ?_⟩,
        List.pairwise_cons.mpr ⟨fun s member => (inside s member).1, ordered⟩⟩
      · exact ⟨Nat.le_refl _, le, aligned⟩
      · intro s member
        obtain ⟨from', rest⟩ := inside s member
        exact ⟨by omega, rest⟩

theorem placedStubs_of_placeStubsBehind (h : placeStubsBehind offset names = .ok (stubs, stop)) :
    PlacedStubs offset names stubs stop := by
  unfold placeStubsBehind at h
  split at h
  case isTrue empty =>
    cases h
    exact ⟨(List.isEmpty_iff.mp empty).symm, Nat.le_refl _, List.forall_mem_nil _, .nil⟩
  case isFalse =>
    obtain ⟨start, isStart, placed⟩ := ok_of_bind h
    obtain ⟨-, rfl⟩ := alignOffset_eq_ok.mp isStart
    have behind : offset ≤ alignUp offset jumpStubSize := le_alignUp offset (by decide)
    obtain ⟨same, le, inside, ordered⟩ :=
      placedStubs_of_placeStubs (dvd_alignUp offset jumpStubSize) placed
    exact ⟨same, by omega, fun s member => ⟨by have := (inside s member).1; omega,
      (inside s member).2⟩, ordered⟩

/-! ### Block after block -/

/-- The stubs of an object lie in the block of code, one behind the other. -/
structure HasStubs (o : Object) (l : ImageLayout) : Prop where
  names : l.stubs.map Prod.fst = o.stubNames
  inside : ∀ s ∈ l.stubs, ∃ code size : Nat, l.blocks[code]? = some (SectionKind.text, size) ∧
    s.2 + jumpStubSize ≤ size
  aligned : ∀ s ∈ l.stubs, jumpStubSize ∣ s.2
  ordered : l.stubs.Pairwise fun s t => s.2 + jumpStubSize ≤ t.2
  behind : ∀ p ∈ l.placements, p.source.kind = .text → ∀ s ∈ l.stubs, p.stop ≤ s.2

/-- A layout with the sections of some kinds. -/
structure Draft (o : Object) (kinds : List SectionKind) (l : ImageLayout) : Prop where
  sources : ∀ p ∈ l.placements, o.sections[p.id]? = some p.source ∧ p.source.kind ∈ kinds
  complete : ∀ id s, o.sections[id]? = some s → s.kind ∈ kinds → ∃ p ∈ l.placements, p.id = id
  inside : ∀ p ∈ l.placements, ∃ size, l.blocks[p.block]? = some (p.source.kind, size) ∧
    p.stop ≤ size
  aligned : ∀ p ∈ l.placements, p.source.align ∣ p.offset ∧ p.source.align ≤ pageSize
  apart : ∀ p ∈ l.placements, ∀ q ∈ l.placements, p.Apart q ∧ (p.id = q.id → p = q)
  present : (l.blocks.map Prod.fst).Sublist kinds
  noStubs : SectionKind.text ∉ kinds → l.stubs = []
  hasStubs : SectionKind.text ∈ kinds → HasStubs o l

variable {o : Object} {kinds : List SectionKind} {l l' : ImageLayout}

theorem mem_zipIdx_filter {s : Section} {id : Nat} :
    (s, id) ∈ o.sections.zipIdx.filter (·.1.kind = kind) ↔
      o.sections[id]? = some s ∧ s.kind = kind := by
  rw [List.mem_filter, List.mem_zipIdx_iff_getElem?, decide_eq_true_iff]

theorem zipIdx_filter_ordered (o : Object) (kind : SectionKind) :
    (o.sections.zipIdx.filter (·.1.kind = kind)).Pairwise fun s t => s.2 < t.2 := by
  refine List.Pairwise.filter _ (List.pairwise_iff_getElem.mpr fun i j hi hj lt => ?_)
  simpa using lt

namespace Placed

variable {sections : List (Section × Nat)} (h : Placed block offset sections ps stop)
include h

theorem mem_source {p : Placement} (member : p ∈ ps) : (p.source, p.id) ∈ sections := by
  rw [← h.sources]
  exact List.mem_map_of_mem member

/-- Sections in the order of their numbers are apart, and each has one place. -/
theorem apart_or_eq (ordered : sections.Pairwise fun s t => s.2 < t.2) :
    ∀ p ∈ ps, ∀ q ∈ ps, p.Apart q ∧ (p.id = q.id → p = q) := by
  rw [← h.sources, List.pairwise_map] at ordered
  have : Std.Symm fun p q : Placement => p.Apart q ∧ (p.id = q.id → p = q) :=
    ⟨fun p q apart => ⟨apart.1.symm, fun same => (apart.2 same.symm).symm⟩⟩
  intro p hp q hq
  refine List.Pairwise.forall_of_forall (R := fun p q => p.Apart q ∧ (p.id = q.id → p = q)) ?_
    ((ordered.and h.ordered).imp ?_) hp hq
  · exact fun p _ => ⟨fun _ => ⟨fun lt => absurd lt (Nat.lt_irrefl _),
      fun lt => absurd lt (Nat.lt_irrefl _)⟩, fun _ => rfl⟩
  · rintro p q ⟨lt, stop⟩
    exact ⟨fun _ => ⟨fun _ => stop, fun gt => absurd gt (Nat.lt_asymm lt)⟩,
      fun same => absurd same (Nat.ne_of_lt lt)⟩

end Placed

/-- What a kind adds to a layout. -/
theorem placeKind_ok (aligned : ∀ s ∈ o.sections, 0 < s.align) (h : o.placeKind l kind = .ok l') :
    ∃ ps stubs stop last,
      Placed l.blocks.length 0 (o.sections.zipIdx.filter (·.1.kind = kind)) ps stop ∧
      PlacedStubs stop (o.stubNamesIn kind) stubs last ∧
      l' = { placements := l.placements ++ ps, stubs := l.stubs ++ stubs,
             blocks := if ps.isEmpty && stubs.isEmpty then l.blocks
               else l.blocks ++ [(kind, last)] } := by
  unfold placeKind at h
  obtain ⟨⟨ps, stop⟩, placed, h⟩ := ok_of_bind h
  obtain ⟨⟨stubs, last⟩, behind, h⟩ := ok_of_bind h
  cases h
  have positive : ∀ s ∈ o.sections.zipIdx.filter (·.1.kind = kind), 0 < s.1.align :=
    fun s member => aligned _ (List.mem_of_getElem? (mem_zipIdx_filter.mp member).1)
  exact ⟨ps, stubs, stop, last, placed_of_placeSections positive placed,
    placedStubs_of_placeStubsBehind behind, rfl⟩

theorem draft_nil (o : Object) : Draft o [] {} where
  sources := List.forall_mem_nil _
  complete _ _ _ member := absurd member List.not_mem_nil
  inside := List.forall_mem_nil _
  aligned := List.forall_mem_nil _
  apart := List.forall_mem_nil _
  present := List.Sublist.refl _
  noStubs _ := rfl
  hasStubs member := absurd member List.not_mem_nil

section

variable {ps : List Placement} {stubs : List (String × Nat)} {stop last : Nat}
  {blocks : List (SectionKind × Nat)} (d : Draft o kinds l) (fresh : kind ∉ kinds)
  (placed : Placed l.blocks.length 0 (o.sections.zipIdx.filter (·.1.kind = kind)) ps stop)
include d fresh placed

/-- The sections of a new kind are apart from the others, which lie in other blocks. -/
theorem Draft.apart_append : ∀ p ∈ l.placements ++ ps, ∀ q ∈ l.placements ++ ps,
    p.Apart q ∧ (p.id = q.id → p = q) := by
  have mixed (p) (hp : p ∈ l.placements) (q) (hq : q ∈ ps) : p.Apart q ∧ p.id ≠ q.id := by
    obtain ⟨found, known⟩ := d.sources p hp
    obtain ⟨found', isNew⟩ := mem_zipIdx_filter.mp (placed.mem_source hq)
    obtain ⟨size, present, -⟩ := d.inside p hp
    have lt := (List.getElem?_eq_some_iff.mp present).1
    rw [← (placed.inside q hq).1] at lt
    refine ⟨fun same => absurd same (Nat.ne_of_lt lt), fun same => fresh ?_⟩
    rw [← same, found] at found'
    rw [← isNew, ← Option.some.inj found']
    exact known
  intro p hp q hq
  rcases List.mem_append.mp hp with hp | hp
  · rcases List.mem_append.mp hq with hq | hq
    · exact d.apart p hp q hq
    · exact ⟨(mixed p hp q hq).1, fun same => absurd same (mixed p hp q hq).2⟩
  · rcases List.mem_append.mp hq with hq | hq
    · exact ⟨(mixed q hq p hp).1.symm, fun same => absurd same.symm (mixed q hq p hp).2⟩
    · exact placed.apart_or_eq (zipIdx_filter_ordered o kind) p hp q hq

/-- Stubs come with the kind of code, and behind all sections of that kind. -/
theorem Draft.hasStubs_append (member : SectionKind.text ∈ kinds ++ [kind])
    (placedStubs : PlacedStubs stop (o.stubNamesIn kind) stubs last)
    (old : ∀ (b : Nat) (x : SectionKind × Nat), l.blocks[b]? = some x → blocks[b]? = some x)
    (new : stubs ≠ [] → blocks[l.blocks.length]? = some (kind, last)) :
    HasStubs o ⟨l.placements ++ ps, l.stubs ++ stubs, blocks⟩ := by
  have source (p) (member : p ∈ ps) := mem_zipIdx_filter.mp (placed.mem_source member)
  by_cases code : kind = .text
  case pos =>
    subst code
    have names := placedStubs.names
    rw [stubNamesIn, if_pos rfl] at names
    rw [d.noStubs fresh]
    refine ⟨names, fun s member => ⟨_, _, new (List.ne_nil_of_mem member),
      (placedStubs.inside s member).2.1⟩, fun s member => (placedStubs.inside s member).2.2,
      placedStubs.ordered, fun p member code s isStub => ?_⟩
    rcases List.mem_append.mp member with member | member
    · exact absurd (code ▸ (d.sources p member).2) fresh
    · exact (placed.inside p member).2.2.1.trans (placedStubs.inside s isStub).1
  case neg =>
    have names := placedStubs.names
    rw [stubNamesIn, if_neg code, List.map_eq_nil_iff] at names
    subst names
    have known : SectionKind.text ∈ kinds := by
      rcases List.mem_append.mp member with known | same
      · exact known
      · exact absurd (List.mem_singleton.mp same).symm code
    obtain ⟨names, inside, aligned, ordered, behind⟩ := d.hasStubs known
    rw [List.append_nil]
    refine ⟨names, fun s member => ?_, aligned, ordered, fun p member text => ?_⟩
    · obtain ⟨b, size, present, stop⟩ := inside s member
      exact ⟨b, size, old b _ present, stop⟩
    · rcases List.mem_append.mp member with member | member
      · exact behind p member text
      · exact absurd ((source p member).2.symm.trans text) code

end

/-- Another kind keeps what holds of the others. -/
theorem Draft.placeKind (d : Draft o kinds l) (aligned : ∀ s ∈ o.sections, 0 < s.align)
    (fresh : kind ∉ kinds) (h : o.placeKind l kind = .ok l') : Draft o (kinds ++ [kind]) l' := by
  obtain ⟨ps, stubs, stop, last, placed, placedStubs, rfl⟩ := placeKind_ok aligned h
  have source (p) (member : p ∈ ps) := mem_zipIdx_filter.mp (placed.mem_source member)
  generalize isBlocks : (if ps.isEmpty && stubs.isEmpty then l.blocks
    else l.blocks ++ [(kind, last)]) = blocks
  have old (b : Nat) (x : SectionKind × Nat) (present : l.blocks[b]? = some x) :
      blocks[b]? = some x := by
    rw [← isBlocks]
    split
    · exact present
    · rw [List.getElem?_append_left (List.getElem?_eq_some_iff.mp present).1, present]
  have new (nonempty : ps ≠ [] ∨ stubs ≠ []) : blocks[l.blocks.length]? = some (kind, last) := by
    rw [← isBlocks, if_neg (by simpa [imp_iff_not_or] using nonempty), List.getElem?_concat_length]
  exact {
    sources := List.forall_mem_append.mpr ⟨fun p member =>
        (d.sources p member).imp_right (List.mem_append_left _), fun p member =>
        (source p member).imp_right fun same => List.mem_append_right _ (List.mem_singleton.mpr same)⟩
    complete := fun id s found member => by
      rcases List.mem_append.mp member with placed' | same
      · obtain ⟨p, isOld, isId⟩ := d.complete id s found placed'
        exact ⟨p, List.mem_append_left _ isOld, isId⟩
      · have isNew := mem_zipIdx_filter.mpr ⟨found, List.mem_singleton.mp same⟩
        rw [← placed.sources] at isNew
        obtain ⟨p, isNew, same⟩ := List.mem_map.mp isNew
        exact ⟨p, List.mem_append_right _ isNew, congrArg Prod.snd same⟩
    inside := List.forall_mem_append.mpr ⟨fun p member => by
        obtain ⟨size, present, stop⟩ := d.inside p member
        exact ⟨size, old _ _ present, stop⟩, fun p member => by
        obtain ⟨block, -, stop, -⟩ := placed.inside p member
        rw [block, (source p member).2]
        exact ⟨last, new (.inl (List.ne_nil_of_mem member)), stop.trans placedStubs.le⟩⟩
    aligned := List.forall_mem_append.mpr ⟨d.aligned, fun p member =>
        (placed.inside p member).2.2.2⟩
    apart := d.apart_append fresh placed
    present := by
      dsimp only
      rw [← isBlocks]
      split
      · exact d.present.trans (List.sublist_append_left ..)
      · rw [List.map_append]
        exact d.present.append (List.Sublist.refl _)
    noStubs := fun absent => by
      have code : kind ≠ .text := fun same => absent (same ▸ List.mem_append_right _ (.head _))
      have names := placedStubs.names
      rw [stubNamesIn, if_neg code, List.map_eq_nil_iff] at names
      rw [names, d.noStubs fun member => absent (List.mem_append_left _ member)]
      rfl
    hasStubs := fun member => d.hasStubs_append fresh placed member placedStubs old
      fun nonempty => new (.inr nonempty) }

/-! ### The whole layout -/

/-- The kinds of a list are placed one after the other. -/
theorem Draft.placeKinds {more : List SectionKind} (d : Draft o kinds l)
    (aligned : ∀ s ∈ o.sections, 0 < s.align) (fresh : (kinds ++ more).Nodup)
    (h : more.foldlM o.placeKind l = .ok l') : Draft o (kinds ++ more) l' := by
  induction more generalizing kinds l with
  | nil =>
      cases h
      rwa [List.append_nil]
  | cons kind more ih =>
      rw [List.foldlM_cons] at h
      obtain ⟨next, first, rest⟩ := ok_of_bind h
      have isNew : kind ∉ kinds := fun member =>
        (List.nodup_append.mp fresh).2.2 _ member _ (.head _) rfl
      have split : kinds ++ kind :: more = kinds ++ [kind] ++ more := by simp
      rw [split] at fresh ⊢
      exact ih (d.placeKind aligned isNew first) fresh rest

/-- A layout in which each section has a place of its own in the block of its kind. -/
structure Sound (o : Object) (l : ImageLayout) : Prop where
  sources : l.placements.map Placement.source = o.sections
  numbered : ∀ (id : Nat) (p : Placement), l.placements[id]? = some p → p.id = id
  inside : ∀ p ∈ l.placements, ∃ size, l.blocks[p.block]? = some (p.source.kind, size) ∧
    p.stop ≤ size
  aligned : ∀ p ∈ l.placements, p.source.align ∣ p.offset ∧ p.source.align ≤ pageSize
  apart : ∀ p ∈ l.placements, ∀ q ∈ l.placements, p.Apart q
  present : (l.blocks.map Prod.fst).Sublist SectionKind.all
  hasStubs : HasStubs o l

theorem Valid.positive (valid : o.Valid) : ∀ s ∈ o.sections, 0 < s.align := by
  intro s member
  obtain ⟨i, power⟩ := (valid.sections s member).align
  rw [power]
  exact Nat.two_pow_pos i

theorem all_kinds (kind : SectionKind) : kind ∈ SectionKind.all := by cases kind <;> decide

theorem sound_of_layout (valid : o.Valid) (h : o.layout = .ok l) : Sound o l := by
  unfold layout at h
  obtain ⟨drafted, placed, h⟩ := ok_of_bind h
  obtain ⟨ps, found, h⟩ := ok_of_bind h
  cases h
  have d : Draft o SectionKind.all drafted :=
    (draft_nil o).placeKinds valid.positive (by decide) placed
  have lookups := List.forall₂_iff_get.mp (mapM_eq_ok.mp found)
  have length : ps.length = o.sections.length := by rw [← lookups.1, List.length_range]
  have at' (id : Nat) (p : Placement) (placed : ps[id]? = some p) :
      p ∈ drafted.placements ∧ p.id = id := by
    obtain ⟨lt, rfl⟩ := List.getElem?_eq_some_iff.mp placed
    have lookup := lookups.2 id (lookups.1 ▸ lt) lt
    simp only [List.get_eq_getElem, List.getElem_range, ImageLayout.placementOf] at lookup
    split at lookup
    case h_1 q hit =>
      cases lookup
      exact ⟨List.mem_of_find?_eq_some hit, by simpa using List.find?_some hit⟩
    case h_2 => cases lookup
  have member (p : Placement) (placed : p ∈ ps) : p ∈ drafted.placements := by
    obtain ⟨id, placed⟩ := List.mem_iff_getElem?.mp placed
    exact (at' id p placed).1
  refine ⟨List.ext_getElem? fun id => ?_, fun id p placed => (at' id p placed).2,
    fun p placed => d.inside p (member p placed), fun p placed => d.aligned p (member p placed),
    fun p hp q hq => (d.apart p (member p hp) q (member q hq)).1, d.present, ?_⟩
  · rw [List.getElem?_map]
    cases placed : ps[id]? with
    | none =>
        have beyond := List.getElem?_eq_none_iff.mp placed
        rw [length] at beyond
        exact (List.getElem?_eq_none_iff.mpr beyond).symm
    | some p =>
        obtain ⟨known, rfl⟩ := at' id p placed
        exact (d.sources p known).1.symm
  · obtain ⟨names, inside, aligned, ordered, behind⟩ := d.hasStubs (all_kinds .text)
    exact ⟨names, inside, aligned, ordered, fun p placed => behind p (member p placed)⟩

end Object
end LiveC
