import LiveC.Proofs.LinkTargets
import LiveC.Proofs.Patches

/-!
The image that linking an object makes is the specified one: every field denotes its target,
every name that is branched to from outside has one stub, and all other bytes are those of
the sections or zero.

The sections come first, then the stubs, then the fields; each byte of a block is that of the last
of them that covers it, and they cover one another only where a field lies in its own section.
-/

namespace LiveC

/-- The bytes of a section in its block. -/
def Placement.Holds (p : Placement) (block k : Nat) : Prop :=
  p.block = block ∧ p.offset ≤ k ∧ k < p.stop

/-- The fields of two relocations of a section have no common byte. -/
def Relocation.Apart (r t : Relocation) : Prop :=
  r.offset + r.kind.width ≤ t.offset ∨ t.offset + t.kind.width ≤ r.offset

instance : DecidableRel Relocation.Apart := fun _ _ => inferInstanceAs (Decidable (_ ∨ _))

namespace Object.Sound

variable {o : Object} {l : ImageLayout} (sound : o.Sound l) {p q : Placement}
  {block k size : Nat} {s : String × Nat}
include sound

theorem holds_unique (hp : p ∈ l.placements) (hq : q ∈ l.placements) (inP : p.Holds block k)
    (inQ : q.Holds block k) : p = q := by
  have apart := sound.apart p hp q hq (inP.1.trans inQ.1.symm)
  have same : p.id = q.id := by
    obtain ⟨-, fromP, toP⟩ := inP
    obtain ⟨-, fromQ, toQ⟩ := inQ
    rcases Nat.lt_trichotomy p.id q.id with lt | same | gt
    · have := apart.1 lt
      omega
    · exact same
    · have := apart.2 gt
      omega
  obtain ⟨i, atP⟩ := List.mem_iff_getElem?.mp hp
  obtain ⟨j, atQ⟩ := List.mem_iff_getElem?.mp hq
  have numbers : i = j := by
    rw [← sound.numbered i p atP, ← sound.numbered j q atQ, same]
  rw [numbers] at atP
  exact Option.some.inj (atP.symm.trans atQ)

theorem placements_nodup : l.placements.Nodup := by
  refine List.pairwise_iff_getElem.mpr fun i j hi hj lt same => ?_
  have atI := sound.numbered i _ (List.getElem?_eq_getElem hi)
  have atJ := sound.numbered j _ (List.getElem?_eq_getElem hj)
  rw [same] at atI
  omega

/-- Stubs are outside of sections. -/
theorem not_holds_stub (hp : p ∈ l.placements) (hs : s ∈ l.stubs)
    (text : l.blocks[block]? = some (SectionKind.text, size)) (le : s.2 ≤ k) :
    ¬p.Holds block k := by
  rintro ⟨rfl, -, lt⟩
  obtain ⟨size', there, -⟩ := sound.inside p hp
  have kind : p.source.kind = .text := by
    rw [text] at there
    exact (congrArg Prod.fst (Option.some.inj there)).symm
  have := sound.hasStubs.behind p hp kind s hs
  omega

end Object.Sound

theorem jumpStub_eq (a : Word) :
    jumpStub a = [0xFF, 0x25, 0, 0, 0, 0] ++ Binary.little 8 a.toNat ++ [0xCC, 0xCC] := rfl

@[simp] theorem length_jumpStub (a : Word) : (jumpStub a).length = jumpStubSize := by
  simp [jumpStub_eq, jumpStubSize]

namespace Link

/-- The relocations of a layout in their order, each with the place of its section. -/
def sites (l : ImageLayout) : List (Placement × Relocation) :=
  l.placements.flatMap fun p => p.source.relocations.map fun r => (p, r)

/-- The patch of a section. -/
def copyPatch (p : Placement) : Patch :=
  ⟨p.block, p.offset, p.source.data, .sectionMisfit p.source.name⟩

/-- The patch of a stub. -/
def stubPatch (code : Nat) (s : String × Nat) (host : HostSymbol) : Patch :=
  ⟨code, s.2, jumpStub host.address, .stubMisfit s.1⟩

variable {o : Object} {registry : Registry} {l : ImageLayout} {regions : List Region}
  {resolved : List (String × HostSymbol)} {p : Placement} {r : Relocation} {q : Patch}
  {block k : Nat}

theorem mem_sites : (p, r) ∈ sites l ↔ p ∈ l.placements ∧ r ∈ p.source.relocations := by
  simp [sites]

theorem fields_eq (c : Context) : c.fields = (sites c.layout).map fun s => c.field s.1 s.2 := by
  simp [Context.fields, sites, List.map_flatMap, Function.comp_def]

/-- The patches of all sections that are not zero-filled. -/
def copyPatches (l : ImageLayout) : List Patch :=
  (l.placements.filter (·.source.kind ≠ .zero)).map copyPatch

theorem copies_eq (c : Context) : c.copies = (copyPatches c.layout).map .ok := by
  rw [copyPatches, List.map_map]
  rfl

theorem source_mem (sound : o.Sound l) (h : p ∈ l.placements) : p.source ∈ o.sections :=
  sound.sources ▸ List.mem_map_of_mem h

/-- A section covers the bytes of its place. -/
theorem covers_copyPatch (plan : o.Plan registry l resolved) (sound : o.Sound l)
    (member : p ∈ l.placements) (kind : p.source.kind ≠ .zero) :
    (copyPatch p).Covers block k ↔ p.Holds block k := by
  have size := (plan.valid.sections _ (source_mem sound member)).size kind
  simp [Patch.Covers, Placement.Holds, Placement.stop, copyPatch, size]

theorem covers_fieldPatch {S : Word} : (fieldPatch regions p r S).Covers block k ↔
    p.block = block ∧ p.offset + r.offset ≤ k ∧ k < p.offset + r.offset + r.kind.width := by
  simp [Patch.Covers, fieldPatch, Word.toBytes]

/-- A field lies in its section. -/
theorem holds_of_field (plan : o.Plan registry l resolved) (sound : o.Sound l)
    (member : p ∈ l.placements) (site : r ∈ p.source.relocations) (same : p.block = block)
    (le : p.offset + r.offset ≤ k) (lt : k < p.offset + r.offset + r.kind.width) :
    p.Holds block k := by
  have valid := plan.valid.sections _ (source_mem sound member)
  have field := valid.fields r site
  have kind : p.source.kind ≠ .zero := fun zero => by
    rw [(valid.zero zero).2] at site
    cases site
  have size := valid.size kind
  refine ⟨same, by omega, ?_⟩
  unfold Placement.stop
  omega

theorem byteAt_of_zeroed {blocks : List (SectionKind × Nat)} (zeroed : Zeroed blocks regions)
    (block k : Nat) : byteAt regions block k = 0 := by
  unfold byteAt
  cases found : regions[block]? with
  | none => rfl
  | some r =>
      rw [Option.map_some, zeroed.allocated r (List.mem_of_getElem? found)]
      unfold Region.byte Region.allocated
      dsimp only [Option.getD_some]
      split
      · rfl
      · exact List.getElem?_getD_replicate_default_eq ..

/-! ### What is written -/

theorem map_eq_map_ok {α β ε : Type} {f : α → Except ε β} {as : List α} {bs : List β} :
    as.map f = bs.map .ok ↔ List.Forall₂ (fun a b => f a = .ok b) as bs := by
  rw [← List.forall₂_eq_eq_eq, List.forall₂_map_left_iff, List.forall₂_map_right_iff]

theorem exists_forall₂ {α β : Type} {R : α → β → Prop} {as : List α} (h : ∀ a ∈ as, ∃ b, R a b) :
    ∃ bs, List.Forall₂ R as bs := by
  induction as with
  | nil => exact ⟨[], .nil⟩
  | cons a as ih =>
      obtain ⟨⟨b, first⟩, others⟩ := List.forall_mem_cons.mp h
      obtain ⟨bs, rest⟩ := ih others
      exact ⟨b :: bs, .cons first rest⟩

/-- Patches for elements that stand apart are apart. -/
theorem pairwise_of_forall₂ {α β : Type} {R : α → β → Prop} {A : α → α → Prop} {B : β → β → Prop}
    {as : List α} {bs : List β} (h : List.Forall₂ R as bs) (apart : as.Pairwise A)
    (transfer : ∀ a a' b b', A a a' → R a b → R a' b' → B b b') : bs.Pairwise B := by
  induction h with
  | nil => exact .nil
  | @cons a b as bs first rest ih =>
      obtain ⟨others, apart⟩ := List.pairwise_cons.mp apart
      refine List.pairwise_cons.mpr ⟨fun b' member => ?_, ih apart⟩
      obtain ⟨a', isElement, related⟩ := exists_of_forall₂ rest member
      exact transfer a a' b b' (others a' isElement) first related

/-- The patch of a stub in the block of code, with the address that the registry has for it. -/
def IsStub (registry : Registry) (l : ImageLayout) (s : String × Nat) (q : Patch) : Prop :=
  ∃ host code size, registry.find? s.1 = some host ∧
    l.blocks[code]? = some (SectionKind.text, size) ∧ q = stubPatch code s host

/-- The patch of a field, with the target of its relocation. -/
def IsField (o : Object) (registry : Registry) (l : ImageLayout) (regions : List Region)
    (s : Placement × Relocation) (q : Patch) : Prop :=
  ∃ S found, Refers o registry l regions s.2 S found ∧ s.2.InRange S (siteOf regions s.1 s.2) ∧
    q = fieldPatch regions s.1 s.2 S

/-- Behind a plan all stubs are known. -/
theorem stubs_of_plan (regions : List Region) (plan : o.Plan registry l resolved) (sound : o.Sound l) :
    ∃ stubs, (contextOf o l regions resolved).stubs = stubs.map .ok ∧
      List.Forall₂ (IsStub registry l) l.stubs stubs := by
  cases code : (contextOf o l regions resolved).codeBlock? with
  | none =>
      have none : l.stubs = [] := List.eq_nil_iff_forall_not_mem.mpr fun s member => by
        obtain ⟨b, size, text, -⟩ := sound.hasStubs.inside s member
        have found : (contextOf o l regions resolved).codeBlock? = some b :=
          codeBlock?_eq_some sound text
        rw [code] at found
        cases found
      refine ⟨[], ?_, none ▸ .nil⟩
      unfold Context.stubs
      rw [code]
      rfl
  | some b =>
      have known : ∀ s ∈ l.stubs, ∃ q, (contextOf o l regions resolved).stub b s = .ok q ∧
          IsStub registry l s q := by
        intro s member
        have name : s.1 ∈ o.stubNames := by
          rw [← sound.hasStubs.names]
          exact List.mem_map_of_mem member
        obtain ⟨r, used, -, target, isUndefined⟩ := Object.mem_stubNames.mp name
        obtain ⟨host, bound, resolves⟩ :=
          plan.find? (Object.mem_undefinedNames.mpr ⟨⟨r, used, target⟩, isUndefined⟩)
        obtain ⟨b', size, text, -⟩ := sound.hasStubs.inside s member
        have same : some b = some b' := code.symm.trans (codeBlock?_eq_some sound text)
        cases same
        refine ⟨stubPatch b s host, ?_, host, b, size, bound, text, rfl⟩
        have there : (contextOf o l regions resolved).resolved.lookup s.1 = some host := resolves
        simp only [Context.stub, there]
        rfl
      obtain ⟨stubs, all⟩ := exists_forall₂ known
      refine ⟨stubs, ?_, all.imp fun _ _ h => h.2⟩
      unfold Context.stubs
      rw [code]
      exact map_eq_map_ok.mpr (all.imp fun _ _ h => h.1)

/-- A field that is written is the one of its target. -/
theorem isField_of_field (plan : o.Plan registry l resolved) (sound : o.Sound l)
    {s : Placement × Relocation} (member : s ∈ sites l)
    (h : (contextOf o l regions resolved).field s.1 s.2 = .ok q) :
    IsField o registry l regions s q := by
  obtain ⟨placed, site⟩ := mem_sites.mp member
  obtain ⟨S, found, target, refers⟩ := refers_of_plan regions plan sound (source_mem sound placed) site
  by_cases agrees : s.2.Agrees found
  case neg =>
    obtain ⟨_, _, -, -, -, refused⟩ := field_of_not_agrees (p := s.1) target agrees
    rw [h] at refused
    cases refused
  case pos =>
    by_cases range : s.2.InRange S (siteOf regions s.1 s.2)
    · rw [field_of_inRange target agrees range] at h
      cases h
      exact ⟨S, found, refers, range, rfl⟩
    · rw [field_of_not_inRange target agrees range] at h
      cases h

/-- Blocks that are filled with the sections, stubs and fields of an object. -/
structure Filled (o : Object) (registry : Registry) (l : ImageLayout) (regions : List Region)
    (stubs fields : List Patch) (written : List Region) : Prop where
  areStubs : List.Forall₂ (IsStub registry l) l.stubs stubs
  areFields : List.Forall₂ (IsField o registry l regions) (sites l) fields
  written : (copyPatches l ++ (stubs ++ fields)).foldlM patch regions = .ok written

theorem filled_of_fill (plan : o.Plan registry l resolved) (sound : o.Sound l)
    {written : List Region} (h : (contextOf o l regions resolved).fill regions = .ok written) :
    ∃ stubs fields, Filled o registry l regions stubs fields written := by
  obtain ⟨stubs, known, isStub⟩ := stubs_of_plan regions plan sound
  obtain ⟨patches, split, done⟩ := foldlM_write h
  unfold Context.patches at split
  rw [copies_eq, known, ← List.map_append] at split
  obtain ⟨first, fields, rfl, firsts, filled⟩ := List.append_eq_map_iff.mp split
  rw [List.map_injective_iff.mpr (fun _ _ => Except.ok.inj) firsts, List.append_assoc] at done
  rw [fields_eq] at filled
  have isField := map_eq_map_ok.mp filled.symm
  refine ⟨stubs, fields, isStub, ?_, done⟩
  exact (forall₂_mem isField).imp fun s q h => isField_of_field plan sound h.1 h.2.2

/-! ### Nothing is written over, except by fields in their sections -/

/-- The field of a relocation of a section that is placed. -/
def SiteCovers (s : Placement × Relocation) (block k : Nat) : Prop :=
  s.1.block = block ∧ s.1.offset + s.2.offset ≤ k ∧ k < s.1.offset + s.2.offset + s.2.kind.width

theorem IsField.covers {s : Placement × Relocation} (h : IsField o registry l regions s q) :
    q.Covers block k ↔ SiteCovers s block k := by
  obtain ⟨S, found, -, -, rfl⟩ := h
  exact covers_fieldPatch

theorem IsStub.covers {s : String × Nat} (h : IsStub registry l s q) (covered : q.Covers block k) :
    (∃ size, l.blocks[block]? = some (SectionKind.text, size)) ∧ s.2 ≤ k ∧
      k < s.2 + jumpStubSize := by
  obtain ⟨host, code, size, -, text, rfl⟩ := h
  obtain ⟨rfl, le, lt⟩ := covered
  exact ⟨⟨size, text⟩, le, by simpa [stubPatch] using lt⟩

theorem sites_apart (plan : o.Plan registry l resolved) (sound : o.Sound l)
    (apart : ∀ s ∈ o.sections, s.relocations.Pairwise Relocation.Apart) :
    (sites l).Pairwise fun s t => ∀ block k, SiteCovers s block k → ¬SiteCovers t block k := by
  refine List.pairwise_flatMap.mpr ⟨fun p placed => ?_, ?_⟩
  · refine List.pairwise_map.mpr ((apart _ (source_mem sound placed)).imp ?_)
    rintro r t before block k ⟨-, le, lt⟩ ⟨-, le', lt'⟩
    unfold Relocation.Apart at before
    dsimp only at *
    omega
  · refine sound.placements_nodup.imp_of_mem fun hp hq differ => ?_
    intro s isSite t isSite' block k inS inT
    obtain ⟨r, member, rfl⟩ := List.mem_map.mp isSite
    obtain ⟨t, member', rfl⟩ := List.mem_map.mp isSite'
    exact differ (sound.holds_unique hp hq
      (holds_of_field plan sound hp member inS.1 inS.2.1 inS.2.2)
      (holds_of_field plan sound hq member' inT.1 inT.2.1 inT.2.2))

theorem holds_of_site (plan : o.Plan registry l resolved) (sound : o.Sound l)
    {s : Placement × Relocation} (member : s ∈ sites l) (covered : SiteCovers s block k) :
    s.1 ∈ l.placements ∧ s.1.Holds block k := by
  obtain ⟨placed, site⟩ := mem_sites.mp member
  exact ⟨placed, holds_of_field plan sound placed site covered.1 covered.2.1 covered.2.2⟩

namespace Filled

variable {stubs fields : List Patch} {written : List Region}
  (h : Filled o registry l regions stubs fields written)
include h

theorem mem_stub (member : q ∈ stubs) : ∃ s ∈ l.stubs, IsStub registry l s q :=
  exists_of_forall₂ h.areStubs member

theorem mem_field (member : q ∈ fields) : ∃ s ∈ sites l, IsField o registry l regions s q :=
  exists_of_forall₂ h.areFields member

/-- Stubs and fields are apart. -/
theorem apart (plan : o.Plan registry l resolved) (sound : o.Sound l)
    (apart : ∀ s ∈ o.sections, s.relocations.Pairwise Relocation.Apart) :
    (stubs ++ fields).Pairwise Patch.Apart := by
  refine List.pairwise_append.mpr ⟨?_, ?_, fun q isStub t isField block k inStub inField => ?_⟩
  · refine pairwise_of_forall₂ h.areStubs sound.hasStubs.ordered ?_
    intro s t q q' before isStub isStub' block k inQ inQ'
    have := (isStub.covers inQ).2
    have := (isStub'.covers inQ').2
    omega
  · refine pairwise_of_forall₂ h.areFields (sites_apart plan sound apart) ?_
    intro s t q q' before isField isField' block k inQ inQ'
    exact before block k (isField.covers.mp inQ) (isField'.covers.mp inQ')
  · obtain ⟨s, isStub, stub⟩ := h.mem_stub isStub
    obtain ⟨site, isSite, field⟩ := h.mem_field isField
    obtain ⟨⟨size, text⟩, le, -⟩ := stub.covers inStub
    obtain ⟨placed, holds⟩ := holds_of_site plan sound isSite (field.covers.mp inField)
    exact sound.not_holds_stub placed isStub text le holds

variable (plan : o.Plan registry l resolved) (sound : o.Sound l)
include plan sound

/-- No patch but the one of a section and the fields in it touches the section. -/
theorem covers_of_holds (placed : p ∈ l.placements) (holds : p.Holds block k)
    (member : q ∈ copyPatches l ++ (stubs ++ fields)) (covered : q.Covers block k) :
    q = copyPatch p ∨ ∃ r ∈ p.source.relocations, SiteCovers (p, r) block k := by
  rcases List.mem_append.mp member with copy | member
  · obtain ⟨p', isPlaced, rfl⟩ := List.mem_map.mp copy
    obtain ⟨placed', kind⟩ := List.mem_filter.mp isPlaced
    have inP' := (covers_copyPatch plan sound placed' (of_decide_eq_true kind)).mp covered
    rw [sound.holds_unique placed' placed inP' holds]
    exact .inl rfl
  rcases List.mem_append.mp member with isStub | isField
  · obtain ⟨s, isStub, stub⟩ := h.mem_stub isStub
    obtain ⟨⟨size, text⟩, le, -⟩ := stub.covers covered
    exact absurd holds (sound.not_holds_stub placed isStub text le)
  · obtain ⟨⟨p', r⟩, isSite, field⟩ := h.mem_field isField
    have inField := field.covers.mp covered
    obtain ⟨placed', holds'⟩ := holds_of_site plan sound isSite inField
    obtain rfl : p' = p := sound.holds_unique placed' placed holds' holds
    exact .inr ⟨r, (mem_sites.mp isSite).2, inField⟩

/-- Outside of fields a section has the bytes of the object. -/
theorem byteAt_section (placed : p ∈ l.placements) (lt : k < p.source.data.length)
    (outside : ∀ r ∈ p.source.relocations, k < r.offset ∨ r.offset + r.kind.width ≤ k) :
    byteAt written p.block (p.offset + k) = p.source.data[k] := by
  have valid := plan.valid.sections _ (source_mem sound placed)
  have kind : p.source.kind ≠ .zero := fun zero => by
    rw [(valid.zero zero).1] at lt
    exact absurd lt (Nat.not_lt_zero k)
  have holds : p.Holds p.block (p.offset + k) := by
    refine ⟨rfl, by omega, ?_⟩
    rw [Placement.stop, valid.size kind]
    omega
  have isCopy : copyPatch p ∈ copyPatches l :=
    List.mem_map_of_mem (List.mem_filter.mpr ⟨placed, decide_eq_true kind⟩)
  refine byteAt_patches_of_agree h.written ⟨copyPatch p, List.mem_append_left _ isCopy,
    (covers_copyPatch plan sound placed kind).mpr holds⟩ fun q member covered => ?_
  rcases h.covers_of_holds plan sound placed holds member covered with rfl | ⟨r, site, inField⟩
  · simp [copyPatch, List.getD_eq_getElem?_getD, lt]
  · obtain ⟨-, le, lt'⟩ := inField
    have := outside r site
    dsimp only at le lt'
    omega

/-- Outside of the contents of sections and of stubs all bytes are zero. -/
theorem byteAt_outside (zeroed : Zeroed l.blocks regions)
    (noSection : ∀ p ∈ l.placements, p.Holds block k → p.source.kind = .zero)
    (noStub : ∀ s ∈ l.stubs, ∀ size, l.blocks[block]? = some (SectionKind.text, size) →
      k < s.2 ∨ s.2 + jumpStubSize ≤ k) : byteAt written block k = 0 := by
  rw [byteAt_patches_of_not_covers h.written, byteAt_of_zeroed zeroed]
  intro q member covered
  rcases List.mem_append.mp member with copy | member
  · obtain ⟨p, isPlaced, rfl⟩ := List.mem_map.mp copy
    obtain ⟨placed, kind⟩ := List.mem_filter.mp isPlaced
    have kind := of_decide_eq_true kind
    exact kind (noSection p placed ((covers_copyPatch plan sound placed kind).mp covered))
  rcases List.mem_append.mp member with isStub | isField
  · obtain ⟨s, isStub, stub⟩ := h.mem_stub isStub
    obtain ⟨⟨size, text⟩, le, lt⟩ := stub.covers covered
    have := noStub s isStub size text
    omega
  · obtain ⟨⟨p, r⟩, isSite, field⟩ := h.mem_field isField
    obtain ⟨placed, holds⟩ := holds_of_site plan sound isSite (field.covers.mp covered)
    have zero := (plan.valid.sections _ (source_mem sound placed)).zero (noSection p placed holds)
    have site := (mem_sites.mp isSite).2
    rw [zero.2] at site
    cases site

end Filled

end Link

/-! ### The specified image -/

namespace Link

/-- The image of an object that is laid out so, as it must be. -/
structure Specified (o : Object) (registry : Registry) (l : ImageLayout) (image : Image) :
    Prop where
  blocks : image.regions.map (fun r => (r.kind, r.size)) = l.blocks
  /-- The address of a field is `P`, and `S` is that of the target. -/
  fields : ∀ p ∈ l.placements, ∀ r ∈ p.source.relocations, ∃ S found,
    Refers o registry l image.regions r S found ∧
      r.Denotes S (addressIn image.regions p.block (p.offset + r.offset))
        (bytesAt image.regions p.block (p.offset + r.offset) r.kind.width)
  oneStub : (l.stubs.map Prod.fst).Nodup
  stubNames : ∀ name, name ∈ l.stubs.map Prod.fst ↔ ∃ r ∈ o.relocations,
    r.kind = .branch32 ∧ r.target = .symbol name ∧ o.global? name = none
  stubs : ∀ s ∈ l.stubs, ∃ host code size, registry.find? s.1 = some host ∧
    l.blocks[code]? = some (SectionKind.text, size) ∧ s.2 + jumpStubSize ≤ size ∧
    bytesAt image.regions code s.2 jumpStubSize =
      [0xFF, 0x25, 0, 0, 0, 0] ++ Binary.little 8 host.address.toNat ++ [0xCC, 0xCC]
  sections : ∀ p ∈ l.placements, ∀ k, ∀ lt : k < p.source.data.length,
    (∀ r ∈ p.source.relocations, k < r.offset ∨ r.offset + r.kind.width ≤ k) →
      byteAt image.regions p.block (p.offset + k) = p.source.data[k]
  zeros : ∀ block k, (∀ p ∈ l.placements, p.Holds block k → p.source.kind = .zero) →
    (∀ s ∈ l.stubs, ∀ size, l.blocks[block]? = some (SectionKind.text, size) →
      k < s.2 ∨ s.2 + jumpStubSize ≤ k) → byteAt image.regions block k = 0
  symbols : ∀ s ∈ o.symbols, s.isGlobal = true → ∃ p, l.placements[s.sectionId]? = some p ∧
    image.symbol? s.name = some
      { name := s.name, kind := s.kind, size := s.size, shape := s.shape
        address := addressIn image.regions p.block p.offset + BitVec.ofNat 64 s.offset }

variable {o : Object} {registry : Registry} {l : ImageLayout} {regions written : List Region}
  {resolved : List (String × HostSymbol)}

theorem addressIn_congr (same : written.map Region.bare = regions.map Region.bare) :
    addressIn written = addressIn regions := by
  have bases : written.map Region.base = regions.map Region.base := by
    have := congrArg (List.map Region.base) same
    rw [List.map_map, List.map_map] at this
    exact this
  funext block offset
  rw [addressIn, addressIn, ← List.getElem?_map, ← List.getElem?_map, bases]

theorem Refers.congr {r : Relocation} {S : Word} {found : Option SymbolKind}
    (same : addressIn written = addressIn regions) (h : Refers o registry l regions r S found) :
    Refers o registry l written r S found := by
  cases h with
  | start target placed => exact same ▸ .start target placed
  | own target own placed => exact same ▸ .own target own placed
  | host target isUndefined bound kind => exact .host target isUndefined bound kind
  | stub target isUndefined bound kind placed text =>
      exact same ▸ .stub target isUndefined bound kind placed text

/-- What a successful link has done. -/
theorem linkWith_eq_ok {σ : Type} {allocate : σ → Nat → Option (Word × σ)} {space space' : σ}
    {image : Image} (h : o.linkWith allocate registry space = .ok (image, space')) :
    ∃ l resolved regions, o.Plan registry l resolved ∧
      allocateBlocks allocate space l.blocks = .ok (regions, space') ∧
      (contextOf o l regions resolved).fill regions = .ok image.regions ∧
      image.symbols = (contextOf o l regions resolved).loadedSymbols := by
  unfold Object.linkWith at h
  obtain ⟨⟨l, resolved⟩, planned, h⟩ := ok_of_bind h
  obtain ⟨⟨regions, space''⟩, allocated, h⟩ := ok_of_bind h
  obtain ⟨filled, done, h⟩ := ok_of_bind h
  cases h
  exact ⟨l, resolved, regions, Object.plan_of_plan planned, allocated, done, rfl⟩

theorem find?_of_nodup_map {α : Type} {f : α → String} {as : List α} {a : α}
    (distinct : (as.map f).Nodup) (member : a ∈ as) : as.find? (f · == f a) = some a := by
  cases found : as.find? (f · == f a) with
  | none => exact absurd (List.find?_eq_none.mp found a member) (by simp)
  | some b =>
      have same : f b = f a := by simpa using List.find?_some found
      rw [List.inj_on_of_nodup_map distinct (List.mem_of_find?_eq_some found) member same]

/-- Each global symbol is found under its name, at its place. -/
theorem symbol?_of_global (plan : o.Plan registry l resolved) {image : Image}
    (symbols : image.symbols = (contextOf o l regions resolved).loadedSymbols) {s : ObjectSymbol}
    (member : s ∈ o.symbols) (isGlobal : s.isGlobal = true) :
    image.symbol? s.name = some { name := s.name, kind := s.kind, size := s.size, shape := s.shape
                                  address := (contextOf o l regions resolved).symbolAddress s } := by
  have known : s ∈ o.symbols.filter (·.isGlobal) := List.mem_filter.mpr ⟨member, isGlobal⟩
  have found := find?_of_nodup_map plan.valid.globals known
  unfold Image.symbol?
  rw [symbols, Context.loadedSymbols, List.find?_map]
  exact congrArg (Option.map _) found

variable {stubs fields : List Patch} {q : Patch}

theorem Filled.bytesAt_stub (filled : Filled o registry l regions stubs fields written)
    (plan : o.Plan registry l resolved) (sound : o.Sound l)
    (apart : ∀ s ∈ o.sections, s.relocations.Pairwise Relocation.Apart) {s : String × Nat}
    (member : s ∈ l.stubs) : ∃ host code size, registry.find? s.1 = some host ∧
      l.blocks[code]? = some (SectionKind.text, size) ∧ s.2 + jumpStubSize ≤ size ∧
      bytesAt written code s.2 jumpStubSize = jumpStub host.address := by
  obtain ⟨q, isPatch, host, code, size, bound, text, rfl⟩ :=
    exists_of_forall₂ filled.areStubs.flip member
  obtain ⟨code', size', text', inside⟩ := sound.hasStubs.inside s member
  obtain rfl := text_unique sound text text'
  obtain rfl : size = size' := by
    rw [text] at text'
    exact congrArg Prod.snd (Option.some.inj text')
  refine ⟨host, code, size, bound, text, inside, ?_⟩
  have read := bytesAt_patches filled.written (filled.apart plan sound apart)
    (List.mem_append_left _ isPatch)
  simpa [stubPatch] using read

theorem Filled.denotes (filled : Filled o registry l regions stubs fields written)
    (plan : o.Plan registry l resolved) (sound : o.Sound l)
    (apart : ∀ s ∈ o.sections, s.relocations.Pairwise Relocation.Apart) {p : Placement}
    {r : Relocation} (placed : p ∈ l.placements) (site : r ∈ p.source.relocations) :
    ∃ S found, Refers o registry l regions r S found ∧ r.Denotes S (siteOf regions p r)
      (bytesAt written p.block (p.offset + r.offset) r.kind.width) := by
  obtain ⟨q, isPatch, S, found, refers, range, rfl⟩ :=
    exists_of_forall₂ filled.areFields.flip (mem_sites.mpr ⟨placed, site⟩)
  refine ⟨S, found, refers, ?_⟩
  have read := bytesAt_patches filled.written (filled.apart plan sound apart)
    (List.mem_append_right _ isPatch)
  have length : (fieldPatch regions p r S).bytes.length = r.kind.width := Binary.length_little ..
  rw [length] at read
  have denotes : r.Denotes S (siteOf regions p r) (fieldPatch regions p r S).bytes :=
    Relocation.denotes_encode range
  rw [← read] at denotes
  exact denotes

/-- Linking an object without overlapping fields makes the specified image. -/
theorem linkWith_specified {σ : Type} {allocate : σ → Nat → Option (Word × σ)} {space space' : σ}
    {image : Image} (apart : ∀ s ∈ o.sections, s.relocations.Pairwise Relocation.Apart)
    (h : o.linkWith allocate registry space = .ok (image, space')) :
    ∃ l, o.layout = .ok l ∧ o.Sound l ∧ Specified o registry l image := by
  obtain ⟨l, resolved, regions, plan, allocated, done, symbols⟩ := linkWith_eq_ok h
  have sound := Object.sound_of_layout plan.valid plan.layout
  have zeroed := zeroed_of_allocateBlocks allocated
  obtain ⟨stubs, fields, filled⟩ := filled_of_fill plan sound done
  have bare := bare_patches filled.written
  have addresses := addressIn_congr bare
  refine ⟨l, plan.layout, sound, ?_, fun p placed r site => ?_, ?_, fun name => ?_,
    fun s member => filled.bytesAt_stub plan sound apart member,
    fun p placed k lt outside => filled.byteAt_section plan sound placed lt outside,
    fun block k => filled.byteAt_outside plan sound zeroed, fun s member isGlobal => ?_⟩
  · have := congrArg (List.map fun r : Region => (r.kind, r.size)) bare
    rw [List.map_map, List.map_map] at this
    exact this.trans zeroed.blocks
  · obtain ⟨S, found, refers, denotes⟩ := filled.denotes plan sound apart placed site
    rw [addresses]
    exact ⟨S, found, refers.congr addresses, denotes⟩
  · rw [sound.hasStubs.names]
    exact nodup_eraseDups _
  · rw [sound.hasStubs.names]
    exact Object.mem_stubNames
  · obtain ⟨place, found, -⟩ := plan.valid.symbols s member
    obtain ⟨p, placed, -⟩ := placement_of_section sound (List.getElem?_eq_some_iff.mp found).1
    refine ⟨p, placed, ?_⟩
    rw [symbol?_of_global plan symbols member isGlobal, Context.symbolAddress,
      sectionAddress_contextOf placed, addresses]

/-- A function that branches to one of the host and reads a variable, which holds the address of
the function. -/
def branchingObject : Object where
  sections :=
    [.ofBytes .text [0xE8, 0, 0, 0, 0, 0x48, 0x8B, 0x05, 0, 0, 0, 0, 0xC3] 16
      [⟨1, .branch32, .symbol "puts", -4, some .function⟩, ⟨8, .pc32, .symbol "self", -4, some .data⟩],
     .ofBytes .data [0, 0, 0, 0, 0, 0, 0, 0, 7] 8 [⟨0, .abs64, .sectionStart 0, 5, none⟩],
     .zeroed 16 16]
  symbols := [⟨"start", .function, 0, 0, 13, true, none⟩, ⟨"self", .data, 1, 0, 9, true, none⟩]

/-- A registry with the function that `branchingObject` branches to. -/
def branchedTo : Registry := { bindings := [("puts", ⟨.function, 0x1000, none⟩)] }

theorem linkWith_specified_branchingObject : ∃ image space' l,
    branchingObject.linkWith AddressSpace.allocate? branchedTo {} = .ok (image, space') ∧
      branchingObject.layout = .ok l ∧ Specified branchingObject branchedTo l image := by
  have links : (branchingObject.linkWith AddressSpace.allocate? branchedTo {}).isOk = true := by
    decide +kernel
  cases linked : branchingObject.linkWith AddressSpace.allocate? branchedTo {} with
  | error e =>
      rw [linked] at links
      cases links
  | ok r =>
      obtain ⟨image, space'⟩ := r
      obtain ⟨l, isLayout, -, specified⟩ := linkWith_specified (by decide) linked
      exact ⟨image, space', l, rfl, isLayout, specified⟩

end Link
end LiveC
