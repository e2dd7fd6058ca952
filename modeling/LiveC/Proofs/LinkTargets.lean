import LiveC.Link.Image
import LiveC.Proofs.LayoutSound
import Mathlib.Algebra.Ring.Int.Defs

/-!
Where relocations lead. Linking settles which names are bound and where everything lies
before it writes anything; from then on each relocation of a valid object has one target, in
the object, in the registry or at a stub.
-/

namespace LiveC

/-! ### Names without repetition -/

section

variable {α : Type} [BEq α] [LawfulBEq α]

theorem nodup_eraseDups (l : List α) : l.eraseDups.Nodup := by
  induction h : l.length using Nat.strong_induction_on generalizing l with
  | _ n ih =>
      cases l with
      | nil => exact List.nodup_nil
      | cons a l =>
          rw [List.eraseDups_cons, List.nodup_cons]
          refine ⟨fun member => ?_, ih _ ?_ _ rfl⟩
          · simpa using List.mem_eraseDups.mp member
          · rw [← h, List.length_cons, Nat.lt_succ_iff]
            exact List.length_filter_le ..

theorem eraseDups_of_nodup {l : List α} (h : l.Nodup) : l.eraseDups = l := by
  induction l with
  | nil => rfl
  | cons a l ih =>
      obtain ⟨fresh, others⟩ := List.nodup_cons.mp h
      have kept : l.filter (fun b => !b == a) = l :=
        List.filter_eq_self.mpr fun b member => by
          simpa using fun same : b = a => fresh (same ▸ member)
      rw [List.eraseDups_cons, kept, ih others]

theorem eraseDups_filter (p : α → Bool) (l : List α) :
    (l.filter p).eraseDups = l.eraseDups.filter p := by
  induction h : l.length using Nat.strong_induction_on generalizing l with
  | _ n ih =>
      cases l with
      | nil => rfl
      | cons a l =>
          have shorter : (l.filter fun b => !b == a).length < n := by
            rw [← h, List.length_cons, Nat.lt_succ_iff]
            exact List.length_filter_le ..
          have others := ih _ shorter (l.filter fun b => !b == a) rfl
          rw [List.filter_comm] at others
          rw [List.eraseDups_cons]
          by_cases kept : p a = true
          · rw [List.filter_cons_of_pos kept, List.filter_cons_of_pos kept, List.eraseDups_cons,
              others]
          · have same : (l.filter p).filter (fun b => !b == a) = l.filter p := by
              refine List.filter_eq_self.mpr fun b member => ?_
              have : b ≠ a := fun same => kept (same ▸ (List.mem_filter.mp member).2)
              simpa using this
            rw [List.filter_cons_of_neg kept, List.filter_cons_of_neg kept, ← others, same]

/-- Taking up what is not there yet. -/
theorem foldl_eq_eraseDups (l seen : List α) :
    l.foldl (fun seen a => if seen.contains a then seen else seen ++ [a]) seen =
      seen ++ (l.filter fun a => !seen.contains a).eraseDups := by
  induction l generalizing seen with
  | nil => simp
  | cons a l ih =>
      rw [List.foldl_cons, ih]
      by_cases known : seen.contains a = true
      · rw [if_pos known, List.filter_cons_of_neg (by simpa using known)]
      · rw [if_neg known, List.filter_cons_of_pos (by simpa using known), List.eraseDups_cons,
          List.filter_filter, List.append_assoc, List.singleton_append]
        congr 4
        funext b
        rw [List.contains_append, Bool.not_or, Bool.and_comm]
        simp

end

namespace Object

variable {o : Object} {registry : Registry} {name : String}

theorem undefinedNames_eq (o : Object) :
    o.undefinedNames = (o.usedNames.filter fun n => (o.global? n).isNone).eraseDups := by
  unfold undefinedNames
  rw [foldl_eq_eraseDups, List.nil_append]
  congr 1
  exact List.filter_eq_self.mpr fun _ _ => rfl

theorem mem_undefinedNames : name ∈ o.undefinedNames ↔
    (∃ r ∈ o.relocations, r.target = .symbol name) ∧ o.global? name = none := by
  rw [undefinedNames_eq, List.mem_eraseDups, List.mem_filter, Option.isNone_iff_eq_none]
  refine and_congr_left' ?_
  unfold usedNames
  rw [List.mem_filterMap]
  refine exists_congr fun r => and_congr_right' ?_
  cases r.target <;> simp

theorem mem_stubNames : name ∈ o.stubNames ↔
    ∃ r ∈ o.relocations, r.kind = .branch32 ∧ r.target = .symbol name ∧ o.global? name = none := by
  unfold stubNames
  rw [List.mem_eraseDups, List.mem_filterMap]
  refine exists_congr fun r => and_congr_right' ?_
  cases r.kind <;> cases r.target <;> simp
  constructor
  · rintro ⟨isUndefined, rfl⟩
    exact ⟨rfl, isUndefined⟩
  · rintro ⟨rfl, isUndefined⟩
    exact ⟨isUndefined, rfl⟩

/-- The names that are bound nowhere, in the order of first use. -/
def missingNames (o : Object) (registry : Registry) : List String :=
  (o.usedNames.filter fun n => (o.global? n).isNone && !registry.contains n).eraseDups

theorem snapshot_missing (o : Object) (registry : Registry) :
    (registry.snapshot o.undefinedNames).2 = o.missingNames registry := by
  change (o.undefinedNames.filter fun n => !registry.contains n).eraseDups = _
  rw [undefinedNames_eq, ← eraseDups_filter, eraseDups_of_nodup (nodup_eraseDups _),
    List.filter_filter]
  unfold missingNames
  congr 2
  funext n
  exact Bool.and_comm ..

theorem mem_missingNames {registry : Registry} : name ∈ o.missingNames registry ↔
    name ∈ o.undefinedNames ∧ registry.contains name = false := by
  rw [← snapshot_missing]
  change name ∈ (o.undefinedNames.filter fun n => !registry.contains n).eraseDups ↔ _
  rw [List.mem_eraseDups, List.mem_filter, Bool.not_eq_true']

/-- What the registry has for names, by name. -/
theorem lookup_snapshot {names : List String} (member : name ∈ names) :
    (registry.snapshot names).1.lookup name = registry.find? name := by
  change (names.filterMap fun n => (registry.find? n).map fun s => (n, s)).lookup name = _
  induction names with
  | nil => exact absurd member List.not_mem_nil
  | cons first names ih =>
      by_cases same : name = first
      · subst same
        cases found : registry.find? name with
        | some s => simp [found]
        | none =>
            rw [List.filterMap_cons, found]
            refine List.lookup_eq_none_iff.mpr fun entry member => ?_
            obtain ⟨n, -, bound⟩ := List.mem_filterMap.mp member
            obtain ⟨s, there, rfl⟩ := Option.map_eq_some_iff.mp bound
            have : name ≠ n := fun same => by simp [← same, found] at there
            simpa using this
      · have rest := ih (List.mem_of_ne_of_mem same member)
        rw [List.filterMap_cons]
        cases registry.find? first with
        | none => exact rest
        | some s =>
            have other : (name == first) = false := by simpa using same
            rw [← rest]
            simp [List.lookup_cons, other]

/-- What a plan settles. -/
structure Plan (o : Object) (registry : Registry) (l : ImageLayout)
    (resolved : List (String × HostSymbol)) : Prop where
  valid : o.Valid
  bound : o.missingNames registry = []
  resolved : resolved = (registry.snapshot o.undefinedNames).1
  layout : o.layout = .ok l

variable {l : ImageLayout} {resolved : List (String × HostSymbol)}

theorem plan_of_plan (h : o.plan registry = .ok (l, resolved)) : o.Plan registry l resolved := by
  unfold plan at h
  obtain ⟨_, validated, h⟩ := ok_of_bind h
  have valid : o.validate = .ok () := by
    cases valid : o.validate with
    | ok => rfl
    | error e =>
        rw [valid] at validated
        cases validated
  have missing := snapshot_missing o registry
  cases snapshot : registry.snapshot o.undefinedNames with
  | mk found unbound =>
      rw [snapshot] at h missing
      cases unbound with
      | cons name others => cases h
      | nil =>
          obtain ⟨l', isLayout, h⟩ := ok_of_bind h
          cases h
          exact ⟨valid_of_validate valid, missing.symm, by rw [snapshot], isLayout⟩

theorem Plan.find? (plan : o.Plan registry l resolved) (member : name ∈ o.undefinedNames) :
    ∃ host, registry.find? name = some host ∧ resolved.lookup name = some host := by
  have same : resolved.lookup name = registry.find? name := by
    rw [plan.resolved]
    exact lookup_snapshot member
  rw [same]
  cases found : registry.find? name with
  | some host => exact ⟨host, rfl, rfl⟩
  | none =>
      have unbound : registry.contains name = false := by
        rw [Registry.contains, found]
        rfl
      have missing : name ∈ o.missingNames registry := mem_missingNames.mpr ⟨member, unbound⟩
      rw [plan.bound] at missing
      cases missing

end Object

namespace Link

/-! ### Memory that is set aside -/

section

variable {σ : Type} {allocate : σ → Nat → Option (Word × σ)} {space space' : σ}
  {blocks : List (SectionKind × Nat)} {regions : List Region}

/-- Blocks of kinds and sizes, all zeros. -/
structure Zeroed (blocks : List (SectionKind × Nat)) (regions : List Region) : Prop where
  blocks : regions.map (fun r => (r.kind, r.size)) = blocks
  allocated : ∀ r ∈ regions, r = .allocated r.kind r.base r.size

theorem allocateBlock_ok {s t : List Region × σ} {block : SectionKind × Nat}
    (h : allocateBlock allocate s block = .ok t) :
    ∃ base, t.1 = s.1 ++ [.allocated block.1 base block.2] := by
  unfold allocateBlock at h
  cases given : allocate s.2 block.2 with
  | none =>
      simp only [given] at h
      cases h
  | some found =>
      simp only [given] at h
      cases h
      exact ⟨found.1, rfl⟩

theorem zeroed_of_allocateBlocks (h : allocateBlocks allocate space blocks = .ok (regions, space')) :
    Zeroed blocks regions := by
  suffices ∀ before done : List (SectionKind × Nat), ∀ s : List Region × σ, Zeroed done s.1 →
      before.foldlM (allocateBlock allocate) s = .ok (regions, space') →
      Zeroed (done ++ before) regions from
    this blocks [] ([], space) ⟨rfl, List.forall_mem_nil _⟩ h
  intro rest
  induction rest with
  | nil =>
      intro done s zeroed h
      cases h
      rwa [List.append_nil]
  | cons block rest ih =>
      intro done s zeroed h
      rw [List.foldlM_cons] at h
      obtain ⟨t, first, h⟩ := ok_of_bind h
      have split : done ++ block :: rest = done ++ [block] ++ rest := by simp
      rw [split]
      refine ih _ t ?_ h
      obtain ⟨base, new⟩ := allocateBlock_ok first
      rw [new]
      refine ⟨by rw [List.map_append, zeroed.blocks]; rfl, fun r member => ?_⟩
      rcases List.mem_append.mp member with member | member
      · exact zeroed.allocated r member
      · rw [List.mem_singleton.mp member]
        rfl

end

/-! ### Targets -/

/-- The address of an offset in the block of a number. -/
def addressIn (regions : List Region) (block offset : Nat) : Word :=
  ((regions[block]?).map Region.base).getD 0 + BitVec.ofNat 64 offset

/-- Where a relocation of an object leads that is laid out in blocks, and the kind of what is
there if it is known. -/
inductive Refers (o : Object) (registry : Registry) (l : ImageLayout) (regions : List Region)
    (r : Relocation) : Word → Option SymbolKind → Prop where
  | start {id : Nat} {p : Placement} (target : r.target = .sectionStart id)
      (placed : l.placements[id]? = some p) :
      Refers o registry l regions r (addressIn regions p.block p.offset) none
  | own {name : String} {s : ObjectSymbol} {p : Placement} (target : r.target = .symbol name)
      (found : o.global? name = some s) (placed : l.placements[s.sectionId]? = some p) :
      Refers o registry l regions r
        (addressIn regions p.block p.offset + BitVec.ofNat 64 s.offset) (some s.kind)
  | host {name : String} {h : HostSymbol} (target : r.target = .symbol name)
      (isUndefined : o.global? name = none) (bound : registry.find? name = some h)
      (kind : r.kind ≠ .branch32) : Refers o registry l regions r h.address (some h.kind)
  | stub {name : String} {h : HostSymbol} {code size offset : Nat}
      (target : r.target = .symbol name) (isUndefined : o.global? name = none)
      (bound : registry.find? name = some h) (kind : r.kind = .branch32)
      (placed : l.stubs.lookup name = some offset)
      (text : l.blocks[code]? = some (SectionKind.text, size)) :
      Refers o registry l regions r (addressIn regions code offset) (some h.kind)

variable {o : Object} {registry : Registry} {l : ImageLayout} {regions : List Region}
  {resolved : List (String × HostSymbol)} {r : Relocation}

/-- What linking works with behind a plan. -/
def contextOf (o : Object) (l : ImageLayout) (regions : List Region)
    (resolved : List (String × HostSymbol)) : Context :=
  { object := o, layout := l, bases := regions.map Region.base, resolved }

theorem base_contextOf (block : Nat) : (contextOf o l regions resolved).base block =
    ((regions[block]?).map Region.base).getD 0 := by
  rw [← List.getElem?_map]
  rfl

theorem placeAddress_contextOf (p : Placement) :
    (contextOf o l regions resolved).placeAddress p = addressIn regions p.block p.offset := by
  rw [Context.placeAddress, base_contextOf]
  rfl

theorem sectionAddress_contextOf {id : Nat} {p : Placement} (placed : l.placements[id]? = some p) :
    (contextOf o l regions resolved).sectionAddress id = addressIn regions p.block p.offset := by
  unfold Context.sectionAddress
  have there : (contextOf o l regions resolved).layout.placements[id]? = some p := placed
  rw [there]
  exact placeAddress_contextOf p

/-- There is at most one block of code. -/
theorem text_unique (sound : o.Sound l) {i j m n : Nat}
    (hi : l.blocks[i]? = some (SectionKind.text, m))
    (hj : l.blocks[j]? = some (SectionKind.text, n)) : i = j := by
  have distinct : (l.blocks.map Prod.fst).Nodup := sound.present.nodup (by decide)
  have at' {i m : Nat} (h : l.blocks[i]? = some (SectionKind.text, m)) :
      (l.blocks.map Prod.fst)[i]? = some .text := by
    rw [List.getElem?_map, h]
    rfl
  have lt := (List.getElem?_eq_some_iff.mp (at' hi)).1
  exact (List.getElem?_inj lt distinct).mp ((at' hi).trans (at' hj).symm)

theorem codeBlock?_eq_some (sound : o.Sound l) {code size : Nat}
    (text : l.blocks[code]? = some (SectionKind.text, size)) :
    (contextOf o l regions resolved).codeBlock? = some code := by
  have isSome : ∃ i, (contextOf o l regions resolved).codeBlock? = some i := by
    refine Option.isSome_iff_exists.mp (List.findIdx?_isSome.trans ?_)
    exact List.any_eq_true.mpr ⟨_, List.mem_of_getElem? text, by simp⟩
  obtain ⟨i, found⟩ := isSome
  obtain ⟨lt, isText, -⟩ := List.findIdx?_eq_some_iff_getElem.mp found
  change i < l.blocks.length at lt
  have kind : l.blocks[i].1 = .text := of_decide_eq_true isText
  have same : l.blocks[i]? = some (SectionKind.text, l.blocks[i].2) := by
    rw [List.getElem?_eq_getElem lt, ← kind]
  rw [found, text_unique sound same text]

theorem placement_of_section (sound : o.Sound l) {id : Nat} (h : id < o.sections.length) :
    ∃ p, l.placements[id]? = some p ∧ o.sections[id]? = some p.source := by
  have length : l.placements.length = o.sections.length := by
    rw [← sound.sources, List.length_map]
  have lt : id < l.placements.length := length ▸ h
  refine ⟨l.placements[id], List.getElem?_eq_getElem lt, ?_⟩
  rw [← sound.sources, List.getElem?_map, List.getElem?_eq_getElem lt]
  rfl

theorem stub_of_branch (sound : o.Sound l) {name : String} (h : name ∈ o.stubNames) :
    ∃ offset code size : Nat, l.stubs.lookup name = some offset ∧
      l.blocks[code]? = some (SectionKind.text, size) := by
  rw [← sound.hasStubs.names] at h
  cases found : l.stubs.lookup name with
  | none =>
      obtain ⟨stub, member, rfl⟩ := List.mem_map.mp h
      simpa using List.lookup_eq_none_iff.mp found stub member
  | some offset =>
      obtain ⟨before, after, split, -⟩ := List.lookup_eq_some_iff.mp found
      have member : (name, offset) ∈ l.stubs := split ▸ List.mem_append_right _ (.head _)
      obtain ⟨code, size, text, -⟩ := sound.hasStubs.inside _ member
      exact ⟨offset, code, size, rfl, text⟩

theorem target_start {id : Nat} (target : r.target = .sectionStart id) :
    (contextOf o l regions resolved).target r =
      .ok ((contextOf o l regions resolved).sectionAddress id, none) := by
  rw [Context.target, target]

theorem target_own {name : String} {s : ObjectSymbol} (target : r.target = .symbol name)
    (found : o.global? name = some s) : (contextOf o l regions resolved).target r =
      .ok ((contextOf o l regions resolved).symbolAddress s, some s.kind) := by
  have own : (contextOf o l regions resolved).object.global? name = some s := found
  rw [Context.target, target]
  simp only [own]

theorem target_host {name : String} {host : HostSymbol} (target : r.target = .symbol name)
    (isUndefined : o.global? name = none) (bound : resolved.lookup name = some host) :
    (contextOf o l regions resolved).target r = do
      return (← (contextOf o l regions resolved).hostTarget r.kind name host, some host.kind) := by
  have own : (contextOf o l regions resolved).object.global? name = none := isUndefined
  have resolves : (contextOf o l regions resolved).resolved.lookup name = some host := bound
  rw [Context.target, target]
  simp only [own, resolves]

/-- Behind a plan every relocation has a target. -/
theorem refers_of_plan (regions : List Region) (plan : o.Plan registry l resolved)
    (sound : o.Sound l) {s : Section}
    (section' : s ∈ o.sections) (member : r ∈ s.relocations) :
    ∃ S found, (contextOf o l regions resolved).target r = .ok (S, found) ∧
      Refers o registry l regions r S found := by
  have known : r ∈ o.relocations := List.mem_flatMap.mpr ⟨s, section', member⟩
  cases target : r.target with
  | sectionStart id =>
      obtain ⟨p, placed, -⟩ := placement_of_section sound
        ((plan.valid.sections s section').targets r member id target)
      refine ⟨_, _, target_start target, ?_⟩
      rw [sectionAddress_contextOf placed]
      exact .start target placed
  | symbol name =>
      cases own : o.global? name with
      | some symbol =>
          obtain ⟨place, found, -⟩ := plan.valid.symbols symbol (List.mem_of_find?_eq_some own)
          obtain ⟨p, placed, -⟩ := placement_of_section sound (List.getElem?_eq_some_iff.mp found).1
          refine ⟨_, _, target_own target own, ?_⟩
          rw [Context.symbolAddress, sectionAddress_contextOf placed]
          exact .own target own placed
      | none =>
          obtain ⟨host, bound, resolves⟩ :=
            plan.find? (Object.mem_undefinedNames.mpr ⟨⟨r, known, target⟩, own⟩)
          by_cases branch : r.kind = .branch32
          · have isStub := Object.mem_stubNames.mpr ⟨r, known, branch, target, own⟩
            obtain ⟨offset, code, size, placed, text⟩ := stub_of_branch sound isStub
            refine ⟨_, _, (target_host target own resolves).trans (except_bind_of_ok ?_),
              .stub target own bound branch placed text⟩
            have there : (contextOf o l regions resolved).layout.stubs.lookup name = some offset :=
              placed
            rw [Context.hostTarget, if_pos branch, codeBlock?_eq_some sound text]
            simp only [there, base_contextOf]
            rfl
          · refine ⟨_, _, (target_host target own resolves).trans (except_bind_of_ok ?_),
              .host target own bound branch⟩
            rw [Context.hostTarget, if_neg branch]

/-- Targets are settled by the layout and the registry. -/
theorem Refers.unique (sound : o.Sound l) {S T : Word} {found other : Option SymbolKind}
    (h : Refers o registry l regions r S found) (h' : Refers o registry l regions r T other) :
    S = T ∧ found = other := by
  cases h with
  | start target placed => cases h' <;> simp_all
  | own target found placed => cases h' <;> simp_all
  | host target isUndefined bound kind => cases h' <;> simp_all
  | stub target isUndefined bound kind placed text =>
      cases h' with
      | stub _ _ _ _ _ text' =>
          have := text_unique sound text text'
          simp_all
      | _ => simp_all

end Link

/-! ### Fields -/

namespace Relocation

/-- The kind of a target is not another one than the relocation expects. -/
def Agrees (r : Relocation) (found : Option SymbolKind) : Prop :=
  ∀ expected ∈ r.expected, ∀ kind ∈ found, expected = kind

/-- The numbers that a field has room for, with the target at `S` and the field at `P`. -/
def InRange (r : Relocation) (S P : Word) : Prop :=
  match r.kind with
  | .abs64 => -2 ^ 63 ≤ (S.toNat : Int) + r.addend ∧ (S.toNat : Int) + r.addend < 2 ^ 64
  | .abs32 => 0 ≤ (S.toNat : Int) + r.addend ∧ (S.toNat : Int) + r.addend < 2 ^ 32
  | .pc32 | .branch32 => -2 ^ 31 ≤ (S.toNat : Int) + r.addend - P.toNat ∧
      (S.toNat : Int) + r.addend - P.toNat < 2 ^ 31

/-- What the bytes of a field denote, with the target at `S` and the field at `P`. -/
def Denotes (r : Relocation) (S P : Word) (bytes : List UInt8) : Prop :=
  match r.kind with
  | .abs64 => (Binary.ofLittle bytes : Int) = ((S.toNat : Int) + r.addend) % 2 ^ 64
  | .abs32 => (Binary.ofLittle bytes : Int) = (S.toNat : Int) + r.addend
  | .pc32 | .branch32 =>
      (BitVec.ofNat 32 (Binary.ofLittle bytes)).toInt = (S.toNat : Int) + r.addend - P.toNat

variable {r : Relocation} {S P : Word} {found : Option SymbolKind} {bytes : List UInt8}

theorem checkKind_of_agrees (h : r.Agrees found) : r.checkKind found = .ok () := by
  unfold checkKind
  split
  case h_1 expected kind isExpected => rw [if_pos (h expected isExpected kind rfl)]
  case h_2 => rfl

theorem checkKind_of_not_agrees (h : ¬r.Agrees found) : ∃ expected kind,
    r.expected = some expected ∧ found = some kind ∧ expected ≠ kind ∧
      r.checkKind found = .error (.kindMismatch r.target expected kind) := by
  simp only [Agrees, not_forall] at h
  obtain ⟨expected, isExpected, kind, isFound, differ⟩ := h
  refine ⟨expected, kind, isExpected, isFound, differ, ?_⟩
  rw [Option.mem_def] at isExpected isFound
  simp only [checkKind, isExpected, isFound, if_neg differ]

theorem fits_value : r.kind.fits (r.value S P) = true ↔ r.InRange S P := by
  unfold InRange RelocKind.fits value
  cases r.kind <;>
    simp [RelocKind.isRelative, Word.least, Word.modulus]

/-- Four bytes give back the numbers that they have room for. -/
theorem toInt_low_word {v : Int} (least : -2 ^ 31 ≤ v) (less : v < 2 ^ 31) :
    (BitVec.ofNat 32 ((BitVec.ofInt 64 v).toNat % 2 ^ 32)).toInt = v := by
  rw [BitVec.toInt_eq_toNat_bmod, BitVec.toNat_ofNat, BitVec.toNat_ofInt, Int.bmod_def]
  omega

/-- A field holds what it must. -/
theorem denotes_encode (h : r.InRange S P) :
    r.Denotes S P (Word.toBytes (BitVec.ofInt 64 (r.value S P)) r.kind.width) := by
  unfold InRange at h
  unfold Denotes Word.toBytes value
  cases kind : r.kind <;> rw [kind] at h <;>
    simp only [RelocKind.width, RelocKind.isRelative, Binary.ofLittle_little, if_true,
      Bool.false_eq_true, if_false]
  case abs64 =>
    rw [BitVec.toNat_ofInt, show Nat.pow 256 8 = 2 ^ 64 from rfl]
    omega
  case abs32 =>
    rw [BitVec.toNat_ofInt, show Nat.pow 256 4 = 2 ^ 32 from rfl]
    omega
  case pc32 => exact toInt_low_word h.1 h.2
  case branch32 => exact toInt_low_word h.1 h.2

theorem encode_eq_ok : r.encode S P = .ok bytes ↔ r.InRange S P ∧
    bytes = Word.toBytes (BitVec.ofInt 64 (r.value S P)) r.kind.width := by
  unfold encode
  by_cases fits : r.kind.fits (r.value S P) = true
  · have range := fits_value.1 fits
    simp [fits, range, eq_comm]
  · have range := mt fits_value.2 fits
    simp [fits, range]

end Relocation

namespace Link

/-- The addresses of the fields. -/
def siteOf (regions : List Region) (p : Placement) (r : Relocation) : Word :=
  addressIn regions p.block (p.offset + r.offset)

/-- The patch of a field that denotes a target. -/
def fieldPatch (regions : List Region) (p : Placement) (r : Relocation) (S : Word) : Patch where
  block := p.block
  offset := p.offset + r.offset
  bytes := Word.toBytes (BitVec.ofInt 64 (r.value S (siteOf regions p r))) r.kind.width
  fault := .fieldMisfit r.offset p.source.name

variable {o : Object} {registry : Registry} {l : ImageLayout} {regions : List Region}
  {resolved : List (String × HostSymbol)} {r : Relocation} {p : Placement} {S : Word}
  {found : Option SymbolKind}

theorem siteOf_eq (p : Placement) (r : Relocation) :
    (contextOf o l regions resolved).placeAddress p + BitVec.ofNat 64 r.offset =
      siteOf regions p r := by
  rw [placeAddress_contextOf, siteOf, addressIn, addressIn, BitVec.add_assoc, ← BitVec.ofNat_add]

variable (target : (contextOf o l regions resolved).target r = .ok (S, found))
include target

theorem field_of_target : (contextOf o l regions resolved).field p r = do
    r.checkKind found
    let bytes ← r.encode S (siteOf regions p r)
    return { fieldPatch regions p r S with bytes } := by
  unfold Context.field
  rw [except_bind_of_ok target]
  dsimp only
  rw [siteOf_eq]
  rfl

theorem field_of_inRange (agrees : r.Agrees found) (range : r.InRange S (siteOf regions p r)) :
    (contextOf o l regions resolved).field p r = .ok (fieldPatch regions p r S) := by
  have encoded := Relocation.encode_eq_ok.2 ⟨range, rfl⟩
  rw [field_of_target target, except_bind_of_ok (Relocation.checkKind_of_agrees agrees),
    except_bind_of_ok encoded]
  rfl

theorem field_of_not_agrees (h : ¬r.Agrees found) : ∃ expected kind,
    r.expected = some expected ∧ found = some kind ∧ expected ≠ kind ∧
      (contextOf o l regions resolved).field p r =
        .error (.kindMismatch r.target expected kind) := by
  obtain ⟨expected, kind, isExpected, isFound, differ, refused⟩ :=
    Relocation.checkKind_of_not_agrees h
  refine ⟨expected, kind, isExpected, isFound, differ, ?_⟩
  rw [field_of_target target, except_bind_of_error refused]

theorem field_of_not_inRange (agrees : r.Agrees found)
    (beyond : ¬r.InRange S (siteOf regions p r)) :
    (contextOf o l regions resolved).field p r =
      .error (.overflow r.target r.kind (r.value S (siteOf regions p r))) := by
  have refused : r.encode S (siteOf regions p r) =
      .error (.overflow r.target r.kind (r.value S (siteOf regions p r))) :=
    if_neg (mt Relocation.fits_value.1 beyond)
  rw [field_of_target target, except_bind_of_ok (Relocation.checkKind_of_agrees agrees),
    except_bind_of_error refused]

end Link
end LiveC
