import LiveC.Object.Validate
import LiveC.Proofs.Sequence
import LiveC.Word
import Mathlib.Algebra.Order.Group.Nat
import Mathlib.Data.List.Nodup
import Mathlib.Order.Bounds.Basic

/-!
What validation makes sure of: sections of bounded extent with fields inside of their bytes,
symbols inside of their sections, and global names that are defined once. Where the numbers of an
object are words, these are the only objects that it accepts; what is well-formed is said over
unbounded numbers.
-/

namespace LiveC

/-! ### Alignment -/

theorem le_alignUp (n : Nat) {align : Nat} (h : 0 < align) : n ≤ alignUp n align := by
  have split := Nat.div_add_mod (n + align - 1) align
  have rest := Nat.mod_lt (n + align - 1) h
  rw [Nat.mul_comm] at split
  unfold alignUp
  omega

theorem dvd_alignUp (n align : Nat) : align ∣ alignUp n align := Nat.dvd_mul_left ..

theorem alignUp_lt (n : Nat) {align : Nat} (h : 0 < align) : alignUp n align < n + align := by
  have split := Nat.div_mul_le_self (n + align - 1) align
  unfold alignUp
  omega

/-- A valid section of an object. -/
structure Section.Valid (o : Object) (s : Section) : Prop where
  align : ∃ i, s.align = 2 ^ i
  zero : s.kind = .zero → s.data = [] ∧ s.relocations = []
  size : s.kind ≠ .zero → s.size = s.data.length
  fields : ∀ r ∈ s.relocations, r.offset + r.kind.width ≤ s.data.length
  targets : ∀ r ∈ s.relocations, ∀ id, r.target = .sectionStart id → id < o.sections.length

namespace Object

/-- An object that validation accepts. -/
structure Valid (o : Object) : Prop where
  sections : ∀ s ∈ o.sections, s.Valid o
  extents : ∀ k, (o.sections.filter (·.kind = k)).foldl sectionEnd 0 ≤ maxExtent
  symbols : ∀ s ∈ o.symbols, ∃ place, o.sections[s.sectionId]? = some place ∧
    s.offset + s.size ≤ place.size
  globals : o.globalNames.Nodup

variable {o : Object} {s : Section} {r : Relocation} {index : Nat} {x : Extents}

theorem isPowerOfTwo_iff {n : Nat} : isPowerOfTwo n = true ↔ ∃ i < 64, n = 2 ^ i := by
  simp [isPowerOfTwo, Nat.one_shiftLeft]

theorem checkRelocation_eq_ok : checkRelocation o index s r = .ok () ↔
    r.offset + r.kind.width ≤ s.data.length ∧
      ∀ id, r.target = .sectionStart id → id < o.sections.length := by
  unfold checkRelocation
  rw [guard_eq_ok, Nat.not_lt]
  refine and_congr_right fun _ => ?_
  cases r.target with
  | symbol name => exact ⟨fun _ => nofun, fun _ => rfl⟩
  | sectionStart id =>
      dsimp only
      split
      case isTrue missing =>
        exact ⟨nofun, fun h => absurd (h id rfl) (Nat.not_lt.mpr missing)⟩
      case isFalse present =>
        refine ⟨fun _ other same => ?_, fun _ => rfl⟩
        cases same
        exact Nat.lt_of_not_le present

/-- The fields and targets of relocations are as validation asks. -/
theorem forM_checkRelocation :
    s.relocations.forM (checkRelocation o index s) = .ok () ↔
      (∀ r ∈ s.relocations, r.offset + r.kind.width ≤ s.data.length) ∧
        ∀ r ∈ s.relocations, ∀ id, r.target = .sectionStart id → id < o.sections.length := by
  simp only [forM_eq_ok, checkRelocation_eq_ok, forall_and]

theorem checkSection_eq_ok : checkSection o x index s = .ok () ↔
    isPowerOfTwo s.align = true ∧ sectionEnd (x s.kind) s ≤ maxExtent ∧ s.Valid o := by
  unfold checkSection
  simp only [guard_eq_ok, Bool.not_eq_true', Bool.not_eq_false, Nat.not_lt]
  refine and_congr_right fun power => and_congr_right fun extent => ?_
  obtain ⟨i, -, align⟩ := isPowerOfTwo_iff.1 power
  cases kind : s.kind with
  | zero =>
      simp only [guard_eq_ok, forM_checkRelocation, List.isEmpty_iff,
        Bool.not_eq_false]
      constructor
      · rintro ⟨data, relocations, fields, targets⟩
        exact ⟨⟨i, align⟩, fun _ => ⟨data, relocations⟩, fun other => absurd kind other, fields, targets⟩
      · exact fun valid => ⟨(valid.zero kind).1, (valid.zero kind).2, valid.fields, valid.targets⟩
  | _ =>
      simp only [guard_eq_ok, forM_checkRelocation, ne_eq, Decidable.not_not]
      constructor
      · rintro ⟨size, fields, targets⟩
        exact ⟨⟨i, align⟩, fun zero => by simp [kind] at zero, fun _ => size, fields, targets⟩
      · exact fun valid => ⟨valid.size (by simp [kind]), valid.fields, valid.targets⟩

/-- The sections of each kind stay within the bound. -/
theorem checkSections_ok {l : List Section} (h : checkSections o x index l = .ok ()) :
    (∀ s ∈ l, s.Valid o) ∧
      ∀ k, x k ≤ maxExtent → (l.filter (·.kind = k)).foldl sectionEnd (x k) ≤ maxExtent := by
  induction l generalizing x index with
  | nil => exact ⟨List.forall_mem_nil _, fun _ bound => bound⟩
  | cons s l ih =>
      obtain ⟨_, first, others⟩ := ok_of_bind h
      obtain ⟨-, extent, valid⟩ := checkSection_eq_ok.1 first
      obtain ⟨valids, extents⟩ := ih others
      refine ⟨List.forall_mem_cons.mpr ⟨valid, valids⟩, fun k bound => ?_⟩
      by_cases same : s.kind = k
      · subst same
        have added : x.add s s.kind = sectionEnd (x s.kind) s := if_pos rfl
        have rest := extents s.kind (by rwa [added])
        rw [added] at rest
        rwa [List.filter_cons_of_pos (by simp), List.foldl_cons]
      · have kept : x.add s k = x k := if_neg fun other => same other.symm
        have rest := extents k (by rwa [kept])
        rw [kept] at rest
        rwa [List.filter_cons_of_neg (by simpa using same)]

/-- A section that is the first of its kind is put at the start. -/
theorem sectionEnd_zero (power : isPowerOfTwo s.align = true) : sectionEnd 0 s = s.size := by
  obtain ⟨i, -, align⟩ := isPowerOfTwo_iff.1 power
  have positive : 0 < s.align := align ▸ Nat.two_pow_pos i
  rw [sectionEnd, alignUp, Nat.div_eq_of_lt (by omega), Nat.zero_mul, Nat.zero_add]

/-- Sections of different kinds are accepted if each one is. -/
theorem checkSections_of_distinct {l : List Section} (distinct : (l.map (·.kind)).Nodup)
    (fresh : ∀ s ∈ l, x s.kind = 0)
    (each : ∀ s ∈ l, isPowerOfTwo s.align = true ∧ s.size ≤ maxExtent ∧ s.Valid o) :
    checkSections o x index l = .ok () := by
  induction l generalizing x index with
  | nil => rfl
  | cons s l ih =>
      obtain ⟨first, distinct⟩ := List.nodup_cons.mp distinct
      obtain ⟨new, fresh⟩ := List.forall_mem_cons.mp fresh
      obtain ⟨⟨power, small, valid⟩, each⟩ := List.forall_mem_cons.mp each
      have accepted : checkSection o x index s = .ok () := by
        refine checkSection_eq_ok.2 ⟨power, ?_, valid⟩
        rwa [new, sectionEnd_zero power]
      refine (except_bind_of_ok accepted).trans (ih distinct (fun t member => ?_) each)
      have other : t.kind ≠ s.kind := fun same =>
        first (List.mem_map.mpr ⟨t, member, same⟩)
      exact (if_neg other).trans (fresh t member)

theorem checkSymbol_eq_ok {s : ObjectSymbol} : checkSymbol o s = .ok () ↔
    ∃ place, o.sections[s.sectionId]? = some place ∧ s.offset + s.size ≤ place.size ∧
      (s.kind = .function → place.kind = .text) := by
  unfold checkSymbol
  cases found : o.sections[s.sectionId]? with
  | none => exact ⟨nofun, nofun⟩
  | some place =>
      simp only [guard_eq_ok, Nat.not_lt, Option.some.injEq, exists_eq_left']
      refine and_congr_right fun _ => ?_
      cases s.kind <;> cases place.kind <;> simp <;> rfl

theorem isSome_foldl {α β : Type} {f : Option α → β → Option α} (hf : ∀ a b, (f a b).isSome = true)
    {l : List β} (h : l ≠ []) (a : Option α) : (l.foldl f a).isSome = true := by
  rw [← List.dropLast_append_getLast h, List.foldl_append]
  exact hf _ _

/-- No name is found twice if all are distinct. -/
theorem duplicate?_eq_none {names : List String} : duplicate? names = none ↔ names.Nodup := by
  rw [List.nodup_iff_count_le_one]
  constructor
  · intro h
    by_contra twice
    obtain ⟨name, count⟩ := not_forall.mp twice
    have member : name ∈ names.filter fun n => 1 < names.count n :=
      List.mem_filter.mpr ⟨List.count_pos_iff.mp (by omega), by simpa using count⟩
    unfold duplicate? at h
    refine Option.not_isSome_iff_eq_none.mpr h (isSome_foldl ?_ (List.ne_nil_of_mem member) none)
    rintro (_ | _) _ <;> rfl
  · intro distinct
    have none : names.filter (fun n => 1 < names.count n) = [] :=
      List.filter_eq_nil_iff.mpr fun name _ => by simpa using distinct name
    rw [duplicate?, none]
    rfl

/-- Names that are sorted as texts do not descend. -/
theorem sorted_mergeSort (names : List String) :
    (names.mergeSort fun a b => a < b || a == b).Pairwise (· ≤ ·) := by
  have sorted := @List.pairwise_mergeSort String (fun a b => a < b || a == b)
    (by grind) (by grind) names
  exact sorted.imp (by grind)

theorem valid_of_validate (h : o.validate = .ok ()) : o.Valid := by
  unfold validate at h
  obtain ⟨_, sections, h⟩ := ok_of_bind h
  obtain ⟨_, symbols, h⟩ := ok_of_bind h
  obtain ⟨valid, extents⟩ := checkSections_ok sections
  refine ⟨valid, fun k => extents k (Nat.zero_le _), fun s member => ?_, duplicate?_eq_none.1 ?_⟩
  · obtain ⟨place, found, inside, -⟩ := checkSymbol_eq_ok.mp (forM_eq_ok.mp symbols s member)
    exact ⟨place, found, inside⟩
  · split at h
    · cases h
    · assumption

/-- An object with at most one section of each kind is accepted if its parts are. -/
theorem validate_of_distinct (distinct : (o.sections.map (·.kind)).Nodup)
    (sections : ∀ s ∈ o.sections, isPowerOfTwo s.align = true ∧ s.size ≤ maxExtent ∧ s.Valid o)
    (symbols : ∀ s ∈ o.symbols, ∃ place, o.sections[s.sectionId]? = some place ∧
      s.offset + s.size ≤ place.size ∧ (s.kind = .function → place.kind = .text))
    (globals : o.globalNames.Nodup) : o.validate = .ok () := by
  unfold validate
  rw [except_bind_of_ok (checkSections_of_distinct distinct (fun _ _ => rfl) sections),
    except_bind_of_ok (forM_eq_ok.mpr fun s member => checkSymbol_eq_ok.mpr (symbols s member)),
    duplicate?_eq_none.2 globals]
  rfl

end Object

/-! ### Well-formed objects -/

theorem isLeast_alignUp (n : Nat) {align : Nat} (h : 0 < align) :
    IsLeast {m | n ≤ m ∧ align ∣ m} (alignUp n align) := by
  refine ⟨⟨le_alignUp n h, dvd_alignUp n align⟩, fun m bound => ?_⟩
  obtain ⟨le, q, rfl⟩ := bound
  have below : (n + align - 1) / align < q + 1 := by
    rw [Nat.div_lt_iff_lt_mul h, Nat.add_mul, Nat.mul_comm q]
    omega
  rw [alignUp, Nat.mul_comm align]
  exact Nat.mul_le_mul_right _ (Nat.le_of_lt_succ below)

/-- Where a section ends that is put behind an extent, at the first multiple of its alignment. -/
def Section.EndsAt (s : Section) (extent stop : Nat) : Prop :=
  ∃ start, IsLeast {n | extent ≤ n ∧ s.align ∣ n} start ∧ stop = start + s.size

/-- Sections that are put one behind the other from an extent on, and where the last one ends. -/
inductive Stacked : Nat → List Section → Nat → Prop
  | nil {extent : Nat} : Stacked extent [] extent
  | cons {extent between stop : Nat} {s : Section} {behind : List Section}
      (first : s.EndsAt extent between) (others : Stacked between behind stop) :
      Stacked extent (s :: behind) stop

theorem Section.endsAt_iff {s : Section} {extent stop : Nat} (positive : 0 < s.align) :
    s.EndsAt extent stop ↔ Object.sectionEnd extent s = stop := by
  constructor
  · rintro ⟨start, least, rfl⟩
    rw [Object.sectionEnd, least.unique (isLeast_alignUp extent positive)]
  · exact fun same => ⟨_, isLeast_alignUp extent positive, same.symm⟩

theorem stacked_iff {sections : List Section} {extent stop : Nat}
    (positive : ∀ s ∈ sections, 0 < s.align) :
    Stacked extent sections stop ↔ sections.foldl Object.sectionEnd extent = stop := by
  induction sections generalizing extent with
  | nil =>
      constructor
      · rintro ⟨⟩
        rfl
      · rintro rfl
        exact .nil
  | cons s behind ih =>
      obtain ⟨first, others⟩ := List.forall_mem_cons.mp positive
      rw [List.foldl_cons, ← ih others]
      constructor
      · rintro (_ | ⟨ends, stacked⟩)
        rwa [(Section.endsAt_iff first).mp ends]
      · exact fun stacked => .cons ((Section.endsAt_iff first).mpr rfl) stacked

namespace Object

/-- An object whose sections can be laid out and whose parts lie inside of its sections. -/
structure WellFormed (o : Object) : Prop where
  sections : ∀ s ∈ o.sections, s.Valid o
  /-- The sections of a kind stay within the bound, each one behind the others before it. -/
  bounded : ∀ kind before, before <+: o.sections.filter (·.kind = kind) →
    ∃ extent, Stacked 0 before extent ∧ extent ≤ maxExtent
  symbols : ∀ s ∈ o.symbols, ∃ place, o.sections[s.sectionId]? = some place ∧
    s.offset + s.size ≤ place.size ∧ (s.kind = .function → place.kind = .text)
  globals : o.symbols.Pairwise fun s t => s.isGlobal → t.isGlobal → s.name ≠ t.name

variable {o : Object}

theorem nodup_globalNames : o.globalNames.Nodup ↔
    o.symbols.Pairwise fun s t => s.isGlobal → t.isGlobal → s.name ≠ t.name := by
  rw [globalNames, List.nodup_iff_pairwise_ne, List.pairwise_map, List.pairwise_filter]

/-! ### What validation accepts -/

/-- Sections that stay within the bound, each one behind an extent and the others before it. -/
def Within (extent : Nat) (l : List Section) : Prop :=
  ∀ before, before <+: l → before.foldl sectionEnd extent ≤ maxExtent

theorem within_cons {extent : Nat} {s : Section} {l : List Section} (start : extent ≤ maxExtent) :
    Within extent (s :: l) ↔ Within (sectionEnd extent s) l := by
  constructor
  · exact fun h before isPrefix => h (s :: before) (List.prefix_cons_iff.mpr (.inr ⟨_, rfl, isPrefix⟩))
  · intro h before isPrefix
    rcases List.prefix_cons_iff.mp isPrefix with rfl | ⟨rest, rfl, behind⟩
    · exact start
    · exact h rest behind

theorem within_start {extent : Nat} {l : List Section} (h : Within extent l) :
    extent ≤ maxExtent := h [] List.nil_prefix

/-- Sections are accepted behind extents if each one is, and each kind stays within the bound. -/
theorem checkSections_eq_ok {l : List Section} {x : Extents} {index : Nat}
    (start : ∀ kind, x kind ≤ maxExtent) : checkSections o x index l = .ok () ↔
      (∀ s ∈ l, isPowerOfTwo s.align = true ∧ s.Valid o) ∧
        ∀ kind, Within (x kind) (l.filter (·.kind = kind)) := by
  induction l generalizing x index with
  | nil =>
      refine ⟨fun _ => ⟨List.forall_mem_nil _, fun kind before isPrefix => ?_⟩, fun _ => rfl⟩
      rw [List.prefix_nil.mp isPrefix]
      exact start kind
  | cons s l ih =>
      have own : x.add s s.kind = sectionEnd (x s.kind) s := if_pos rfl
      have other (kind) (ne : s.kind ≠ kind) : x.add s kind = x kind :=
        if_neg fun same => ne same.symm
      have step (kind) : Within (x kind) ((s :: l).filter (·.kind = kind)) ↔
          Within (x.add s kind) (l.filter (·.kind = kind)) := by
        by_cases same : s.kind = kind
        · subst same
          rw [List.filter_cons_of_pos (by simp), within_cons (start _), own]
        · rw [List.filter_cons_of_neg (by simpa using same), other kind same]
      have added (extent : sectionEnd (x s.kind) s ≤ maxExtent) (kind) : x.add s kind ≤ maxExtent := by
        by_cases same : s.kind = kind
        · rwa [← same, own]
        · rw [other kind same]
          exact start kind
      rw [List.forall_mem_cons]
      simp only [step]
      constructor
      · intro h
        obtain ⟨_, first, others⟩ := ok_of_bind h
        obtain ⟨power, extent, valid⟩ := checkSection_eq_ok.1 first
        obtain ⟨each, within⟩ := (ih (added extent)).mp others
        exact ⟨⟨⟨power, valid⟩, each⟩, within⟩
      · rintro ⟨⟨⟨power, valid⟩, each⟩, within⟩
        have extent : sectionEnd (x s.kind) s ≤ maxExtent := own ▸ within_start (within s.kind)
        refine (except_bind_of_ok (checkSection_eq_ok.2 ⟨power, extent, valid⟩)).trans ?_
        exact (ih (added extent)).mpr ⟨each, within⟩

theorem validate_eq_ok : o.validate = .ok () ↔
    checkSections o .empty 0 o.sections = .ok () ∧ (∀ s ∈ o.symbols, checkSymbol o s = .ok ()) ∧
      o.globalNames.Nodup := by
  unfold validate
  rw [← forM_eq_ok, ← duplicate?_eq_none]
  constructor
  · intro h
    obtain ⟨_, sections, h⟩ := ok_of_bind h
    obtain ⟨_, symbols, h⟩ := ok_of_bind h
    refine ⟨sections, symbols, ?_⟩
    split at h
    · cases h
    · assumption
  · rintro ⟨sections, symbols, globals⟩
    rw [except_bind_of_ok sections, except_bind_of_ok symbols, globals]
    rfl

/-- The numbers of an object are words. -/
structure InWords (o : Object) : Prop where
  aligns : ∀ s ∈ o.sections, s.align < Word.modulus
  sizes : ∀ s ∈ o.sections, s.size < Word.modulus ∧ s.data.length < Word.modulus
  fields : ∀ s ∈ o.sections, ∀ r ∈ s.relocations, r.offset < Word.modulus
  symbols : ∀ s ∈ o.symbols, s.offset < Word.modulus ∧ s.size < Word.modulus

theorem isPowerOfTwo_of_word {n i : Nat} (power : n = 2 ^ i) (word : n < Word.modulus) :
    isPowerOfTwo n = true := by
  refine isPowerOfTwo_iff.2 ⟨i, ?_, power⟩
  have modulus : Word.modulus = 2 ^ 64 := rfl
  rwa [power, modulus, Nat.pow_lt_pow_iff_right (by decide)] at word

theorem validate_iff_wellFormed (words : o.InWords) : o.validate = .ok () ↔ o.WellFormed := by
  have positive (valid : ∀ s ∈ o.sections, s.Valid o) (kind) (before : List Section)
      (isPrefix : before <+: o.sections.filter (·.kind = kind)) : ∀ s ∈ before, 0 < s.align := by
    intro s member
    obtain ⟨i, power⟩ := (valid s (List.mem_filter.mp (isPrefix.subset member)).1).align
    exact power ▸ Nat.two_pow_pos i
  rw [validate_eq_ok, checkSections_eq_ok (x := .empty) fun _ => Nat.zero_le _, nodup_globalNames]
  constructor
  · rintro ⟨⟨each, within⟩, symbols, globals⟩
    have valid : ∀ s ∈ o.sections, s.Valid o := fun s member => (each s member).2
    refine ⟨valid, fun kind before isPrefix => ?_,
      fun s member => checkSymbol_eq_ok.mp (symbols s member), globals⟩
    exact ⟨_, (stacked_iff (positive valid kind before isPrefix)).mpr rfl, within kind before isPrefix⟩
  · rintro ⟨valid, bounded, symbols, globals⟩
    refine ⟨⟨fun s member => ?_, fun kind before isPrefix => ?_⟩,
      fun s member => checkSymbol_eq_ok.mpr (symbols s member), globals⟩
    · obtain ⟨i, power⟩ := (valid s member).align
      exact ⟨isPowerOfTwo_of_word power (words.aligns s member), valid s member⟩
    · obtain ⟨extent, stacked, bound⟩ := bounded kind before isPrefix
      rwa [← (stacked_iff (positive valid kind before isPrefix)).mp stacked] at bound

end Object
end LiveC
