import Mathlib.Algebra.GroupWithZero.Nat
import LiveC.Proofs.LinkedAddresses

/-!
Ranges of addends. The distance of a constant address is computed with words, by negations and sums
that may leave the range of words. It is always the exact distance modulo `2 ^ 64`, and it is exact
if what is added up on the way stays in range, and so do the addends of relocations.
-/

namespace LiveC

open IntType

namespace Expr

/-- The distance of an expression that is a constant address. -/
def addend (e : Expr) : Word := (e.constantAddress?.map Prod.snd).getD 0

/-- The exact results of the negations and sums that give the distance of a constant address. -/
def addendSteps : Expr → List Int
  | addrOf _ (deref _ pointer) => addendSteps pointer
  | cast _ e => addendSteps e
  | binary _ .add base (int _ offset) =>
    addendSteps base ++ [base.addend.toInt + offset.toInt]
  | binary _ .sub base (int _ offset) =>
    addendSteps base ++ [-offset.toInt, base.addend.toInt + (-offset).toInt]
  | _ => []

/-- The distances that make up the distance of a constant address, with their signs. -/
def offsets : Expr → List Int
  | addrOf _ (deref _ pointer) => offsets pointer
  | cast _ e => offsets e
  | binary _ .add base (int _ offset) => offsets base ++ [offset.toInt]
  | binary _ .sub base (int _ offset) => offsets base ++ [-offset.toInt]
  | _ => []

variable {e : Expr} {target : AddressTarget} {distance : Word}

theorem addend_of_constantAddress? (h : e.constantAddress? = some (target, distance)) :
    e.addend = distance := by
  rw [addend, h]
  rfl

/-- Modulo `2 ^ 64` the distance is exact. -/
theorem eq_sum_offsets (h : e.constantAddress? = some (target, distance)) :
    distance = BitVec.ofInt 64 e.offsets.sum := by
  fun_induction constantAddress? e generalizing distance with
  | case1 | case2 =>
      cases h
      rfl
  | case3 _ _ pointer ih => exact ih h
  | case4 _ e _ ih => exact ih h
  | case5 | case8 => cases h
  | case6 _ base _ offset ih =>
      obtain ⟨⟨_, before⟩, found, same⟩ := Option.map_eq_some_iff.mp h
      cases same
      rw [offsets, List.sum_append, List.sum_singleton, BitVec.ofInt_add, BitVec.ofInt_toInt,
        ← ih found]
  | case7 _ base _ offset ih =>
      obtain ⟨⟨_, before⟩, found, same⟩ := Option.map_eq_some_iff.mp h
      cases same
      rw [offsets, List.sum_append, List.sum_singleton, BitVec.ofInt_add, BitVec.ofInt_neg,
        BitVec.ofInt_toInt, ← ih found, BitVec.sub_eq_add_neg]

end Expr

/-! ### Sums in range -/

theorem IntType.represents_toInt (w : Word) : long.Represents w.toInt :=
  ⟨BitVec.le_toInt w, BitVec.toInt_lt⟩

/-- The partial sums of numbers are in the range of words. -/
def PartialSumsFit (ns : List Int) : Prop := ∀ l, l <+: ns → long.Represents l.sum

theorem PartialSumsFit.concat {ns : List Int} {n : Int} :
    PartialSumsFit (ns ++ [n]) ↔ PartialSumsFit ns ∧ long.Represents (ns.sum + n) := by
  unfold PartialSumsFit
  simp only [List.prefix_concat_iff, or_imp, forall_and, forall_eq, List.sum_append,
    List.sum_singleton]
  exact and_comm

theorem natAbs_sum_le (ns : List Int) : ns.sum.natAbs ≤ (ns.map Int.natAbs).sum := by
  induction ns with
  | nil => exact Nat.le_refl _
  | cons n ns ih =>
      rw [List.sum_cons, List.map_cons, List.sum_cons]
      exact (Int.natAbs_add_le n ns.sum).trans (Nat.add_le_add_left ih _)

/-- Numbers whose sizes add up to less than `2 ^ 63` have their partial sums in range. -/
theorem partialSumsFit_of_small {ns : List Int} (small : (ns.map Int.natAbs).sum < 2 ^ 63) :
    PartialSumsFit ns := by
  rintro l ⟨rest, rfl⟩
  rw [List.map_append, List.sum_append] at small
  have le := natAbs_sum_le l
  change -2 ^ 63 ≤ l.sum ∧ l.sum < 2 ^ 63
  omega

namespace Expr

variable {e : Expr} {target : AddressTarget} {distance : Word}

/-- No step leaves the range of words if the signed distances and their partial sums are in range.
The least word is a distance for sums only: it has no negation. -/
theorem addendSteps_fit_iff (h : e.constantAddress? = some (target, distance)) :
    (∀ n ∈ e.addendSteps, long.Represents n) ↔
      (∀ n ∈ e.offsets, long.Represents n) ∧ PartialSumsFit e.offsets := by
  have nothing : PartialSumsFit [] := fun l empty => by
    rw [List.prefix_nil.mp empty]
    decide
  have exact {base : Expr} {before : Word} (found : base.constantAddress? = some (target, before))
      (fit : PartialSumsFit base.offsets) : base.addend.toInt = base.offsets.sum := by
    rw [addend_of_constantAddress? found, eq_sum_offsets found]
    exact IntType.toInt_ofInt rfl (fit _ List.prefix_rfl)
  fun_induction constantAddress? e generalizing distance with
  | case1 | case2 => simp [addendSteps, offsets, nothing]
  | case3 _ _ pointer ih => exact ih h
  | case4 _ e _ ih => exact ih h
  | case5 | case8 => cases h
  | case6 _ base _ offset ih =>
      obtain ⟨⟨_, before⟩, found, same⟩ := Option.map_eq_some_iff.mp h
      cases same
      have inner : (∀ n ∈ base.addendSteps, long.Represents n) ↔
          (∀ n ∈ base.offsets, long.Represents n) ∧ PartialSumsFit base.offsets := ih found
      rw [addendSteps, offsets, List.forall_mem_append, List.forall_mem_append,
        List.forall_mem_singleton, List.forall_mem_singleton, PartialSumsFit.concat, inner]
      constructor
      · rintro ⟨⟨words, fit⟩, sum⟩
        rw [exact found fit] at sum
        exact ⟨⟨words, represents_toInt offset⟩, fit, sum⟩
      · rintro ⟨⟨words, -⟩, fit, sum⟩
        rw [exact found fit]
        exact ⟨⟨words, fit⟩, sum⟩
  | case7 _ base _ offset ih =>
      obtain ⟨⟨_, before⟩, found, same⟩ := Option.map_eq_some_iff.mp h
      cases same
      have inner : (∀ n ∈ base.addendSteps, long.Represents n) ↔
          (∀ n ∈ base.offsets, long.Represents n) ∧ PartialSumsFit base.offsets := ih found
      have negated (word : long.Represents (-offset.toInt)) : (-offset).toInt = -offset.toInt := by
        rw [← IntType.toInt_ofInt rfl word, BitVec.ofInt_neg, BitVec.ofInt_toInt]
      rw [addendSteps, offsets, List.forall_mem_append, List.forall_mem_append,
        List.forall_mem_cons, List.forall_mem_singleton, List.forall_mem_singleton,
        PartialSumsFit.concat, inner]
      constructor
      · rintro ⟨⟨words, fit⟩, word, sum⟩
        rw [exact found fit, negated word] at sum
        exact ⟨⟨words, word⟩, fit, sum⟩
      · rintro ⟨⟨words, word⟩, fit, sum⟩
        rw [exact found fit, negated word]
        exact ⟨⟨words, fit⟩, word, sum⟩

/-- If no step leaves the range of words, the distance is exact. -/
theorem toInt_eq_sum_offsets (h : e.constantAddress? = some (target, distance))
    (fit : ∀ n ∈ e.addendSteps, long.Represents n) : distance.toInt = e.offsets.sum := by
  rw [eq_sum_offsets h]
  exact IntType.toInt_ofInt rfl (((addendSteps_fit_iff h).mp fit).2 _ List.prefix_rfl)

theorem addendSteps_fit_of_small (h : e.constantAddress? = some (target, distance))
    (small : (e.offsets.map Int.natAbs).sum < 2 ^ 63) :
    ∀ n ∈ e.addendSteps, long.Represents n := by
  refine (addendSteps_fit_iff h).mpr ⟨fun n member => ?_, partialSumsFit_of_small small⟩
  obtain ⟨before, after, split⟩ := List.append_of_mem member
  rw [split, List.map_append, List.map_cons, List.sum_append, List.sum_cons] at small
  change -2 ^ 63 ≤ n ∧ n < 2 ^ 63
  omega

end Expr

/-! ### Relocations -/

/-- Where data finds the target of an address. -/
def UnitLayout.place (layout : UnitLayout) : AddressTarget → CodeTarget
  | .symbol name => layout.target name
  | .str id => .place (layout.strings[id]?.getD (0, 0)).1 (layout.strings[id]?.getD (0, 0)).2

namespace Lowering

/-- What the place of a target adds to the addend of a relocation. -/
def base (code : UnitCode) (place : CodeTarget) : Int := (relocTarget code.layout place).2

variable {u : TranslationUnit} {code : UnitCode} {ps : List PlacedFunction}
  {vs : List PlacedVariable} {ss : List PlacedString}

theorem addend_dataRelocation (layout : UnitLayout) (a : DataAddress) :
    (dataRelocation u layout code.layout a).addend =
      asAddend (base code (layout.place a.target) + a.addend) := by
  unfold dataRelocation UnitLayout.place
  cases a.target <;> rfl

theorem addend_codeRelocation (site : Nat × Reference) :
    (codeRelocation code.layout site).addend =
      asAddend (base code site.2.target + fieldAddend site.2.kind) := rfl

/-- An offset in a section that validation accepts. -/
def IsOffset (n : Int) : Prop := 0 ≤ n ∧ n ≤ Object.maxExtent

theorem isOffset_zero : IsOffset 0 := ⟨Int.le_refl _, by decide⟩

/-- Sums of an offset and a word leave the range of words at its upper end only. -/
theorem IsOffset.represents_add_iff {offset distance : Int} (h : IsOffset offset)
    (word : long.Represents distance) :
    long.Represents (offset + distance) ↔ offset + distance < 2 ^ 63 := by
  have least : -2 ^ 63 ≤ distance := word.1
  exact ⟨And.right, fun less => ⟨least.trans (le_add_of_nonneg_left h.1), less⟩⟩

theorem IsOffset.represents_add {offset distance : Int} (h : IsOffset offset)
    (word : long.Represents distance) (near : distance ≤ 2 ^ 62) :
    long.Represents (offset + distance) := by
  have extent : (Object.maxExtent : Int) < 2 ^ 62 := by decide
  have most := h.2
  refine (h.represents_add_iff word).mpr ?_
  omega

namespace Arrangement

variable (h : Arrangement u code ps vs ss)
  (sized : ∀ s ∈ (objectOf u (.ofUnit u) code).sections, s.size ≤ Object.maxExtent)
include h sized

theorem isOffset_of_has {target : AddressTarget} {range : SectionRange}
    (has : (objectOf u (.ofUnit u) code).Has u target range) : IsOffset range.offset := by
  have member : range ∈ (objectOf u (.ofUnit u) code).ranges u := by
    cases has with
    | symbol member => exact List.mem_append_left _ (List.mem_map_of_mem member)
    | string found => exact List.mem_append_right _ (List.mem_of_getElem? found)
  obtain ⟨s, found, inside⟩ := h.inside_ranges range member
  have size := sized s (List.mem_of_getElem? found)
  constructor <;> omega

/-- What a unit refers to lies at offsets in its sections, or elsewhere. -/
theorem isOffset_base (target : AddressTarget) :
    IsOffset (base code ((unitLayout u (.ofUnit u)).place target)) := by
  cases target with
  | symbol name =>
      change IsOffset (base code ((unitLayout u (.ofUnit u)).target name))
      cases place : (unitLayout u (.ofUnit u)).target name with
      | entry label =>
          obtain ⟨q, isFunction, -, start⟩ := h.exists_of_entry (UnitLayout.entry_of_target place)
          have known := h.isOffset_of_has sized (.symbol (h.mem_symbols_of_function isFunction))
          change IsOffset q.start at known
          rw [start] at known
          exact known
      | place id offset =>
          obtain ⟨v, isVariable, -, -, rfl⟩ := h.exists_of_place (UnitLayout.place_of_target place)
          exact h.isOffset_of_has sized (.symbol (h.mem_symbols_of_variable isVariable))
      | imported => exact isOffset_zero
  | str id =>
      change IsOffset (((unitLayout u (.ofUnit u)).strings[id]?.getD (0, 0)).2 : Nat)
      rw [h.literalPlaces, List.getElem?_map]
      cases found : ss[id]? with
      | none => exact isOffset_zero
      | some s =>
          have range : u.literalRanges[id]? = some ((DataLayout.ofUnit u).range s.part) := by
            rw [h.literalRanges, List.getElem?_map, found]
            rfl
          exact h.isOffset_of_has sized (.string range)

/-- What an instruction refers to is a target of an address, or a function that is called. -/
theorem isOffset_base_site {site : Nat × Reference} (member : site ∈ code.layout.sites) :
    IsOffset (base code site.2.target) := by
  obtain ⟨_, lowered⟩ := h.lowered
  obtain ⟨f, start, linked, -⟩ := code.layout_spec.2 site member
  obtain ⟨m, -, resolves⟩ :=
    exists_of_forall₂ (realises_functions lowered) (Code.mem_references.mpr linked)
  have symbol {name : String} {place : CodeTarget}
      (own : (unitLayout u (.ofUnit u)).target name = place) : IsOffset (base code place) :=
    own ▸ h.isOffset_base sized (.symbol name)
  obtain ⟨offset, kind, target, expected⟩ := site
  cases resolves with
  | callImported => exact isOffset_zero
  | entry own | place own | imported own => exact symbol own
  | @string id _ _ found =>
      have place := h.isOffset_base sized (.str id)
      rw [UnitLayout.place, found] at place
      exact place

end Arrangement

/-- The addends of the relocations of a unit. Those of code are exact sums. Those of data are exact
unless the sum is beyond the greatest word, which takes a distance of more than `2 ^ 62`. -/
structure ExactAddends (u : TranslationUnit) (code : UnitCode) : Prop where
  operands : ∀ site ∈ code.layout.sites,
    let sum := base code site.2.target + fieldAddend site.2.kind
    long.Represents sum ∧ (codeRelocation code.layout site).addend = sum
  items : ∀ a ∈ (DataLayout.ofUnit u).addresses, long.Represents a.addend →
    let layout := unitLayout u (.ofUnit u)
    let sum := base code (layout.place a.target) + a.addend
    (long.Represents sum ↔ sum < 2 ^ 63) ∧ (a.addend ≤ 2 ^ 62 → long.Represents sum) ∧
      (long.Represents sum → (dataRelocation u layout code.layout a).addend = sum)

theorem exactAddends (h : Arrangement u code ps vs ss)
    (sized : ∀ s ∈ (objectOf u (.ofUnit u) code).sections, s.size ≤ Object.maxExtent) :
    ExactAddends u code where
  operands site member := by
    intro sum
    have offset := h.isOffset_base_site sized member
    have fits : long.Represents sum := by
      cases kind : site.2.kind <;>
        exact offset.represents_add (by rw [kind]; decide) (by rw [kind]; decide)
    exact ⟨fits, (addend_codeRelocation site).trans (IntType.toInt_ofInt rfl fits)⟩
  items a _ word := by
    intro layout sum
    have offset := h.isOffset_base sized a.target
    refine ⟨offset.represents_add_iff word, offset.represents_add word, fun fits => ?_⟩
    exact (addend_dataRelocation layout a).trans (IntType.toInt_ofInt rfl fits)

end Lowering

open Lowering

/-- What is known of the ranges of addends. The distance of a constant address is exact modulo
`2 ^ 64`. It is computed within the range of words if and only if all signed distances on the way
and all their partial sums are in that range, as they are if their sizes add up to less than
`2 ^ 63`.
The addends of relocations are exact for code, and for data unless the sum is beyond the greatest
word. -/
theorem addends_exact_iff (e : Expr) (source : String) (options : CompileOptions) :
    (∀ {target : AddressTarget} {distance : Word},
      e.constantAddress? = some (target, distance) →
      distance = BitVec.ofInt 64 e.offsets.sum ∧
      ((∀ n ∈ e.addendSteps, long.Represents n) ↔
        (∀ n ∈ e.offsets, long.Represents n) ∧ PartialSumsFit e.offsets) ∧
      ((∀ n ∈ e.addendSteps, long.Represents n) → distance.toInt = e.offsets.sum) ∧
      ((e.offsets.map Int.natAbs).sum < 2 ^ 63 → ∀ n ∈ e.addendSteps, long.Represents n)) ∧
    ∀ {object : Object} {warnings : List Diagnostic},
      compileSource source options = .ok (object, warnings) →
      (∀ s ∈ object.sections, s.size ≤ Object.maxExtent) →
      ∃ u code, parseSource source options.defines = .ok (u, warnings) ∧
        objectOf u (.ofUnit u) code = object ∧ ExactAddends u code := by
  constructor
  · intro target distance constant
    exact ⟨Expr.eq_sum_offsets constant, Expr.addendSteps_fit_iff constant,
      Expr.toInt_eq_sum_offsets constant, Expr.addendSteps_fit_of_small constant⟩
  · intro object warnings compiled sized
    obtain ⟨u, code, ps, vs, ss, parsed, rfl, arrangement⟩ := arrangement_of_compileSource compiled
    exact ⟨u, code, parsed, rfl, exactAddends arrangement sized⟩

/-- `"hi" + 5 - 2`, and a source with a pointer behind the start of its target. -/
theorem addends_exact_of_threeBehind :
    let pointer : Note := ⟨.pointer (.int .char), .start⟩
    let long (v : Word) : Expr := .int ⟨.int .long, .start⟩ v
    let start : Expr := .addrOf pointer (.str ⟨.array (.int .char) (some 3), .start⟩ 0)
    let e : Expr := .binary pointer .sub (.binary pointer .add start (long 5)) (long 2)
    let source := "char *p = \"hi\" + 1; char q(void) \x7b return *p; \x7d"
    e.constantAddress? = some (.str 0, 3) ∧ e.offsets = [5, -2] ∧
      (e.offsets.map Int.natAbs).sum < 2 ^ 63 ∧ (∀ n ∈ e.addendSteps, IntType.long.Represents n) ∧
      ∃ object warnings u code, compileSource source {} = .ok (object, warnings) ∧
        (∀ s ∈ object.sections, s.size ≤ Object.maxExtent) ∧
        parseSource source [] = .ok (u, warnings) ∧ ExactAddends u code := by
  intro pointer long start e source
  obtain ⟨distances, relocations⟩ := addends_exact_iff e source {}
  have constant : e.constantAddress? = some (.str 0, 3) := rfl
  have small : (e.offsets.map Int.natAbs).sum < 2 ^ 63 := by decide
  obtain ⟨-, -, -, fit⟩ := distances constant
  refine ⟨constant, rfl, small, fit small, ?_⟩
  have facts : (compileSource source {}).toOption.any
      (fun r => ∀ s ∈ r.1.sections, s.size ≤ Object.maxExtent) = true := by
    rw [compileSource, parseSource_of_bytes (Text.toByteChars_of_all ?_)]
    all_goals decide +kernel
  obtain ⟨r, compiled, facts⟩ := exists_of_toOption_any facts
  have sized := of_decide_eq_true facts
  obtain ⟨u, code, parsed, -, exact'⟩ := relocations compiled sized
  exact ⟨r.1, r.2, u, code, compiled, sized, parsed, exact'⟩

/-- A distance that is taken away and has no negation: `"hi" - (-9223372036854775807L - 1L)`. The
exact result of the negation is not a word, and the source is accepted with the least word for the
distance. So is a source in which the sum of an offset and a distance is beyond the greatest
word. -/
theorem parseSource_of_leastDistance :
    let tokens : List Token := [⟨.str [104, 105], .start⟩, ⟨.punct .minus, .start⟩,
      ⟨.punct .lparen, .start⟩, ⟨.punct .minus, .start⟩,
      ⟨.int (2 ^ 63 - 1) false true true, .start⟩, ⟨.punct .minus, .start⟩,
      ⟨.int 1 false true true, .start⟩, ⟨.punct .rparen, .start⟩]
    (characterPointer? ((Parser.productions 40).assignment
        { rest := tokens, endLoc := .start })).any (fun e =>
      e.constantAddress? = some (.str 0, BitVec.ofInt 64 (2 ^ 63)) ∧
        2 ^ 63 ∈ e.addendSteps) = true ∧
    ¬IntType.long.Represents (2 ^ 63) ∧
    (parseSource "char *p = \"hi\" - (-9223372036854775807L - 1L);" []).toOption.any (fun r =>
      r.1.globals.any fun g => g.init = some [⟨0, .address (.str 0) (-2 ^ 63)⟩]) = true ∧
    (compileSource "char a[4]; char b[4]; char *p = b + 9223372036854775807L;" {}).toOption.any
      (fun r => r.1.relocations.any fun r => r.addend = 4 + (2 ^ 63 - 1) - 2 ^ 64) = true := by
  refine ⟨by decide +kernel, by decide, ?_, ?_⟩
  · rw [parseSource_of_bytes (Text.toByteChars_of_all ?_)]
    all_goals decide +kernel
  · rw [compileSource, parseSource_of_bytes (Text.toByteChars_of_all ?_)]
    all_goals decide +kernel

end LiveC
