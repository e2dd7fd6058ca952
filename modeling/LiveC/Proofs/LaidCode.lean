import LiveC.Proofs.AssembledCode
import LiveC.Proofs.CodeReferences

/-!
Code as it lies in a section. Each element has its bytes behind those of the elements in front of
it, a label stands for where it is, and a linked field is listed at its offset. The functions of a
unit lie one behind the other, each with code of its own, and their symbols say where.
-/

namespace LiveC
namespace Code

variable {ρ : Type}

/-- Code that lies from an offset on, with its bytes and its linked fields. -/
inductive Laid (target : Label → Nat) : Nat → Code ρ → List UInt8 → List (Nat × ρ) → Prop
  | nil {start : Nat} : Laid target start [] [] []
  | label {l : Label} {start : Nat} {c : Code ρ} {bytes : List UInt8} {sites : List (Nat × ρ)} :
      target l = start → Laid target start c bytes sites →
      Laid target start (.label l :: c) bytes sites
  | instr {i : Instruction Label} {start size : Nat} {c : Code ρ} {bytes : List UInt8}
      {sites : List (Nat × ρ)} :
      (pieceBytes target start size (.instr i : Piece ρ)).length = size →
      Laid target (start + size) c bytes sites →
      Laid target start (.instr i :: c) (pieceBytes target start size (.instr i : Piece ρ) ++ bytes)
        sites
  | linked {f : Field} {ref : ρ} {start : Nat} {c : Code ρ} {bytes : List UInt8}
      {sites : List (Nat × ρ)} :
      Laid target (start + f.bytes.length) c bytes sites →
      Laid target start (.linked f ref :: c) (f.bytes ++ bytes) ((start + f.offset, ref) :: sites)

variable {target : Label → Nat} {start : Nat} {c d : Code ρ} {bytes : List UInt8}
  {sites : List (Nat × ρ)}

/-- Code that lies somewhere is cut as its elements are. -/
theorem Laid.split (h : Laid target start (c ++ d) bytes sites) :
    ∃ first behind sites' sites'', bytes = first ++ behind ∧ sites = sites' ++ sites'' ∧
      Laid target start c first sites' ∧ Laid target (start + first.length) d behind sites'' := by
  induction c generalizing start bytes sites with
  | nil => exact ⟨[], bytes, [], sites, rfl, rfl, .nil, h⟩
  | cons p c ih =>
      cases h with
      | label same rest =>
          obtain ⟨first, behind, sites', sites'', rfl, rfl, laid, others⟩ := ih rest
          exact ⟨first, behind, sites', sites'', rfl, rfl, .label same laid, others⟩
      | @instr i _ size _ _ _ length rest =>
          obtain ⟨first, behind, sites', sites'', rfl, rfl, laid, others⟩ := ih rest
          refine ⟨_ ++ first, behind, sites', sites'', (List.append_assoc ..).symm, rfl,
            .instr length laid, ?_⟩
          rwa [List.length_append, length, ← Nat.add_assoc]
      | @linked f ref _ _ _ _ rest =>
          obtain ⟨first, behind, sites', sites'', rfl, rfl, laid, others⟩ := ih rest
          refine ⟨f.bytes ++ first, behind, _ :: sites', sites'', (List.append_assoc ..).symm, rfl,
            .linked laid, ?_⟩
          rwa [List.length_append, ← Nat.add_assoc]

/-! ### The layout lays code -/

theorem le_of_mem_labelIndices {i : Nat} {p : Label × Nat} (h : p ∈ labelIndices i c) : i ≤ p.2 := by
  induction c generalizing i with
  | nil => cases h
  | cons q c ih =>
      cases q with
      | label l =>
          rcases List.mem_cons.mp h with rfl | behind
          · exact Nat.le_refl i
          · exact ih behind
      | instr | linked => exact Nat.le_of_succ_le (ih h)

/-- What the assembler emits lies from its first start on, if labels stand for the starts of the
instructions behind them. -/
theorem emit_laid {slots : List Slot} (i : Nat) (exact : List.Forall₂ Exact c.instructions slots)
    (placed : ∀ p ∈ labelIndices i c, (startsFrom start slots)[p.2 - i]? = some (target p.1)) :
    Laid target start c (emit target c slots (startsFrom start slots)).1
      (emit target c slots (startsFrom start slots)).2 := by
  induction c generalizing slots i start with
  | nil =>
      cases exact
      exact .nil
  | cons p c ih =>
      have behind {s : Slot} {rest : List Slot} {q : Label × Nat} (h : q ∈ labelIndices (i + 1) c)
          (found : (startsFrom start (s :: rest))[q.2 - i]? = some (target q.1)) :
          (startsFrom (start + s.size) rest)[q.2 - (i + 1)]? = some (target q.1) := by
        have le := le_of_mem_labelIndices h
        have next : q.2 - i = q.2 - (i + 1) + 1 := by omega
        rwa [next, startsFrom, List.getElem?_cons_succ] at found
      cases p with
      | label l =>
          obtain ⟨here, others⟩ := List.forall_mem_cons.mp placed
          have laid := ih i exact others
          have first : target l = start := by
            cases slots with
            | nil => simp [startsFrom] at here
            | cons s rest => simpa [startsFrom] using here.symm
          exact .label first laid
      | instr k =>
          obtain ⟨s, rest, size, others, rfl⟩ := List.forall₂_cons_left_iff.mp exact
          exact .instr (size target start)
            (ih (i + 1) others fun q member => behind member (placed q member))
      | linked f ref =>
          obtain ⟨s, rest, size, others, rfl⟩ := List.forall₂_cons_left_iff.mp exact
          have length : f.bytes.length = s.size := size target start
          refine .linked ?_
          rw [length]
          exact ih (i + 1) others fun q member => behind member (placed q member)

theorem labels_separate (c : Code ρ) : c.separate.labels = c.labels := by
  fun_induction separate c with
  | case1 | case2 => rfl
  | case3 a b rest ih => simpa [labels, labelIndices, labels_eq_filterMap] using ih
  | case4 p rest _ _ ih =>
      rw [labels, labels, labels_eq_filterMap, labels_eq_filterMap] at ih
      simp only [labels, labels_eq_filterMap, List.filterMap_cons, ih]

/-- What keeps labels apart refers to nothing. -/
theorem references_separate (c : Code ρ) : c.separate.references = c.references := by
  fun_induction separate c with
  | case1 | case2 => rfl
  | case3 a b rest ih => simpa [Instruction.callee?] using ih
  | case4 p rest _ _ ih =>
      cases p with
      | label | linked => simpa using ih
      | instr i => simp [ih]

/-- Behind every label of separated code there is an instruction. -/
theorem lt_of_mem_separate {i : Nat} {p : Label × Nat} (h : p ∈ labelIndices i c.separate) :
    p.2 < i + c.separate.instructions.length := by
  fun_induction separate c generalizing i with
  | case1 => cases h
  | case2 l =>
      obtain rfl := List.mem_singleton.mp h
      exact Nat.lt_succ_self i
  | case3 a b rest ih =>
      rcases List.mem_cons.mp h with rfl | behind
      · exact Nat.lt_add_of_pos_right (Nat.succ_pos _)
      · have lt := ih behind
        simp only [instructions, List.filter_cons] at lt ⊢
        simp at lt ⊢
        omega
  | case4 q rest notLast notLabels ih =>
      cases q with
      | label l =>
          rcases List.mem_cons.mp h with rfl | behind
          · have next : 0 < (separate rest).instructions.length := by
              cases rest with
              | nil => exact absurd rfl (notLast l rfl)
              | cons r rest =>
                  cases r with
                  | label b => exact absurd rfl (notLabels l b rest rfl)
                  | instr | linked => simp [separate, instructions]
            exact Nat.lt_add_of_pos_right next
          · exact ih behind
      | instr | linked =>
          have lt := ih h
          simp only [instructions, List.filter_cons] at lt ⊢
          simp at lt ⊢
          omega

/-- Where a label is in laid-out code. -/
def offsetOf (c : Code ρ) (l : Label) : Nat := (c.layout.labelOffset? l).getD 0

/-- The layout lays separated code from the start of its section on. -/
theorem layout_laid {c : Code ρ} (distinct : c.labels.Nodup) :
    Laid c.offsetOf 0 c.separate c.layout.code c.layout.sites := by
  let indices := labelIndices 0 c.separate
  let slots := c.separate.filterMap (slot? indices)
  let result := settle maxPasses slots (startsFrom 0 slots).toArray
  let labels := indices.map fun entry => (entry.1, result.2.getD entry.2 0)
  have placed : Placed c.separate.instructions result.1 result.2.toList :=
    placed_of_fits (fits_slots indices c.separate)
  have names : labels.map Prod.fst = c.labels := by
    rw [← labels_separate c, Code.labels, List.map_map]
    rfl
  let target (l : Label) : Nat := (labels.lookup l).getD 0
  have starts : ∀ p ∈ indices, (startsFrom 0 result.1)[p.2 - 0]? = some (target p.1) := by
    intro p member
    have known : (p.1, result.2.getD p.2 0) ∈ labels := List.mem_map_of_mem member
    have inRange : p.2 < result.2.toList.length := by
      have lt := lt_of_mem_separate member
      rw [placed.starts, length_startsFrom, ← placed.settled.exact.length_eq]
      omega
    dsimp only [target]
    rw [lookup_of_mem (names ▸ distinct) known, ← placed.starts]
    simp [Array.getD_eq_getD_getElem?] at inRange ⊢
    simp [inRange]
  have laid : Laid target 0 c.separate _ _ := emit_laid 0 placed.settled.exact starts
  rw [← placed.starts] at laid
  exact laid

/-! ### Separated code -/

@[simp] theorem separate_instr (i : Instruction Label) (c : Code ρ) :
    separate (.instr i :: c) = .instr i :: separate c := by
  simp [separate]

@[simp] theorem separate_linked (f : Field) (ref : ρ) (c : Code ρ) :
    separate (.linked f ref :: c) = .linked f ref :: separate c := by
  simp [separate]

/-- Code that ends in an instruction is separated from what is behind it already. -/
theorem separate_append (i : Instruction Label) (c d : Code ρ) :
    separate (c ++ .instr i :: d) = separate (c ++ [.instr i]) ++ separate d := by
  induction c with
  | nil => rw [List.nil_append, List.nil_append, separate_instr, separate_instr]; rfl
  | cons p c ih =>
      cases p with
      | instr | linked => simpa using ih
      | label a =>
          cases c with
          | nil => simp [separate]
          | cons q c => cases q <;> simpa [separate] using ih

/-! ### References of code that lies somewhere -/

end Code

namespace CodeRef

variable {ρ : Type}

/-- The bytes of an instruction that refers to something, at an offset. -/
def bytes (target : Label → Nat) (start : Nat) : CodeRef ρ → List UInt8
  | call l => (Instruction.call (⟨BitVec.ofInt 32 ((target l : Int) - (start + 5)), false⟩ : Jump)).bytes
  | linked f _ => f.bytes

/-- The linked field of an instruction at an offset. -/
def site? (start : Nat) : CodeRef ρ → Option (Nat × ρ)
  | call _ => none
  | linked f ref => some (start + f.offset, ref)

end CodeRef

namespace Code

/-- The references of code that lies from an offset on, each at the start of its instruction. -/
structure Places (target : Label → Nat) (start : Nat) (c : Code ρ) (bytes : List UInt8)
    (sites : List (Nat × ρ)) (places : List (Nat × CodeRef ρ)) : Prop where
  references_eq : places.map (·.2) = c.references
  sites_eq : sites = places.filterMap fun p => p.2.site? p.1
  shown : ∀ p ∈ places, start ≤ p.1 ∧ p.2.bytes target p.1 <+: bytes.drop (p.1 - start)
  apart : places.Pairwise fun p q => p.1 + (p.2.bytes target p.1).length ≤ q.1

namespace Places

variable {places : List (Nat × CodeRef ρ)} {p : Piece ρ} {first : List UInt8} {size : Nat}
  (h : Places target (start + size) c bytes sites places) (length : first.length = size)
include h length

theorem shown_behind : ∀ q ∈ places,
    start + size ≤ q.1 ∧ q.2.bytes target q.1 <+: (first ++ bytes).drop (q.1 - start) := by
  intro q member
  obtain ⟨behind, shown⟩ := h.shown q member
  have distance : q.1 - start = first.length + (q.1 - (start + size)) := by omega
  rw [distance, ← List.drop_drop, List.drop_left]
  exact ⟨behind, shown⟩

/-- A piece without a reference lies in front. -/
theorem skip (none : p.reference? = .none) :
    Places target start (p :: c) (first ++ bytes) sites places where
  references_eq := h.references_eq.trans (List.filterMap_cons_none none).symm
  sites_eq := h.sites_eq
  shown q member := by
    obtain ⟨behind, shown⟩ := h.shown_behind length q member
    exact ⟨Nat.le_trans (Nat.le_add_right ..) behind, shown⟩
  apart := h.apart

/-- A piece with a reference lies in front. -/
theorem cons {r : CodeRef ρ} (some : p.reference? = .some r) (own : r.bytes target start = first) :
    Places target start (p :: c) (first ++ bytes) ((r.site? start).toList ++ sites)
      ((start, r) :: places) where
  references_eq := by
    rw [List.map_cons, h.references_eq]
    exact (List.filterMap_cons_some some).symm
  sites_eq := by
    rw [h.sites_eq]
    cases r <;> rfl
  shown := by
    refine List.forall_mem_cons.mpr ⟨⟨Nat.le_refl _, ?_⟩, fun q member => ?_⟩
    · rw [Nat.sub_self, own]
      exact List.prefix_append ..
    · obtain ⟨behind, shown⟩ := h.shown_behind length q member
      exact ⟨Nat.le_trans (Nat.le_add_right ..) behind, shown⟩
  apart := by
    refine List.pairwise_cons.mpr ⟨fun q member => ?_, h.apart⟩
    rw [own, length]
    exact (h.shown q member).1

end Places

/-- The references of code lie where its instructions do. -/
theorem Laid.exists_places (h : Laid target start c bytes sites) :
    ∃ places, Places target start c bytes sites places := by
  induction h with
  | nil => exact ⟨[], rfl, rfl, List.forall_mem_nil _, .nil⟩
  | label _ _ ih =>
      obtain ⟨places, h⟩ := ih
      have empty : ([] : List UInt8).length = 0 := rfl
      exact ⟨places, h.skip empty rfl⟩
  | @instr i start size c bytes sites length _ ih =>
      obtain ⟨places, h⟩ := ih
      cases i with
      | call l =>
          obtain rfl : 5 = size := length
          exact ⟨_, h.cons (r := .call l) rfl rfl rfl⟩
      | _ => exact ⟨places, h.skip length rfl⟩
  | @linked f ref _ _ _ _ _ ih =>
      obtain ⟨places, h⟩ := ih
      exact ⟨_, h.cons (r := .linked f ref) rfl rfl rfl⟩

end Code

namespace Lowering

/-- A function as it lies in the code of its unit. -/
structure PlacedFunction where
  source : Function
  code : UnitCode
  start : Nat
  bytes : List UInt8
  /-- The linked fields, each with its offset in the section. -/
  sites : List (Nat × Reference)

namespace PlacedFunction

def stop (p : PlacedFunction) : Nat := p.start + p.bytes.length

def symbol (p : PlacedFunction) : ObjectSymbol :=
  { name := p.source.name, kind := .function, sectionId := 0, offset := p.start,
    size := p.bytes.length, isGlobal := !p.source.isStatic,
    shape := some (.ofSignature p.source.signature) }

variable {layout : UnitLayout} {target : Label → Nat} {entry : Label} {start stop : Nat}
  {p q : PlacedFunction} {ps : List PlacedFunction}

/-- A function lies where its label is, with the bytes of the code that it is lowered to. -/
structure Lies (layout : UnitLayout) (target : Label → Nat) (entry : Label) (p : PlacedFunction) :
    Prop where
  lowered : ∃ n n', function layout entry p.source n = .ok (p.code, n')
  entry_eq : target entry = p.start
  laid : p.code.separate.Laid target p.start p.bytes p.sites
  nonempty : 0 < p.bytes.length

/-- Functions that lie one behind the other, under labels that are counted up. -/
inductive Run (layout : UnitLayout) (target : Label → Nat) :
    Label → Nat → List PlacedFunction → Nat → Prop
  | nil {entry : Label} {start : Nat} : Run layout target entry start [] start
  | cons {entry : Label} {start stop : Nat} {p : PlacedFunction} {ps : List PlacedFunction} :
      p.Lies layout target entry → p.start = start → Run layout target (entry + 1) p.stop ps stop →
      Run layout target entry start (p :: ps) stop

theorem Lies.lt_stop (h : p.Lies layout target entry) : p.start < p.stop :=
  Nat.lt_add_of_pos_right h.nonempty

/-- The references of a function stand for what its body mentions. -/
theorem Lies.exists_places (h : p.Lies layout target entry) :
    ∃ places, Code.Places target p.start p.code.separate p.bytes p.sites places ∧
      List.Forall₂ layout.Resolves p.source.mentions (places.map (·.2)) := by
  obtain ⟨n, n', lowered⟩ := h.lowered
  obtain ⟨places, isPlaces⟩ := h.laid.exists_places
  refine ⟨places, isPlaces, ?_⟩
  rw [isPlaces.references_eq, Code.references_separate]
  exact realises_function lowered

theorem Run.le (h : Run layout target entry start ps stop) : start ≤ stop := by
  induction h with
  | nil => exact Nat.le_refl _
  | cons lies same _ ih => exact same ▸ Nat.le_trans (Nat.le_of_lt lies.lt_stop) ih

/-- Every function of a run lies in it. -/
theorem Run.inside (h : Run layout target entry start ps stop) :
    ∀ p ∈ ps, (∃ entry, p.Lies layout target entry) ∧ start ≤ p.start ∧ p.stop ≤ stop := by
  induction h with
  | nil => exact List.forall_mem_nil _
  | @cons entry start stop p ps lies same run ih =>
      subst same
      refine List.forall_mem_cons.mpr ⟨⟨⟨entry, lies⟩, Nat.le_refl _, run.le⟩, fun q member => ?_⟩
      obtain ⟨lies', le, inside⟩ := ih q member
      exact ⟨lies', Nat.le_trans (Nat.le_of_lt lies.lt_stop) le, inside⟩

theorem Run.apart (h : Run layout target entry start ps stop) :
    ps.Pairwise fun p q => p.stop ≤ q.start := by
  induction h with
  | nil => exact .nil
  | cons lies same run ih => exact List.pairwise_cons.mpr ⟨fun q member => (run.inside q member).2.1, ih⟩

/-- Every function of a run has its bytes in it. -/
theorem Run.shown (h : Run layout target entry start ps stop) :
    ∀ p ∈ ps, p.bytes <+: (ps.flatMap (·.bytes)).drop (p.start - start) := by
  induction h with
  | nil => exact List.forall_mem_nil _
  | @cons entry start stop p ps lies same run ih =>
      subst same
      rw [List.flatMap_cons]
      refine List.forall_mem_cons.mpr ⟨?_, fun q member => ?_⟩
      · rw [Nat.sub_self]
        exact List.prefix_append ..
      · have behind : p.start + p.bytes.length ≤ q.start := (run.inside q member).2.1
        have distance : q.start - p.start = p.bytes.length + (q.start - p.stop) := by
          rw [PlacedFunction.stop]
          omega
        rw [distance, ← List.drop_drop, List.drop_left]
        exact ih q member

/-- A run is cut at each of its functions. -/
theorem Run.split {before after : List PlacedFunction}
    (h : Run layout target entry start (before ++ p :: after) stop) :
    ∃ entry', Run layout target entry start before p.start ∧ p.Lies layout target entry' ∧
      Run layout target (entry' + 1) p.stop after stop := by
  induction before generalizing entry start with
  | nil =>
      cases h with
      | @cons entry _ _ _ _ lies same run => exact ⟨entry, same ▸ .nil, lies, run⟩
  | cons q before ih =>
      cases h with
      | cons lies same run =>
          obtain ⟨entry', first, lies', behind⟩ := ih run
          exact ⟨entry', .cons lies same first, lies', behind⟩

/-- The least start behind the one of a function is where the function stops. -/
theorem Run.next_start (h : Run layout target entry start ps stop) (member : p ∈ ps) :
    (((ps.map PlacedFunction.start).filter (p.start < ·)).min?).getD stop = p.stop := by
  obtain ⟨before, after, rfl⟩ := List.append_of_mem member
  obtain ⟨entry', first, lies, behind⟩ := h.split
  have lower : (before.map PlacedFunction.start).filter (p.start < ·) = [] := by
    refine List.filter_eq_nil_iff.mpr fun n isStart => ?_
    obtain ⟨q, inside, rfl⟩ := List.mem_map.mp isStart
    obtain ⟨⟨_, lies'⟩, -, le⟩ := first.inside q inside
    simpa using Nat.le_trans (Nat.le_of_lt lies'.lt_stop) le
  have upper : (after.map PlacedFunction.start).filter (p.start < ·) =
      after.map PlacedFunction.start := by
    refine List.filter_eq_self.mpr fun n isStart => ?_
    obtain ⟨q, inside, rfl⟩ := List.mem_map.mp isStart
    simpa using Nat.lt_of_lt_of_le lies.lt_stop (behind.inside q inside).2.1
  have starts : ((before ++ p :: after).map PlacedFunction.start).filter (p.start < ·) =
      after.map PlacedFunction.start := by
    simp [lower, upper]
  rw [starts]
  cases behind with
  | nil => rfl
  | @cons _ _ _ q ps lies' same run =>
      have least : ((q :: ps).map PlacedFunction.start).min? = some p.stop := by
        refine List.min?_eq_some_iff.mpr ⟨by simp [same], fun n isStart => ?_⟩
        obtain ⟨q', inside, rfl⟩ := List.mem_map.mp isStart
        exact ((Run.cons lies' same run).inside q' inside).2.1
      rw [least]
      rfl

end PlacedFunction

open PlacedFunction

variable {layout : UnitLayout} {target : Label → Nat} {entry : Label} {start n n' : Nat}
  {code : UnitCode} {bytes : List UInt8} {sites : List (Nat × Reference)}

/-- The code of a function starts with its label and the opening of its frame, and ends with an
instruction. -/
theorem function_ends {f : Function} (run : function layout entry f n = .ok (code, n')) :
    ∃ opening rest, code = .label entry :: .instr (.push .rbp) :: opening ∧
      code = rest ++ [.instr .ret] := by
  obtain ⟨entries, enter⟩ : ∃ entries : Label → Prop, ∀ e ∈ layout.entries, entries e.2 :=
    ⟨fun _ => True, fun _ _ => trivial⟩
  obtain ⟨frame, inner, framed, -⟩ := framed_of_function enter run
  refine ⟨_, (.label entry :: prologue frame.size) ++ (inner ++ [.instr .leave]), framed.code_eq, ?_⟩
  rw [framed.code_eq]
  simp only [List.append_assoc]
  rfl

/-- The functions of a unit lie one behind the other. -/
theorem run_of_functions {fs : List Function} (run : functions layout entry fs n = .ok (code, n'))
    (laid : code.separate.Laid target start bytes sites) :
    ∃ ps, Run layout target entry start ps (start + bytes.length) ∧ ps.map (·.source) = fs ∧
      bytes = ps.flatMap (·.bytes) ∧ sites = ps.flatMap (·.sites) := by
  induction fs generalizing entry start n code bytes sites with
  | nil =>
      cases run
      cases laid
      exact ⟨[], .nil, rfl, rfl, rfl⟩
  | cons f fs ih =>
      obtain ⟨first, k, others, lowered, rest, rfl⟩ := functions_cons_eq_ok run
      obtain ⟨opening, inner, opens, ends⟩ := function_ends lowered
      have separated : (first ++ others).separate = first.separate ++ others.separate := by
        rw [ends, List.append_assoc]
        exact Code.separate_append .ret inner others
      rw [separated] at laid
      obtain ⟨own, behind, sites', sites'', rfl, rfl, here, there⟩ := laid.split
      have placed : target entry = start ∧ 0 < own.length := by
        have starts : first.separate = .label entry :: .instr (.push .rbp) ::
            Code.separate opening := by
          simp [opens, Code.separate]
        rw [starts] at here
        cases here with
        | label same rest =>
            cases rest with
            | instr length others =>
                refine ⟨same, ?_⟩
                rw [List.length_append]
                exact Nat.lt_add_right _ Nat.one_pos
      obtain ⟨ps, tail, sources, rfl, rfl⟩ := ih rest there
      let p : PlacedFunction := ⟨f, first, start, own, sites'⟩
      refine ⟨p :: ps, .cons ⟨⟨n, k, lowered⟩, placed.1, here, placed.2⟩ rfl ?_, ?_, rfl, rfl⟩
      · rwa [List.length_append, ← Nat.add_assoc]
      · rw [List.map_cons, sources]

end Lowering
end LiveC
