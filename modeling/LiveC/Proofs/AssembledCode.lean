import LiveC.Machine.Assembler
import Mathlib.Data.List.Forall2

/-!
Code that is laid out. After a pass every slot has the size of the machine code of its
instruction, and the recorded starts are the sums of the sizes in front. So labels lie in the
code, and linked fields in their instructions.
-/

namespace LiveC
namespace Code

variable {ρ : Type}

/-- The elements that take up space. -/
def instructions (c : Code ρ) : Code ρ := c.filter fun | .label _ => false | _ => true

/-! ### Sizes -/

/-- The size of a slot is that of the instruction, wherever it goes. -/
def Exact (p : Piece ρ) (s : Slot) : Prop :=
  ∀ target start, (pieceBytes target start s.size p).length = s.size

/-- A slot of an instruction whose size may still be too large. A size that is final is right. -/
inductive Fits : Piece ρ → Slot → Prop
  | fixed {p : Piece ρ} {s : Slot} : s.branch = none → Exact p s → Fits p s
  | jmp {l : Label} {s : Slot} {target : Nat} : s.branch = some (.jmp target) →
      (s.size = 2 ∨ s.size = 5 ∨ s.size = 6 ∧ s.done = false) → Fits (.instr (.jmp l)) s
  | jcc {c : Condition} {l : Label} {s : Slot} {target : Nat} : s.branch = some (.jcc target) →
      (s.size = 2 ∨ s.size = 6 ∨ s.size = 8 ∧ s.done = false) → Fits (.instr (.jcc c l)) s
  | call {l : Label} {s : Slot} : s.branch = some .call → (s.size = 5 ∨ s.size = 6) →
      Fits (.instr (.call l)) s

theorem length_jmp (j : Jump) : (Instruction.jmp j).bytes.length = if j.short then 2 else 5 := by
  obtain ⟨disp, short⟩ := j
  cases short <;> rfl

theorem length_jcc (c : Condition) (j : Jump) :
    (Instruction.jcc c j).bytes.length = if j.short then 2 else 6 := by
  obtain ⟨disp, short⟩ := j
  cases short <;> rfl

theorem exact_jmp {l : Label} {s : Slot} (h : s.size = 2 ∨ s.size = 5) :
    Exact (.instr (.jmp l) : Piece ρ) s := by
  intro target start
  refine (length_jmp _).trans ?_
  rcases h with size | size <;> simp [size]

theorem exact_jcc {c : Condition} {l : Label} {s : Slot} (h : s.size = 2 ∨ s.size = 6) :
    Exact (.instr (.jcc c l) : Piece ρ) s := by
  intro target start
  refine (length_jcc c _).trans ?_
  rcases h with size | size <;> simp [size]

theorem exact_call {l : Label} {s : Slot} (h : s.size = 5) :
    Exact (.instr (.call l) : Piece ρ) s :=
  fun _ _ => h.symm

/-- An instruction without a branch target has one size. -/
theorem exact_of_map {i : Instruction Label}
    (same : ∀ jump other : Label → Jump, i.map jump = i.map other) :
    Exact (.instr i : Piece ρ) ⟨(i.map fun _ => (⟨0, false⟩ : Jump)).bytes.length, none, true⟩ :=
  fun _ _ => congrArg (fun i => i.bytes.length) (same _ _)

theorem fits_slot (indices : List (Label × Nat)) {p : Piece ρ} {s : Slot}
    (h : slot? indices p = some s) : Fits p s := by
  cases p with
  | label l => cases h
  | linked f ref =>
      cases h
      exact .fixed rfl fun _ _ => rfl
  | instr i =>
      cases i with
      | jmp l =>
          cases h
          exact .jmp rfl (.inr (.inr ⟨rfl, rfl⟩))
      | jcc c l =>
          cases h
          exact .jcc rfl (.inr (.inr ⟨rfl, rfl⟩))
      | call l =>
          cases h
          exact .call rfl (.inr rfl)
      | _ =>
          cases h
          exact .fixed rfl (exact_of_map fun _ _ => rfl)

/-! ### Passes -/

/-- The size of a branch that was looked at: it is settled or takes at most so many bytes. -/
theorem size_shrink (s : Slot) (near target ip gained : Nat) :
    s.done = true ∧ shrink s near target ip gained = s ∨
      s.done = false ∧ ((shrink s near target ip gained).size = min s.size 2 ∨
        (shrink s near target ip gained).size = min s.size near) := by
  unfold shrink
  split
  case isTrue done => exact .inl ⟨done, rfl⟩
  case isFalse notDone =>
    refine .inr ⟨Bool.eq_false_iff.mpr notDone, ?_⟩
    dsimp only
    generalize (if (0 : Int) ≤ _ then _ else _ : Int) = distance
    split
    · exact .inl rfl
    · exact .inr rfl

theorem branch_shrink (s : Slot) (near target ip gained : Nat) :
    (shrink s near target ip gained).branch = s.branch := by
  unfold shrink
  split
  · rfl
  · dsimp only
    generalize (if (0 : Int) ≤ _ then _ else _ : Int) = distance
    split <;> rfl

/-- A slot behind a pass. -/
def passed (s : Slot) (starts : Array Nat) (ip gained : Nat) : Slot :=
  match s.branch with
  | none => s
  | some .call => { s with size := min s.size 5, done := true }
  | some (.jmp target) => shrink s 5 (starts.getD target 0) ip gained
  | some (.jcc target) => shrink s 6 (starts.getD target 0) ip gained

/-- A pass leaves sizes that are right. -/
theorem fits_passed {p : Piece ρ} {s : Slot} (h : Fits p s) (starts : Array Nat) (ip gained : Nat) :
    Fits p (passed s starts ip gained) ∧ Exact p (passed s starts ip gained) := by
  cases h with
  | fixed branch exact =>
      simp only [passed, branch]
      exact ⟨.fixed branch exact, exact⟩
  | @jmp l _ target branch size =>
      simp only [passed, branch]
      have settled : (shrink s 5 (starts.getD target 0) ip gained).size = 2 ∨
          (shrink s 5 (starts.getD target 0) ip gained).size = 5 := by
        rcases size_shrink s 5 (starts.getD target 0) ip gained with
          ⟨done, same⟩ | ⟨-, short | near⟩
        · rw [same]
          simpa [done] using size
        · omega
        · omega
      refine ⟨.jmp ((branch_shrink ..).trans branch) ?_, exact_jmp settled⟩
      exact settled.imp_right .inl
  | @jcc c l _ target branch size =>
      simp only [passed, branch]
      have settled : (shrink s 6 (starts.getD target 0) ip gained).size = 2 ∨
          (shrink s 6 (starts.getD target 0) ip gained).size = 6 := by
        rcases size_shrink s 6 (starts.getD target 0) ip gained with
          ⟨done, same⟩ | ⟨-, short | near⟩
        · rw [same]
          simpa [done] using size
        · omega
        · omega
      refine ⟨.jcc ((branch_shrink ..).trans branch) ?_, exact_jcc settled⟩
      exact settled.imp_right .inl
  | call branch size =>
      simp only [passed, branch]
      have settled : min s.size 5 = 5 := by omega
      exact ⟨.call rfl (.inl settled), exact_call settled⟩

/-- The slots of instructions with sizes that are right. -/
structure Settled (c : Code ρ) (slots : List Slot) : Prop where
  fits : List.Forall₂ Fits c slots
  exact : List.Forall₂ Exact c slots

theorem take_recorded {starts : Array Nat} {i : Nat} (ip : Nat) (h : i < starts.size) :
    (starts.setIfInBounds i ip).toList.take (i + 1) = starts.toList.take i ++ [ip] := by
  rw [Array.toList_setIfInBounds, List.take_set, List.take_add_one,
    List.getElem?_eq_getElem (by simpa using h), Option.toList_some,
    List.set_append_right _ _ (by simp [Nat.le_of_lt h])]
  simp [Nat.min_eq_left (Nat.le_of_lt h)]

/-- A pass settles the slots and records where they start. -/
theorem pass_settles {c : Code ρ} {slots : List Slot} (h : List.Forall₂ Fits c slots) (i ip gained : Nat)
    (starts : Array Nat) (size : starts.size = i + slots.length) :
    Settled c (pass i ip gained starts slots).1 ∧
      (pass i ip gained starts slots).2.1.toList =
        starts.toList.take i ++ startsFrom ip (pass i ip gained starts slots).1 := by
  induction h generalizing i ip gained starts with
  | nil =>
      refine ⟨⟨.nil, .nil⟩, ?_⟩
      have all : starts.toList.length ≤ i := Nat.le_of_eq size
      simp only [pass, startsFrom, List.append_nil, List.take_of_length_le all]
  | @cons p s c slots first others ih =>
      let recorded := starts.setIfInBounds i ip
      obtain ⟨fits, exact⟩ := fits_passed first recorded ip gained
      let s' := passed s recorded ip gained
      let next := pass (i + 1) (ip + s'.size) (gained + (s.size - s'.size)) recorded slots
      have run : pass i ip gained starts (s :: slots) = (s' :: next.1, next.2.1, next.2.2) := rfl
      have enough : recorded.size = i + 1 + slots.length := by
        rw [Array.size_setIfInBounds, size, List.length_cons]
        omega
      obtain ⟨settled, rest⟩ := ih (i + 1) (ip + s'.size) (gained + (s.size - s'.size)) recorded enough
      rw [run]
      refine ⟨⟨.cons fits settled.fits, .cons exact settled.exact⟩, ?_⟩
      refine rest.trans ?_
      rw [take_recorded ip (by rw [size, List.length_cons]; omega), List.append_assoc]
      rfl

/-- Slots that are settled, with their starts. -/
structure Placed (c : Code ρ) (slots : List Slot) (starts : List Nat) : Prop where
  settled : Settled c slots
  starts : starts = startsFrom 0 slots

theorem length_startsFrom (ip : Nat) (slots : List Slot) :
    (startsFrom ip slots).length = slots.length := by
  induction slots generalizing ip with
  | nil => rfl
  | cons s slots ih => rw [startsFrom, List.length_cons, ih, List.length_cons]

theorem placed_pass {c : Code ρ} {slots : List Slot} (h : List.Forall₂ Fits c slots)
    {starts : Array Nat} (size : starts.size = slots.length) :
    Placed c (pass 0 0 0 starts slots).1 (pass 0 0 0 starts slots).2.1.toList := by
  obtain ⟨settled, recorded⟩ := pass_settles h 0 0 0 starts (by rw [size, Nat.zero_add])
  exact ⟨settled, by rw [recorded, List.take_zero, List.nil_append]⟩

/-- Further passes change nothing about it. -/
theorem placed_settle {c : Code ρ} (n : Nat) {slots : List Slot} {starts : Array Nat}
    (h : Placed c slots starts.toList) :
    Placed c (settle n slots starts).1 (settle n slots starts).2.toList := by
  induction n generalizing slots starts with
  | zero => exact h
  | succ n ih =>
      have size : starts.size = slots.length := by
        rw [← Array.length_toList, h.starts, length_startsFrom]
      have again := placed_pass h.settled.fits size
      simp only [settle]
      split
      · exact again
      · exact ih again

/-- What the layout settles on. At least one pass is made. -/
theorem placed_of_fits {c : Code ρ} {slots : List Slot} (h : List.Forall₂ Fits c slots) :
    Placed c (settle maxPasses slots (startsFrom 0 slots).toArray).1
      (settle maxPasses slots (startsFrom 0 slots).toArray).2.toList := by
  have size : (startsFrom 0 slots).toArray.size = slots.length := length_startsFrom 0 slots
  have first := placed_pass h size
  change Placed c (settle (4 + 1) _ _).1 (settle (4 + 1) _ _).2.toList
  simp only [settle]
  split
  · exact first
  · exact placed_settle 4 first

/-! ### The bytes and the sites -/

/-- The size of slots. -/
def extent : List Slot → Nat
  | [] => 0
  | s :: slots => s.size + extent slots

/-- A start is not behind the end. -/
theorem startsFrom_le {ip : Nat} {slots : List Slot} :
    ∀ start ∈ startsFrom ip slots, start ≤ ip + extent slots := by
  induction slots generalizing ip with
  | nil => exact List.forall_mem_nil _
  | cons s slots ih =>
      refine List.forall_mem_cons.mpr ⟨Nat.le_add_right _ _, fun start member => ?_⟩
      have behind := ih start member
      rw [extent]
      omega

/-- A linked field in code that is laid out. -/
def IsSite (c : Code ρ) (stop : Nat) (site : Nat × ρ) : Prop :=
  ∃ f start, .linked f site.2 ∈ c ∧ site.1 = start + f.offset ∧ start + f.bytes.length ≤ stop

theorem IsSite.widen {c c' : Code ρ} {stop stop' : Nat} {site : Nat × ρ} (h : IsSite c stop site)
    (subset : c ⊆ c') (le : stop ≤ stop') : IsSite c' stop' site := by
  obtain ⟨f, start, member, offset, fits⟩ := h
  exact ⟨f, start, subset member, offset, Nat.le_trans fits le⟩

/-- The elements are as long as their slots, and linked fields lie in them. -/
theorem emit_spec (target : Label → Nat) (c : Code ρ) {slots : List Slot} (ip : Nat)
    (h : List.Forall₂ Exact c.instructions slots) :
    (emit target c slots (startsFrom ip slots)).1.length = extent slots ∧
      ∀ site ∈ (emit target c slots (startsFrom ip slots)).2,
        IsSite c (ip + extent slots) site := by
  induction c generalizing slots ip with
  | nil =>
      cases h
      exact ⟨rfl, List.forall_mem_nil _⟩
  | cons p c ih =>
      cases p with
      | label l =>
          obtain ⟨length, sites⟩ := ih ip h
          exact ⟨length, fun site member =>
            (sites site member).widen (List.subset_cons_self _ _) (Nat.le_refl _)⟩
      | instr i =>
          obtain ⟨s, rest, first, others, rfl⟩ := List.forall₂_cons_left_iff.mp h
          obtain ⟨length, sites⟩ := ih (ip + s.size) others
          simp only [startsFrom, emit, List.length_append, extent, length]
          refine ⟨by rw [first], fun site member => ?_⟩
          exact (sites site member).widen (List.subset_cons_self _ _) (by omega)
      | linked f ref =>
          obtain ⟨s, rest, first, others, rfl⟩ := List.forall₂_cons_left_iff.mp h
          obtain ⟨length, sites⟩ := ih (ip + s.size) others
          simp only [startsFrom, emit, List.length_append, extent, length]
          refine ⟨by rw [first], List.forall_mem_cons.mpr ⟨?_, fun site member => ?_⟩⟩
          · have size : f.bytes.length = s.size := first target ip
            exact ⟨f, ip, .head _, rfl, by omega⟩
          · exact (sites site member).widen (List.subset_cons_self _ _) (by omega)

/-- The slots before any pass. -/
theorem fits_slots (indices : List (Label × Nat)) (c : Code ρ) :
    List.Forall₂ Fits c.instructions (c.filterMap (slot? indices)) := by
  induction c with
  | nil => exact .nil
  | cons p c ih =>
      cases p with
      | label l => exact ih
      | instr i => exact .cons (fits_slot indices rfl) ih
      | linked f ref => exact .cons (fits_slot indices rfl) ih

theorem linked_of_separate {c : Code ρ} {f : Field} {ref : ρ} (h : .linked f ref ∈ c.separate) :
    .linked f ref ∈ c := by
  fun_induction separate c with
  | case1 => exact h
  | case2 => simp at h
  | case3 a b rest ih =>
      simp only [List.mem_cons, reduceCtorEq, false_or] at h
      exact .tail _ (ih h)
  | case4 p rest _ _ ih =>
      rcases List.mem_cons.mp h with rfl | behind
      · exact .head _
      · exact .tail _ (ih behind)

/-- Labels lie in the code, and linked fields in the bytes of their instructions. -/
theorem layout_spec (c : Code ρ) :
    (∀ l offset, c.layout.labelOffset? l = some offset → offset ≤ c.layout.code.length) ∧
      ∀ site ∈ c.layout.sites, IsSite c c.layout.code.length site := by
  let indices := labelIndices 0 c.separate
  let slots := c.separate.filterMap (slot? indices)
  let result := settle maxPasses slots (startsFrom 0 slots).toArray
  let labels := indices.map fun entry => (entry.1, result.2.getD entry.2 0)
  have placed : Placed c.separate.instructions result.1 result.2.toList :=
    placed_of_fits (fits_slots indices c.separate)
  obtain ⟨length, sites⟩ := emit_spec (fun l => (labels.lookup l).getD 0) c.separate 0
    placed.settled.exact
  rw [← placed.starts] at length sites
  have bytes : c.layout.code.length = extent result.1 := length
  refine ⟨fun l offset found => ?_, fun site member => ?_⟩
  · obtain ⟨before, after, split, -⟩ := List.lookup_eq_some_iff.mp found
    have member : (l, offset) ∈ labels := by
      change labels = _ at split
      rw [split]
      exact List.mem_append_right _ (.head _)
    obtain ⟨⟨l', i⟩, -, same⟩ := List.mem_map.mp member
    cases same
    rw [bytes]
    by_cases inRange : i < result.2.size
    · rw [← Array.getElem_eq_getD (h := inRange) 0]
      have start : result.2[i] ∈ startsFrom 0 result.1 := by
        rw [← placed.starts]
        exact Array.getElem_mem_toList inRange
      have le := startsFrom_le _ start
      rwa [Nat.zero_add] at le
    · rw [Array.getD_eq_getD_getElem?, Array.getElem?_eq_none (Nat.le_of_not_lt inRange)]
      exact Nat.zero_le _
  · obtain ⟨f, start, inCode, offset, fits⟩ := sites site member
    refine ⟨f, start, linked_of_separate inCode, offset, ?_⟩
    rwa [bytes, ← Nat.zero_add (extent _)]

end Code
end LiveC
