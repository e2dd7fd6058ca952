import LiveC.Proofs.Evaluation
import LiveC.Proofs.Labels
import LiveC.Proofs.Straight

/-!
What the code of each operator leaves in `rax`: the word that arithmetic on words gives,
in the canonical form of the operator's type. A division that has no result stops.

When a run of generated code meets an evaluation. Where the evaluation has a value, the run
arrives behind the code with that value and the memory of the evaluation; where a division
has no result, the run stops with a fault. Nothing is said about an evaluation that would
touch the memory in which the code keeps its operands.
-/

namespace LiveC
namespace Lowering

/-! ### Conditions -/

theorem ofDifference_zero (signed : Bool) (a b : Word) :
    (Flags.ofDifference a b).zero = (Word.order signed a b).isEq := by
  have difference : a - b = 0 ↔ a = b := by bv_omega
  rw [Bool.eq_iff_iff, Ordering.isEq_iff_eq_eq]
  simp only [Flags.ofDifference, beq_iff_eq, difference]
  cases signed with
  | true => simp [Word.order, BitVec.toInt_inj]
  | false => simp [Word.order, BitVec.toNat_inj]

/-- The signed order of two words shows in the sign and the overflow of their difference. -/
theorem ofDifference_sign (a b : Word) :
    ((Flags.ofDifference a b).sign != (Flags.ofDifference a b).overflow) =
      (Word.order true a b).isLT := by
  have ha := a.toInt_lt
  have hb := b.toInt_lt
  have ha' := a.le_toInt
  have hb' := b.le_toInt
  rw [Bool.eq_iff_iff, Ordering.isLT_iff_eq_lt, Word.order, if_pos rfl, Int.compare_eq_lt]
  simp only [Flags.ofDifference, BitVec.msb_eq_toInt, BitVec.ssubOverflow, BitVec.toInt_sub,
    Int.bmod_def, bne_iff_ne, ne_eq, ← Bool.decide_or, decide_eq_decide]
  omega

theorem ofDifference_carry (a b : Word) :
    (Flags.ofDifference a b).carry = (Word.order false a b).isLT := by
  rw [Bool.eq_iff_iff, Ordering.isLT_iff_eq_lt]
  simp [Flags.ofDifference, Word.order, Nat.compare_eq_lt, BitVec.ult_eq_decide]

/-- The condition that is chosen for a comparison holds if the operands satisfy it. -/
theorem holds_condition (op : CompareOp) (signed : Bool) (a b : Word) :
    (condition op signed).holds (Flags.ofDifference a b) = op.holds (Word.order signed a b) := by
  have equal := ofDifference_zero signed a b
  cases signed with
  | true =>
      have less := ofDifference_sign a b
      revert equal less
      cases op <;> cases Word.order true a b <;>
        simp +contextual [condition, Condition.holds, CompareOp.holds]
  | false =>
      have less := ofDifference_carry a b
      revert equal less
      cases op <;> cases Word.order false a b <;>
        simp +contextual [condition, Condition.holds, CompareOp.holds]

theorem computes_setting (c : Condition) (m : Machine) :
    Computes (setting c .rax) m (Word.ofBool (c.holds m.flags)) := by
  refine ⟨_, rfl, (Machine.Alike.setGp m rfl _).trans (.setGp _ rfl _), ?_⟩
  simp only [Machine.gp_setGp, if_true]
  cases c.holds m.flags <;> simp [IntType.wrap, Width.bits, Width.bytes, Word.ofBool]

theorem computes_comparison (op : CompareOp) (signed : Bool) (m : Machine) :
    Computes (.cmp .rax .rcx :: setting (condition op signed) .rax) m
      (Word.ofBool (op.holds (Word.order signed (m.gp .rax) (m.gp .rcx)))) := by
  obtain ⟨m', run, alike, value⟩ := computes_setting (condition op signed)
    { m with flags := .ofDifference (m.gp .rax) (m.gp .rcx) }
  refine ⟨m', (straight_cons rfl).trans run, (Machine.Alike.setFlags m _).trans alike, ?_⟩
  rw [value, holds_condition]

/-! ### Arithmetic -/

theorem computes_neg (t : IntType) (m : Machine) :
    Computes (.neg .rax :: extension .rax t) m (t.wrap (-m.gp .rax)) :=
  (Computes.single _ rfl).extension t

theorem computes_bitNot (t : IntType) (m : Machine) :
    Computes (.not .rax :: extension .rax t) m (t.wrap (~~~m.gp .rax)) :=
  (Computes.single m.flags rfl).extension t

/-- Operations other than divisions compute what folding does. -/
theorem computes_integerOperation {op : BinaryOp} {t : IntType} {m : Machine} {v : Word}
    (h : op.foldInt? t (m.gp .rax) (m.gp .rcx) = some v) (hd : op ≠ .div) (hr : op ≠ .rem) :
    Computes (integerOperation op t.signed ++ extension .rax t) m v := by
  cases op with
  | add | sub | mul | bitAnd | bitOr | bitXor =>
      obtain rfl := Option.some.inj h
      exact (Computes.single _ rfl).extension t
  | shl =>
      obtain rfl := Option.some.inj h
      exact (Computes.single m.flags rfl).extension t
  | shr =>
      obtain rfl := Option.some.inj h
      refine Computes.extension ?_ t
      cases hs : t.signed with
      | true => exact Computes.single m.flags rfl
      | false => exact Computes.single m.flags rfl
  | div => exact absurd rfl hd
  | rem => exact absurd rfl hr

/-! ### Division -/

theorem toInt_sshiftRight_add (a : Word) :
    (a.sshiftRight 63).toInt * Word.modulus + a.toNat = a.toInt := by
  have lt := a.isLt
  rw [BitVec.toInt_sshiftRight, Int.shiftRight_eq_div_pow, BitVec.toInt_eq_toNat_cond]
  simp only [Word.modulus]
  split <;> omega

/-- A signed quotient is a word unless the least word is divided by -1. -/
theorem tdiv_bounds {a b : Int} (ha : Word.least ≤ a) (ha' : a ≤ Word.greatest) (hb : b ≠ 0) :
    (a.tdiv b < Word.least ∨ Word.greatest < a.tdiv b) ↔ a = Word.least ∧ b = -1 := by
  simp only [Word.least, Word.greatest] at *
  have size := Int.natAbs_tdiv a b
  have hb' : 0 < b.natAbs := Int.natAbs_pos.mpr hb
  constructor
  · intro h
    have large : 2 ^ 63 ≤ (a.tdiv b).natAbs := by omega
    rw [size] at large
    have one : b.natAbs = 1 := by
      refine Nat.le_antisymm (Nat.le_of_not_lt fun two => ?_) hb'
      have half : a.natAbs / b.natAbs ≤ a.natAbs / 2 := Nat.div_le_div_left two (by decide)
      have : a.natAbs.div b.natAbs = a.natAbs / b.natAbs := rfl
      omega
    rcases Int.natAbs_eq b with e | e
    · rw [one] at e
      subst e
      simp at h
      omega
    · rw [one] at e
      subst e
      refine ⟨?_, rfl⟩
      simp at h
      omega
  · rintro ⟨rfl, rfl⟩
    decide

section Division

variable {t : IntType} {a b : Int} {m : Machine}

theorem divideSigned_ofInt (hs : t.signed = true) (ha : t.Represents a) (hb : t.Represents b)
    (rax : m.gp .rax = BitVec.ofInt 64 a) (rdx : m.gp .rdx = (m.gp .rax).sshiftRight 63) :
    m.divideSigned (BitVec.ofInt 64 b) =
      if b ≠ 0 ∧ ¬(a = Word.least ∧ b = -1) then
        .ok ((m.setGp .rax (BitVec.ofInt 64 (a.tdiv b))).setGp .rdx (BitVec.ofInt 64 (a.tmod b)))
      else .error .divide := by
  have lo := (BitVec.ofInt 64 a).le_toInt
  have hi := (BitVec.ofInt 64 a).toInt_lt
  rw [IntType.toInt_ofInt hs ha] at lo hi
  have refused : (BitVec.ofInt 64 b = 0 ∨ a.tdiv b < Word.least) ∨ Word.greatest < a.tdiv b ↔
      ¬(b ≠ 0 ∧ ¬(a = Word.least ∧ b = -1)) := by
    rw [IntType.ofInt_eq_zero hb]
    by_cases hz : b = 0
    · simp [hz]
    · rw [or_assoc, tdiv_bounds lo (Int.le_of_lt_add_one hi) hz]
      simp [hz]
  simp only [Machine.divideSigned, rdx, toInt_sshiftRight_add]
  simp only [rax, IntType.toInt_ofInt hs ha, IntType.toInt_ofInt hs hb, Bool.or_eq_true,
    decide_eq_true_eq, refused, ite_not]

theorem divideUnsigned_ofInt (hs : t.signed = false) (ha : t.Represents a)
    (hb : t.Represents b) (rax : m.gp .rax = BitVec.ofInt 64 a) (rdx : m.gp .rdx = 0) :
    m.divideUnsigned (BitVec.ofInt 64 b) =
      if b ≠ 0 ∧ ¬(a = Word.least ∧ b = -1) then
        .ok ((m.setGp .rax (BitVec.ofInt 64 (a.tdiv b))).setGp .rdx (BitVec.ofInt 64 (a.tmod b)))
      else .error .divide := by
  have quotient : BitVec.ofNat 64 ((BitVec.ofInt 64 a).toNat / (BitVec.ofInt 64 b).toNat) =
      BitVec.ofInt 64 (a.tdiv b) := by
    rw [← BitVec.ofInt_natCast, Int.ofNat_tdiv, IntType.toNat_ofInt hs ha,
      IntType.toNat_ofInt hs hb]
  have remainder : BitVec.ofNat 64 ((BitVec.ofInt 64 a).toNat % (BitVec.ofInt 64 b).toNat) =
      BitVec.ofInt 64 (a.tmod b) := by
    rw [← BitVec.ofInt_natCast, Int.ofNat_tmod, IntType.toNat_ofInt hs ha,
      IntType.toNat_ofInt hs hb]
  have small : ¬Word.modulus ≤ (BitVec.ofInt 64 a).toNat / (BitVec.ofInt 64 b).toNat :=
    Nat.not_le.mpr (Nat.lt_of_le_of_lt (Nat.div_le_self _ _) (BitVec.ofInt 64 a).isLt)
  have least : ¬(a = Word.least ∧ b = -1) := fun e =>
    absurd (e.1 ▸ IntType.nonneg_of_represents hs ha) (by decide)
  have refused : BitVec.ofInt 64 b = 0 ∨
      Word.modulus ≤ (BitVec.ofInt 64 a).toNat / (BitVec.ofInt 64 b).toNat ↔
      ¬(b ≠ 0 ∧ ¬(a = Word.least ∧ b = -1)) := by
    simp only [IntType.ofInt_eq_zero hb, small, least, or_false, not_false_eq_true, and_true,
      ne_eq, Decidable.not_not]
  have upper : (0 : Word).toNat = 0 := rfl
  simp only [Machine.divideUnsigned, rdx, rax, upper, Nat.zero_mul, Nat.zero_add,
    Bool.or_eq_true, decide_eq_true_eq, refused, ite_not, quotient, remainder]

/-- Sets the upper half of the dividend. -/
theorem effect_widen (signed : Bool) (m : Machine) :
    ∃ m', (if signed then Instruction.signExtend else .clear .rdx : Instruction Label).effect m =
        .ok (m', .next) ∧ m.Alike m' ∧ m'.gp .rax = m.gp .rax ∧ m'.gp .rcx = m.gp .rcx ∧
      m'.gp .rdx = if signed then (m.gp .rax).sshiftRight 63 else 0 := by
  cases signed with
  | true => exact ⟨_, rfl, .setGp m rfl _, by simp [Machine.gp_setGp], by simp [Machine.gp_setGp],
      by simp [Machine.gp_setGp]⟩
  | false =>
      have gp (r : Gp) : ({ m.setGp .rdx 0 with flags := .ofResult 0 } : Machine).gp r =
          if r = .rdx then 0 else m.gp r := m.gp_setGp .rdx r 0
      exact ⟨_, rfl, (Machine.Alike.setGp m rfl _).trans (.setFlags _ _), gp _, gp _, gp _⟩

theorem effect_divide (ha : t.Represents a) (hb : t.Represents b)
    (rax : m.gp .rax = BitVec.ofInt 64 a) (rcx : m.gp .rcx = BitVec.ofInt 64 b)
    (rdx : m.gp .rdx = if t.signed then (m.gp .rax).sshiftRight 63 else 0) :
    (Instruction.divide .rcx t.signed : Instruction Label).effect m =
      if b ≠ 0 ∧ ¬(a = Word.least ∧ b = -1) then
        .ok ((m.setGp .rax (BitVec.ofInt 64 (a.tdiv b))).setGp .rdx (BitVec.ofInt 64 (a.tmod b)),
          .next)
      else .error .divide := by
  cases hs : t.signed with
  | true =>
      rw [hs, if_pos rfl] at rdx
      simp only [Instruction.effect, rcx, if_true, divideSigned_ofInt hs ha hb rax rdx]
      split <;> rfl
  | false =>
      rw [hs, if_neg nofun] at rdx
      simp only [Instruction.effect, rcx, Bool.false_eq_true, if_false,
        divideUnsigned_ofInt hs ha hb rax rdx]
      split <;> rfl

theorem straight_divide (ha : t.Represents a) (hb : t.Represents b)
    (rax : m.gp .rax = BitVec.ofInt 64 a) (rcx : m.gp .rcx = BitVec.ofInt 64 b)
    (hd : b ≠ 0 ∧ ¬(a = Word.least ∧ b = -1)) :
    ∃ m', straight (integerOperation .div t.signed) m = .ok m' ∧ m.Alike m' ∧
      m'.gp .rax = BitVec.ofInt 64 (a.tdiv b) ∧ m'.gp .rdx = BitVec.ofInt 64 (a.tmod b) := by
  obtain ⟨m₁, widen, alike, rax₁, rcx₁, rdx₁⟩ := effect_widen t.signed m
  have divide := effect_divide ha hb (rax₁.trans rax) (rcx₁.trans rcx) (rax₁.symm ▸ rdx₁)
  rw [if_pos hd] at divide
  refine ⟨_, (straight_cons widen).trans (straight_cons divide), ?_, ?_, ?_⟩
  · exact (alike.trans (.setGp m₁ rfl _)).trans (.setGp _ rfl _)
  · rw [Machine.gp_setGp, if_neg (by decide), Machine.gp_setGp, if_pos rfl]
  · rw [Machine.gp_setGp, if_pos rfl]

theorem straight_divide_refused (ha : t.Represents a) (hb : t.Represents b)
    (rax : m.gp .rax = BitVec.ofInt 64 a) (rcx : m.gp .rcx = BitVec.ofInt 64 b)
    (hd : ¬(b ≠ 0 ∧ ¬(a = Word.least ∧ b = -1))) :
    straight (integerOperation .div t.signed) m = .error (.fault .divide) := by
  obtain ⟨m₁, widen, _, rax₁, rcx₁, rdx₁⟩ := effect_widen t.signed m
  have divide := effect_divide ha hb (rax₁.trans rax) (rcx₁.trans rcx) (rax₁.symm ▸ rdx₁)
  rw [if_neg hd] at divide
  refine (straight_cons widen).trans ?_
  simp only [straight, divide]

/-- An integer operation computes the reduced result, or stops if there is none. -/
theorem integerOperation_apply (op : BinaryOp) (ha : t.Represents a)
    (hb : t.Represents b ∨ op = .add ∨ op = .sub) (rax : m.gp .rax = BitVec.ofInt 64 a)
    (rcx : m.gp .rcx = BitVec.ofInt 64 b) :
    match op.apply a b with
    | .ok r => Computes (integerOperation op t.signed ++ extension .rax t) m
        (BitVec.ofInt 64 (t.reduce r))
    | .error u => u = .division ∧
        straight (integerOperation op t.signed ++ extension .rax t) m =
          .error (.fault .divide) := by
  have other (hd : op ≠ .div) (hr : op ≠ .rem) {r : Int} (h : op.apply a b = .ok r) :
      Computes (integerOperation op t.signed ++ extension .rax t) m
        (BitVec.ofInt 64 (t.reduce r)) := by
    refine computes_integerOperation ?_ hd hr
    rw [rax, rcx]
    exact BinaryOp.foldInt?_ofInt ha hb h
  cases op with
  | add | sub | mul | shl | shr | bitAnd | bitOr | bitXor => exact other nofun nofun rfl
  | div =>
      have hb : t.Represents b := by simpa using hb
      by_cases hd : b ≠ 0 ∧ ¬(a = Word.least ∧ b = -1)
      · obtain ⟨m', run, alike, value, _⟩ := straight_divide ha hb rax rcx hd
        simp only [BinaryOp.apply, if_pos hd, ← IntType.wrap_ofInt]
        exact Computes.extension ⟨m', run, alike, value⟩ t
      · simp only [BinaryOp.apply, if_neg hd]
        exact ⟨trivial, straight_append_error (straight_divide_refused ha hb rax rcx hd)⟩
  | rem =>
      have hb : t.Represents b := by simpa using hb
      by_cases hd : b ≠ 0 ∧ ¬(a = Word.least ∧ b = -1)
      · obtain ⟨m', run, alike, _, value⟩ := straight_divide ha hb rax rcx hd
        simp only [BinaryOp.apply, if_pos hd, ← IntType.wrap_ofInt]
        refine Computes.extension
          ⟨m'.setGp .rax (m'.gp .rdx), ?_, alike.trans (.setGp _ rfl _), ?_⟩ t
        · exact (straight_append run).trans (straight_cons rfl)
        · rw [Machine.gp_setGp, if_pos rfl, value]
      · simp only [BinaryOp.apply, if_neg hd]
        refine ⟨trivial, straight_append_error ?_⟩
        exact straight_append_error (straight_divide_refused ha hb rax rcx hd)

end Division

end Lowering
end LiveC

/-! ## Runs that meet evaluations -/

namespace LiveC
namespace Lowering

variable {link : CodeTarget → Word} {program : UnitCode} {α β : Type}

def Meets (link : CodeTarget → Word) (program : UnitCode) (x : Evaluation α) (memory : Memory)
    (p : Point (Piece Reference)) (rest : UnitCode) (Q : α → Memory → Machine → Prop) : Prop :=
  match x memory with
  | .ok (a, memory') => ∃ m, (unitCode link).Reaches program p ⟨rest, m⟩ ∧ Q a memory' m
  | .error .division => (unitCode link).Halts program p (.fault .divide)
  | .error .access => True
  | .error .unsupported => False

namespace Meets

variable {x : Evaluation α} {f : α → Evaluation β} {memory : Memory}
  {p q : Point (Piece Reference)} {mid rest : UnitCode} {Q R : α → Memory → Machine → Prop}
  {S : β → Memory → Machine → Prop}

theorem pure {a : α} {m : Machine} (h : (unitCode link).Reaches program p ⟨rest, m⟩)
    (hq : Q a memory m) : Meets link program (Pure.pure a) memory p rest Q := ⟨m, h, hq⟩

theorem of_reaches (h : (unitCode link).Reaches program p q)
    (hq : Meets link program x memory q rest Q) : Meets link program x memory p rest Q := by
  unfold Meets at *
  split at hq
  · obtain ⟨m, hm, post⟩ := hq
    exact ⟨m, h.trans hm, post⟩
  · exact .of_reaches h hq
  · trivial
  · exact hq

theorem bind (h : Meets link program x memory p mid Q)
    (hf : ∀ a memory' m, x memory = .ok (a, memory') → Q a memory' m →
      Meets link program (f a) memory' ⟨mid, m⟩ rest S) :
    Meets link program (x >>= f) memory p rest S := by
  unfold Meets at h
  cases hx : x memory with
  | ok r =>
      obtain ⟨a, memory'⟩ := r
      rw [hx] at h
      obtain ⟨m, hm, hq⟩ := h
      have run : (x >>= f) memory = f a memory' := by
        simp only [Bind.bind, StateT.bind, hx, Except.bind]
      have next := of_reaches hm (hf a memory' m hx hq)
      unfold Meets at *
      rwa [run]
  | error u =>
      have run : (x >>= f) memory = .error u := by
        simp only [Bind.bind, StateT.bind, hx, Except.bind]
      rw [hx] at h
      unfold Meets
      rw [run]
      cases u with
      | division | access | unsupported => exact h

/-- The run goes on behind the evaluation. -/
theorem run_on (h : Meets link program x memory p mid Q)
    (hq : ∀ a memory' m, Q a memory' m →
      ∃ m', (unitCode link).Reaches program ⟨mid, m⟩ ⟨rest, m'⟩ ∧ R a memory' m') :
    Meets link program x memory p rest R := by
  unfold Meets at *
  split at h
  case h_1 a memory' hx =>
    obtain ⟨m, hm, post⟩ := h
    obtain ⟨m', run, post'⟩ := hq a memory' m post
    exact ⟨m', hm.trans run, post'⟩
  all_goals exact h

theorem mono (h : Meets link program x memory p rest Q)
    (hq : ∀ a memory' m, Q a memory' m → R a memory' m) :
    Meets link program x memory p rest R :=
  h.run_on fun a memory' m post => ⟨m, .refl _, hq a memory' m post⟩

/-- An evaluation that does nothing to the machine. -/
theorem bind_pure {a : α} (h : Meets link program (f a) memory p rest S) :
    Meets link program (Pure.pure a >>= f) memory p rest S := h

/-- The result of an operation on integers. -/
theorem lift_bind {r : Except Undefined α}
    (fault : r = .error .division → (unitCode link).Halts program p (.fault .divide))
    (supported : ∀ u, r = .error u → u = .division)
    (h : ∀ a, r = .ok a → Meets link program (f a) memory p rest S) :
    Meets link program ((liftM r : Evaluation α) >>= f) memory p rest S := by
  cases r with
  | ok a => exact h a rfl
  | error u =>
      obtain rfl := supported u rfl
      exact fault rfl

end Meets

/-! ### Objects -/

/-- Where the code of a context finds its objects when it is run on a machine, and the room
below the stack pointer. -/
def Context.surroundings (c : Context) (link : CodeTarget → Word) (start : Machine) (room : Nat) :
    Surroundings where
  varAt id := start.gp .rbp + ((c.offsets[id]?).getD 0).signExtend 64
  globalAt name := link (c.layout.target name)
  stringAt id := ((c.layout.strings[id]?).map fun p => link (.place p.1 p.2)).getD 0
  reserved a := below (start.gp .rsp) a < room

/-- The code has left a value in `rax`, unless the type is void, and the pushed words are
as they were. -/
structure Leaves (start : Machine) (room : Nat) (stack : List Word) (ty : CType) (v : Int)
    (memory : Memory) (m : Machine) : Prop where
  amid : Amid start room stack memory m
  rax : ty.isVoid = false → m.gp .rax = BitVec.ofInt 64 v
  represents : ty.isVoid = false → (machineInt ty).Represents v

variable {c : Context} {start m : Machine} {room : Nat} {stack : List Word} {memory : Memory}
  {rest : UnitCode}

theorem access_meets {a : Word} {n : Nat} {f : Unit → Evaluation α}
    {p : Point (Piece Reference)} {Q : α → Memory → Machine → Prop}
    (h : (∀ i < n, room ≤ below (start.gp .rsp) (a + BitVec.ofNat 64 i)) →
      Meets link program (f ()) memory p rest Q) :
    Meets link program ((c.surroundings link start room).access a n >>= f) memory p rest Q := by
  unfold Surroundings.access
  split
  case isTrue => trivial
  case isFalse free =>
    refine Meets.bind_pure (h fun i hi => Nat.le_of_not_lt fun lt => free ?_)
    exact List.any_eq_true.mpr ⟨i, List.mem_range.mpr hi, decide_eq_true lt⟩

theorem wrap_load (h : Amid start room stack memory m) {t : IntType} {a : Address}
    (outside : ∀ i < t.size, room ≤ below (start.gp .rsp) (m.locate a + BitVec.ofNat 64 i)) :
    t.wrap (m.load a t.width) =
      BitVec.ofInt 64 (t.reduce ((memory.load (m.locate a) t.size).toNat : Int)) := by
  rw [← IntType.wrap_ofInt, ofInt_toNat, Machine.load]
  congr 1
  exact h.load outside

/-- What a load leaves: the value, and all registers but `rax` as they were. -/
def Loaded (start : Machine) (room : Nat) (stack : List Word) (memory : Memory) (before : Machine)
    (ty : CType) (v : Int) (memory' : Memory) (m : Machine) : Prop :=
  memory' = memory ∧ Leaves start room stack ty v memory m ∧ ∀ r, r ≠ .rax → m.gp r = before.gp r

theorem loaded (h : Amid start room stack memory m) {ty : CType} {v : Int}
    (hv : (machineInt ty).Represents v) :
    Loaded start room stack memory m ty v memory (m.setGp .rax (BitVec.ofInt 64 v)) := by
  refine ⟨rfl, ⟨h.setGp rfl _, fun _ => ?_, fun _ => hv⟩, fun r hr => ?_⟩
  · rw [Machine.gp_setGp, if_pos rfl]
  · rw [Machine.gp_setGp, if_neg hr]

theorem readInt_meets (h : Amid start room stack memory m) (ty : CType) {t : IntType}
    (ht : machineInt ty = t) {a : Address} :
    Meets link program ((c.surroundings link start room).readInt t (m.locate a)) memory
      ⟨block [.load .rax a t.width t.signed] ++ rest, m⟩ rest
      (Loaded start room stack memory m ty) := by
  refine access_meets fun outside => ?_
  refine Meets.pure (reaches_block (straight_cons rfl)) ?_
  rw [wrap_load h outside]
  exact loaded h (ht ▸ t.represents_reduce _)

theorem represents_toNat (v : Word) : IntType.ulong.Represents v.toNat := by
  have lt := v.isLt
  simp only [IntType.Represents, IntType.ulong, Width.bits, Width.bytes, Bool.false_eq_true,
    if_false]
  omega

theorem locate_rax (m : Machine) : m.locate ⟨.rax, 0⟩ = m.gp .rax := by
  simp [Machine.locate]

/-- The address of an array or function is its value. -/
theorem locate_meets (h : Amid start room stack memory m) {ty : CType}
    (ht : machineInt ty = .ulong) (a : Address) :
    Meets link program (pure ((m.locate a).toNat : Int)) memory
      ⟨(if a = ⟨.rax, 0⟩ then [] else block [.lea .rax a]) ++ rest, m⟩ rest
      (Loaded start room stack memory m ty) := by
  have value := loaded h (ht ▸ represents_toNat (m.locate a))
  rw [ofInt_toNat] at value
  split
  case isTrue ha =>
    subst ha
    rw [locate_rax, setGp_gp] at value
    rw [locate_rax]
    exact Meets.pure (.refl _) value
  case isFalse => exact Meets.pure (reaches_block (straight_cons rfl)) value

theorem read_meets (h : Amid start room stack memory m) {ty : CType} (hd : ty.isDouble = false)
    (a : Address) :
    Meets link program ((c.surroundings link start room).read ty (m.locate a)) memory
      ⟨loadValue ty a ++ rest, m⟩ rest (Loaded start room stack memory m ty) := by
  cases ty with
  | double => cases hd
  | void => exact Meets.pure (.refl _) ⟨rfl, ⟨h, nofun, nofun⟩, fun _ _ => rfl⟩
  | int t => exact readInt_meets h (.int t) rfl
  | pointer t => exact readInt_meets h (.pointer t) rfl
  | array | function => exact locate_meets h rfl a

theorem writeInt_meets (h : Amid start room stack memory m) {t : IntType} {a : Address}
    {v : Int} (rax : m.gp .rax = BitVec.ofInt 64 v) :
    Meets link program (do
        (c.surroundings link start room).access (m.locate a) t.size
        modify (·.store (m.locate a) t.size (BitVec.ofInt 64 v)))
      memory ⟨block [.store a .rax t.width] ++ rest, m⟩ rest fun _ memory' m' =>
        Amid start room stack memory' m' ∧ ∀ r, m'.gp r = m.gp r := by
  refine access_meets fun outside => ?_
  refine ⟨_, reaches_block (straight_cons rfl), ?_, fun r => rfl⟩
  rw [rax]
  exact h.store _ outside

theorem write_meets (h : Amid start room stack memory m) {ty : CType} {a : Address} {v : Int}
    (rax : m.gp .rax = BitVec.ofInt 64 v) {n n' : Label} {code : UnitCode}
    (hs : storeValue ty a n = .ok (code, n')) (hd : ty.isDouble = false) :
    Meets link program ((c.surroundings link start room).write ty (m.locate a) v) memory
      ⟨code ++ rest, m⟩ rest fun _ memory' m' =>
        Amid start room stack memory' m' ∧ ∀ r, m'.gp r = m.gp r := by
  cases ty with
  | double => cases hd
  | void | array | function => exact absurd hs throw_ne_ok
  | int t =>
      obtain ⟨rfl, _⟩ := pure_eq_ok.mp hs
      exact writeInt_meets h rax
  | pointer t =>
      obtain ⟨rfl, _⟩ := pure_eq_ok.mp hs
      exact writeInt_meets h (t := .ulong) rax

end Lowering
end LiveC
