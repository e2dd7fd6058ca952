import LiveC.Proofs.DoubleValues
import LiveC.Proofs.Labels
import LiveC.Typing.Convert

/-!
Conversions of doubles to integer types, where a literal is folded and where code is generated.
Both go through signed words, so both are exact for the integral parts that are signed words, and
only `unsigned long` has others: there a literal stops at the greatest signed word, and the
instruction gives the least one. A word that is the value of some double comes back from it by the
same account, since the conversion to doubles is exact for all of them.
-/

namespace LiveC

/-! ### Integral parts as words -/

namespace IntType

theorem represents_lt {t : IntType} {z : Int} (h : t.Represents z) : -2 ^ 63 ≤ z ∧ z < 2 ^ 64 := by
  obtain ⟨w, s⟩ := t
  revert h
  cases w <;> cases s <;> simp [Represents, Width.bits, Width.bytes] <;> omega

/-- Only `unsigned long` goes beyond the signed words. -/
theorem eq_ulong_of_represents {t : IntType} {z : Int} (h : t.Represents z) (large : 2 ^ 63 ≤ z) :
    t = .ulong := by
  obtain ⟨w, s⟩ := t
  revert h
  cases w <;> cases s <;> simp [Represents, Width.bits, Width.bytes, ulong] <;> omega

theorem wrap_of_represents {t : IntType} {z : Int} (h : t.Represents z) :
    t.wrap (BitVec.ofInt 64 z) = BitVec.ofInt 64 z := by
  rw [wrap_ofInt, reduce_of_represents h]

theorem represents_min {t : IntType} {z b : Int} (h : t.Represents z) (large : 2 ^ 63 - 1 ≤ b) :
    t.Represents (min z b) := by
  rcases Int.le_total z b with below | beyond
  · rwa [min_eq_left below]
  · rcases eq_or_lt_of_le beyond with rfl | beyond
    · rwa [min_self]
    · obtain rfl := eq_ulong_of_represents h (by omega)
      obtain ⟨-, lt⟩ : 0 ≤ z ∧ z < 2 ^ 64 := h
      rw [min_eq_right (by omega)]
      exact ⟨by omega, Int.lt_trans beyond lt⟩

end IntType

namespace Double

variable {d : Double} {t : IntType}

/-- Folding stops at the greatest signed word. -/
theorem wrap_toIntSaturating (finite : d.IsFinite) (h : t.Represents (towardZero d.value)) :
    t.wrap d.toIntSaturating = BitVec.ofInt 64 (min (towardZero d.value) (2 ^ 63 - 1)) := by
  have bounds := IntType.represents_lt h
  have clamped : max Word.least (min Word.greatest (towardZero d.value)) =
      min (towardZero d.value) (2 ^ 63 - 1) := by
    unfold Word.least Word.greatest
    omega
  rw [toIntSaturating, finite.isNaN, finite.isInfinite, if_neg Bool.false_ne_true,
    if_neg Bool.false_ne_true, truncate_eq, clamped]
  exact IntType.wrap_of_represents (IntType.represents_min h (by decide))

/-- The instruction gives the least signed word, which has the bits of `2 ^ 63`. -/
theorem wrap_toIntOrMin (finite : d.IsFinite) (h : t.Represents (towardZero d.value)) :
    t.wrap d.toIntOrMin = BitVec.ofInt 64 (min (towardZero d.value) (2 ^ 63)) := by
  have bounds := IntType.represents_lt h
  rw [toIntOrMin, finite.isNaN, finite.isInfinite, truncate_eq]
  by_cases small : towardZero d.value < 2 ^ 63
  · have fits : Word.least ≤ towardZero d.value ∧ towardZero d.value ≤ Word.greatest := by
      unfold Word.least Word.greatest
      omega
    simp only [fits, and_self, decide_true, Bool.not_false, Bool.and_self, if_true]
    rw [min_eq_left (by omega), IntType.wrap_of_represents h]
  · have beyond : ¬(Word.least ≤ towardZero d.value ∧ towardZero d.value ≤ Word.greatest) := by
      unfold Word.least Word.greatest
      omega
    obtain rfl := IntType.eq_ulong_of_represents h (by omega)
    simp only [beyond, decide_false, Bool.and_false, Bool.false_eq_true, if_false]
    rw [min_eq_right (by omega)]
    decide

theorem value_wrap_toIntSaturating (finite : d.IsFinite)
    (h : t.Represents (towardZero d.value)) :
    t.value (t.wrap d.toIntSaturating) = min (towardZero d.value) (2 ^ 63 - 1) := by
  rw [wrap_toIntSaturating finite h, IntType.value_ofInt (IntType.represents_min h (by decide))]

theorem value_wrap_toIntOrMin (finite : d.IsFinite)
    (h : t.Represents (towardZero d.value)) :
    t.value (t.wrap d.toIntOrMin) = min (towardZero d.value) (2 ^ 63) := by
  rw [wrap_toIntOrMin finite h, IntType.value_ofInt (IntType.represents_min h (by decide))]

end Double

/-! ### Generated code -/

namespace Lowering

/-- Wherever the generated code is placed behind older labels, a run leads from the machine
through it, to a machine with the property. -/
def Leads (generate : Lowering UnitCode) (start : Machine) (P : Machine → Prop) : Prop :=
  ∀ n, ∃ code n', generate n = .ok (code, n') ∧
    ∀ (link : CodeTarget → Word) (before rest : UnitCode), (∀ l ∈ before.labels, l < n) →
      ∃ m, (unitCode link).Reaches (before ++ (code ++ rest)) ⟨code ++ rest, start⟩ ⟨rest, m⟩ ∧ P m

theorem Leads.mono {generate : Lowering UnitCode} {start : Machine} {P Q : Machine → Prop}
    (h : Leads generate start P) (imp : ∀ m, P m → Q m) : Leads generate start Q := fun n =>
  let ⟨code, n', lowered, run⟩ := h n
  ⟨code, n', lowered, fun link before rest fresh =>
    let ⟨m, through, holds⟩ := run link before rest fresh
    ⟨m, through, imp m holds⟩⟩

theorem Leads.append {generate generate' : Lowering UnitCode} {start : Machine}
    {P Q : Machine → Prop} (h : Leads generate start P)
    (allotted : ∀ n code n', generate n = .ok (code, n') → Allotted n code n')
    (next : ∀ m, P m → Leads generate' m Q) :
    Leads (do return (← generate) ++ (← generate')) start Q := by
  intro n
  obtain ⟨code, n', lowered, run⟩ := h n
  obtain ⟨m₀, -, holds₀⟩ := run (fun _ => 0) [] [] (List.forall_mem_nil _)
  obtain ⟨code', n'', lowered', -⟩ := next m₀ holds₀ n'
  refine ⟨code ++ code', n'', ?_, fun link before rest fresh => ?_⟩
  · simp only [bind_eq_ok, pure_eq_ok]
    exact ⟨code, n', lowered, code', n'', lowered', rfl, rfl⟩
  · obtain ⟨m, through, holds⟩ := run link before (code' ++ rest) fresh
    obtain ⟨code₁, n₁, lowered₁, run'⟩ := next m holds n'
    cases lowered'.symm.trans lowered₁
    have made := allotted n code n' lowered
    have fresh' : ∀ l ∈ Code.labels (before ++ code), l < n' := fun l member => by
      rcases List.mem_append.mp (Code.labels_append before code ▸ member) with old | new
      · exact Nat.lt_of_lt_of_le (fresh l old) made.1
      · exact (made.between new).2
    obtain ⟨m', through', holds'⟩ := run' link (before ++ code) rest fresh'
    simp only [List.append_assoc] at through through' ⊢
    exact ⟨m', through.trans through', holds'⟩

theorem leads_doubleToInt (t : IntType) (m : Machine) :
    Leads (conversion .double (.int t)) m fun m' =>
      m.Alike m' ∧ m'.gp .rax = t.wrap (m.xmm .xmm0).toIntOrMin := by
  intro n
  refine ⟨_, n, rfl, fun link before rest _ => ?_⟩
  have converted : Computes [.doubleToInt .rax .xmm0] m (m.xmm .xmm0).toIntOrMin :=
    .single m.flags rfl
  obtain ⟨m', run, alike, rax⟩ := converted.extension t
  exact ⟨m', reaches_block run, alike, rax⟩

/-- A word with the top bit set goes through its half. -/
theorem straight_halving (m : Machine) :
    ∃ m', straight [.mov .rcx .rax, .shiftImm .shr .rcx 1, .aluImm .and .rax 1, .alu .or .rcx .rax,
        .intToDouble .xmm0 .rcx, .sse .add .xmm0 .xmm0] m = .ok m' ∧
      let half := Double.ofInt ((m.gp .rax >>> 1) ||| (m.gp .rax &&& 1))
      m'.xmm .xmm0 = .add half half := by
  let moved := m.setGp .rcx (m.gp .rax)
  let shifted := moved.setGp .rcx (moved.gp .rcx >>> 1)
  let masked := shifted.alu .and .rax 1
  let joined := masked.alu .or .rcx (masked.gp .rax)
  let converted := joined.setXmm .xmm0 (.ofInt (joined.gp .rcx))
  have rcx : joined.gp .rcx = (m.gp .rax >>> 1) ||| (m.gp .rax &&& 1) := by
    simp [joined, masked, shifted, moved, Machine.gp_alu, Machine.gp_setGp, AluOp.apply]
  have integers : straight [.mov .rcx .rax, .shiftImm .shr .rcx 1, .aluImm .and .rax 1,
      .alu .or .rcx .rax] m = .ok joined := rfl
  refine ⟨converted.setXmm .xmm0 (.add (converted.xmm .xmm0) (converted.xmm .xmm0)),
    (straight_append integers).trans rfl, ?_⟩
  rw [Machine.xmm_setXmm, if_pos rfl, Machine.xmm_setXmm, if_pos rfl, rcx]

theorem reaches_doubleOfUnsigned {link : CodeTarget → Word} {program rest : UnitCode}
    {big done : Label} {m : Machine}
    (placed : (unitCode link).Placed program (doubleOfUnsigned big done) rest)
    (h : Double.Represented (m.gp .rax).toNat) :
    ∃ m', (unitCode link).Reaches program ⟨doubleOfUnsigned big done ++ rest, m⟩ ⟨rest, m'⟩ ∧
      m'.xmm .xmm0 = .ofNat (m.gp .rax) := by
  unfold doubleOfUnsigned at placed ⊢
  obtain ⟨⟨⟨-, toBig, -⟩, -⟩, toDone, -⟩ := by
    simpa only [Language.placed_append] using placed
  replace toBig := toBig big rfl
  replace toDone := toDone done rfl
  simp only [List.append_assoc]
  let tested : Machine := { m with flags := .ofResult (m.gp .rax &&& m.gp .rax) }
  have test : (unitCode link).effect (.instr (.test .rax .rax)) m = .ok (tested, .next) := rfl
  have sign : Condition.sign.holds tested.flags = decide (2 ^ 63 ≤ (m.gp .rax).toNat) := by
    change (m.gp .rax &&& m.gp .rax).msb = _
    rw [BitVec.and_self, BitVec.msb_eq_decide]
  have toEnd (d : Machine) : (unitCode link).Reaches program
      ⟨[.label done] ++ rest, d⟩ ⟨rest, d⟩ := Language.reaches_next rfl
  by_cases large : 2 ^ 63 ≤ (m.gp .rax).toNat
  · have jump : (unitCode link).effect (.instr (.jcc .sign big)) tested =
        .ok (tested, .branch big) := by
      change Except.ok (tested, if _ then _ else _) = _
      rw [sign, decide_eq_true large, if_pos rfl]
    obtain ⟨m', halved, xmm⟩ := straight_halving tested
    refine ⟨m', (((Language.reaches_next test).trans (Language.reaches_branch jump toBig)).trans
      ((Language.reaches_next rfl).trans (reaches_block halved))).trans (toEnd _), ?_⟩
    exact xmm.trans (h.add_self_half large)
  · have stay : (unitCode link).effect (.instr (.jcc .sign big)) tested = .ok (tested, .next) := by
      change Except.ok (tested, if _ then _ else _) = _
      rw [sign, decide_eq_false large, if_neg Bool.false_ne_true]
    have jump (m' : Machine) :
        (unitCode link).effect (.instr (.jmp done)) m' = .ok (m', .branch done) := rfl
    refine ⟨tested.setXmm .xmm0 (.ofInt (m.gp .rax)), (((Language.reaches_next test).trans
      (Language.reaches_next stay)).trans ((Language.reaches_next rfl).trans
      (Language.reaches_branch (jump _) toDone))).trans (toEnd _), ?_⟩
    rw [Machine.xmm_setXmm, if_pos rfl, Double.ofInt_eq_ofNat (Nat.not_le.mp large)]

theorem leads_doubleOfUnsigned {m : Machine}
    (h : Double.Represented (m.gp .rax).toNat) :
    Leads (conversion (.int .ulong) .double) m fun m' => m'.xmm .xmm0 = .ofNat (m.gp .rax) := by
  intro n
  have lowered : conversion (.int .ulong) .double n = .ok (doubleOfUnsigned n (n + 1), n + 1 + 1) :=
    rfl
  refine ⟨_, _, lowered, fun link before rest fresh => reaches_doubleOfUnsigned ?_ h⟩
  have labels := conversion_allotted lowered
  refine Language.placed_of_nodup (labels_unitCode link _ ▸ labels.nodup) fun l hl hb => ?_
  rw [labels_unitCode] at hl hb
  exact absurd (fresh l hb) (Nat.not_lt.mpr (labels.between hl).1)

/-- A conversion to a double and back. -/
def toDoubleAndBack (t : IntType) : Lowering UnitCode := do
  return (← conversion (.int t) .double) ++ (← conversion .double (.int t))

end Lowering

/-! ### Folding and code -/

/-- The words that a double is converted to, where it is a literal and where it is in `xmm0`. -/
structure Double.ConvertsTo (d : Double) (t : IntType) (folded generated : Word) : Prop where
  literal : ∀ n : Note, n.ty = .double →
    (Expr.float n d).convert (.int t) = .int ⟨.int t, n.loc⟩ folded
  code : ∀ start : Machine, start.xmm .xmm0 = d →
    Lowering.Leads (Lowering.conversion .double (.int t)) start fun m =>
      start.Alike m ∧ m.gp .rax = generated

/-- The words that an `unsigned long` comes back as from a double, as a literal and in `rax`. -/
structure Word.ComesBackAs (w folded generated : Word) : Prop where
  literal : ∀ n : Note, n.ty = .int .ulong →
    ((Expr.int n w).convert .double).convert (.int .ulong) = .int ⟨.int .ulong, n.loc⟩ folded
  code : ∀ start : Machine, start.gp .rax = w →
    Lowering.Leads (Lowering.toDoubleAndBack .ulong) start fun m => m.gp .rax = generated

theorem Double.convertsTo (d : Double) (t : IntType) :
    d.ConvertsTo t (t.wrap d.toIntSaturating) (t.wrap d.toIntOrMin) where
  literal n ty := by
    have differs : (Expr.float n d).ty ≠ .int t := by
      rw [show (Expr.float n d).ty = n.ty from rfl, ty]
      nofun
    rw [Expr.convert, if_neg differs]
    rfl
  code start xmm := xmm ▸ Lowering.leads_doubleToInt t start

theorem Word.comesBackAs {w : Word} (h : Double.Represented w.toNat) :
    Word.ComesBackAs w (IntType.ulong.wrap (Double.ofNat w).toIntSaturating)
      (IntType.ulong.wrap (Double.ofNat w).toIntOrMin) where
  literal n ty := by
    have differs : (Expr.int n w).ty ≠ .double := by
      rw [show (Expr.int n w).ty = n.ty from rfl, ty]
      nofun
    have unsigned : (Expr.int n w).convert .double = .float ⟨.double, n.loc⟩ (.ofNat w) := by
      rw [Expr.convert, if_neg differs]
      simp only [ty]
      rfl
    rw [unsigned]
    exact ((Double.ofNat w).convertsTo .ulong).literal _ rfl
  code start rax := by
    subst rax
    refine (Lowering.leads_doubleOfUnsigned h).append
      (fun n code n' => Lowering.conversion_allotted) fun m xmm => ?_
    exact xmm ▸ (Lowering.leads_doubleToInt .ulong m).mono fun _ h => h.2

/-- A double converts to the integer type that its integral part is in, exactly below `2 ^ 63`:
a literal stops at `2 ^ 63 - 1`, and generated code has no number above `2 ^ 63`. An `unsigned
long` that is the value of some double comes back from it likewise. -/
theorem doubles_convert (d : Double) (t : IntType) (w : Word) :
    (d.IsFinite → t.Represents (towardZero d.value) →
      ∃ folded generated, d.ConvertsTo t folded generated ∧
        (t.value folded = towardZero d.value ↔ towardZero d.value < 2 ^ 63) ∧
        (t.value generated = towardZero d.value ↔ towardZero d.value ≤ 2 ^ 63) ∧
        (folded = generated ↔ towardZero d.value < 2 ^ 63) ∧
        (t ≠ .ulong → towardZero d.value < 2 ^ 63)) ∧
    (Double.Represented w.toNat →
      ∃ folded generated, w.ComesBackAs folded generated ∧
        (folded = w ↔ w.toNat < 2 ^ 63) ∧ (generated = w ↔ w.toNat ≤ 2 ^ 63)) := by
  have same {t : IntType} {v w : Word} : v = w ↔ t.value v = t.value w :=
    ⟨congrArg t.value, fun h => by rw [← IntType.ofInt_value t v, h, IntType.ofInt_value]⟩
  refine ⟨fun finite h => ⟨_, _, d.convertsTo t, ?_⟩, fun h => ⟨_, _, Word.comesBackAs h, ?_⟩⟩
  · have bounds := IntType.represents_lt h
    rw [same (t := t), Double.value_wrap_toIntSaturating finite h,
      Double.value_wrap_toIntOrMin finite h]
    refine ⟨by omega, by omega, by omega, fun other => ?_⟩
    by_contra large
    exact other (IntType.eq_ulong_of_represents h (by omega))
  · obtain ⟨finite, value⟩ := h.ofNat_value
    have number : towardZero (Double.ofNat w).value = w.toNat := by
      rw [value, towardZero_natCast]
    have inside : IntType.ulong.Represents (towardZero (Double.ofNat w).value) := by
      rw [number]
      exact ⟨Int.natCast_nonneg _, by exact_mod_cast w.isLt⟩
    have self : IntType.ulong.value w = w.toNat := rfl
    rw [same (t := .ulong), same (t := .ulong), Double.value_wrap_toIntSaturating finite inside,
      Double.value_wrap_toIntOrMin finite inside, number, self]
    omega

/-- -128.5 is converted to `char`, and the greatest double below `2 ^ 63` comes back. -/
theorem doubles_convert_halfBelow :
    let d : Double := ⟨0xC060100000000000⟩
    let w : Word := 0x7FFFFFFFFFFFFC00
    (d.IsFinite ∧ IntType.char.Represents (towardZero d.value) ∧
      ∃ folded generated, d.ConvertsTo .char folded generated ∧
        IntType.char.value folded = -128 ∧ folded = generated) ∧
    Double.Represented w.toNat ∧
      ∃ folded generated, w.ComesBackAs folded generated ∧ folded = w ∧ generated = w := by
  intro d w
  have integral : towardZero d.value = -128 := by
    rw [← Double.truncate_eq]
    decide
  have finite : d.IsFinite := by decide
  have inside : IntType.char.Represents (towardZero d.value) := by
    rw [integral]
    decide
  have representable : Double.Represented w.toNat := by
    refine ⟨⟨0x43DFFFFFFFFFFFFF⟩, by decide, ?_⟩
    have significand : Double.significand ⟨0x43DFFFFFFFFFFFFF⟩ = 2 ^ 53 - 1 := by decide
    have exponent : Double.exponent ⟨0x43DFFFFFFFFFFFFF⟩ = 10 := by decide
    have sign : Double.isNegative ⟨0x43DFFFFFFFFFFFFF⟩ = false := by decide
    rw [Double.value, significand, exponent, sign, show w.toNat = 0x7FFFFFFFFFFFFC00 from rfl]
    norm_num
  obtain ⟨converts, comesBack⟩ := doubles_convert d .char w
  obtain ⟨folded, generated, words, exact, -, agree, -⟩ := converts finite inside
  obtain ⟨folded', generated', words', exact', exact''⟩ := comesBack representable
  refine ⟨⟨finite, inside, folded, generated, words, ?_, agree.mpr (by omega)⟩, representable,
    folded', generated', words', exact'.mpr (by decide), exact''.mpr (by decide)⟩
  rw [exact.mpr (by omega), integral]

/-- The number `10 ^ 19` is an `unsigned long`, and the value of a double. The literal is folded
to `2 ^ 63 - 1` and the code gives `2 ^ 63`, whether from the double or there and back. -/
theorem tenToNineteen_converts :
    let d : Double := ⟨0x43E158E460913D00⟩
    let w : Word := 10000000000000000000
    d.IsFinite ∧ towardZero d.value = 10 ^ 19 ∧ IntType.ulong.Represents (10 ^ 19) ∧
      d.ConvertsTo .ulong 0x7FFFFFFFFFFFFFFF 0x8000000000000000 ∧
      Double.Represented w.toNat ∧ w.ComesBackAs 0x7FFFFFFFFFFFFFFF 0x8000000000000000 := by
  intro d w
  have finite : d.IsFinite := by decide
  have value : d.value = w.toNat := by
    have significand : d.significand = 4882812500000000 := by decide
    have exponent : d.exponent = 11 := by decide
    have sign : d.isNegative = false := by decide
    rw [Double.value, significand, exponent, sign, show w.toNat = 10 ^ 19 from rfl]
    norm_num
  have representable : Double.Represented w.toNat := ⟨d, finite, value⟩
  have folded : IntType.ulong.wrap d.toIntSaturating = 0x7FFFFFFFFFFFFFFF := by decide
  have generated : IntType.ulong.wrap d.toIntOrMin = 0x8000000000000000 := by decide
  have converted : Double.ofNat w = d := by decide
  have comesBack := Word.comesBackAs representable
  have convertsTo := d.convertsTo .ulong
  rw [converted, folded, generated] at comesBack
  rw [folded, generated] at convertsTo
  refine ⟨finite, ?_, by decide, convertsTo, representable, comesBack⟩
  rw [value, towardZero_natCast]
  rfl

end LiveC
