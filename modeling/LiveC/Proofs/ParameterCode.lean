import LiveC.Lowering.Function
import LiveC.Proofs.ArgumentCode
import LiveC.Proofs.Labels
import LiveC.Proofs.LoweringTotal

/-!
Parameters on their way from registers. A function stores each into a word of its frame, one below
the other, and a load of the parameter's type finds there what was passed, wrapped to the type.
-/

namespace LiveC

/-- Fewer bytes denote the low bits of a number. -/
theorem Binary.ofLittle_take (bs : List UInt8) (n : Nat) :
    ofLittle (bs.take n) = ofLittle bs % 256 ^ n := by
  induction n generalizing bs with
  | zero => rw [List.take_zero, Nat.pow_zero, Nat.mod_one]; rfl
  | succ n ih =>
      cases bs with
      | nil => rw [List.take_nil, ofLittle, Nat.zero_mod]
      | cons b bs =>
          have low := b.toNat_lt
          have head : (b.toNat + 256 * ofLittle bs) % 256 = b.toNat := by omega
          have tail : (b.toNat + 256 * ofLittle bs) / 256 = ofLittle bs := by omega
          rw [List.take_succ_cons, ofLittle, ofLittle, ih, Nat.pow_succ, Nat.mul_comm (256 ^ n),
            Nat.mod_mul, head, tail]

namespace Memory

theorem readBytes_take (m : Memory) (a : Word) {n k : Nat} (h : n ≤ k) :
    (m.readBytes a k).take n = m.readBytes a n := by
  rw [readBytes, readBytes, ← List.map_take, List.take_range, Nat.min_eq_left h]

/-- A narrow load gives the low bits of a wide one. -/
theorem toNat_load (m : Memory) (a : Word) {n : Nat} (h : n ≤ 8) :
    (m.load a n).toNat = (m.load a 8).toNat % 256 ^ n := by
  have whole : (m.readBytes a 8).take 8 = m.readBytes a 8 := readBytes_take m a (Nat.le_refl 8)
  have bounded := Binary.ofLittle_take (m.readBytes a 8) 8
  rw [whole] at bounded
  have small : Binary.ofLittle (m.readBytes a 8) < 2 ^ 64 := by omega
  rw [load, load, Word.ofBytes, Word.ofBytes, BitVec.toNat_ofNat, BitVec.toNat_ofNat,
    Nat.mod_eq_of_lt small, ← readBytes_take m a h, Binary.ofLittle_take]
  exact Nat.mod_eq_of_lt (Nat.lt_of_le_of_lt (Nat.mod_le ..) small)

theorem wrap_load (m : Memory) (a : Word) (t : IntType) :
    t.wrap (m.load a t.width.bytes) = t.wrap (m.load a 8) := by
  have bytes : t.width.bytes ≤ 8 := by cases t.width <;> decide
  have low : (m.load a t.width.bytes).setWidth t.width.bits =
      (m.load a 8).setWidth t.width.bits := by
    apply BitVec.eq_of_toNat_eq
    have power : 256 ^ t.width.bytes = 2 ^ t.width.bits := by cases t.width <;> rfl
    rw [BitVec.toNat_setWidth, BitVec.toNat_setWidth, toNat_load m a bytes, power, Nat.mod_mod]
  rw [IntType.wrap, IntType.wrap, low]

/-- The words of a stack by their slots, from the top down. -/
theorem Stacked.load {m : Memory} {top w : Word} {stack : List Word} (h : m.Stacked top stack)
    {i : Nat} (found : stack.reverse[i]? = some w) : m.load (slot top i) 8 = w := by
  induction stack with
  | nil => cases found
  | cons v stack ih =>
      rw [List.reverse_cons] at found
      by_cases last : i < stack.reverse.length
      · rw [List.getElem?_append_left last] at found
        exact ih h.2 found
      · rw [List.getElem?_append_right (Nat.le_of_not_lt last)] at found
        obtain ⟨bound, same⟩ := List.getElem?_eq_some_iff.mp found
        rw [List.length_reverse] at last bound
        rw [List.length_singleton] at bound
        obtain rfl : i = stack.length := by omega
        rw [← same, h.1]
        simp

end Memory

namespace Lowering

variable {c : Context} {n n' : Label} {rs : List Register} {code : UnitCode}

/-! ### Frames -/

/-- An alignment that is a power of two clears the bits below it. -/
theorem alignDown_pow {n k : Nat} (bound : n < Frame.numberLimit) (small : k ≤ 32) :
    Frame.alignDown n (2 ^ k) = 2 ^ k * (n / 2 ^ k) := by
  unfold Frame.numberLimit at bound
  have whole : 2 ^ k * 2 ^ (32 - k) = 2 ^ 32 := by rw [← Nat.pow_add, Nat.add_sub_cancel' small]
  have mask : Frame.numberLimit - 2 ^ k = 2 ^ k * (2 ^ (32 - k) - 1) + 0 := by
    rw [Nat.mul_sub, whole, Nat.mul_one, Nat.add_zero]
    rfl
  have upper : n / 2 ^ k < 2 ^ (32 - k) := by
    rw [Nat.div_lt_iff_lt_mul (Nat.two_pow_pos k), Nat.mul_comm, whole]
    exact bound
  have result : 2 ^ k * (n / 2 ^ k) = 2 ^ k * (n / 2 ^ k) + 0 := rfl
  apply Nat.eq_of_testBit_eq
  intro j
  rw [result]
  conv_lhs => rw [Frame.alignDown, mask, ← Nat.div_add_mod n (2 ^ k)]
  rw [Nat.testBit_and, Nat.testBit_two_pow_mul_add _ (Nat.mod_lt _ (Nat.two_pow_pos k)),
    Nat.testBit_two_pow_mul_add _ (Nat.two_pow_pos k), Nat.testBit_two_pow_mul_add _ (Nat.two_pow_pos k)]
  split
  case isTrue => rw [Nat.zero_testBit, Bool.and_false]
  case isFalse =>
    rw [Nat.testBit_two_pow_sub_one]
    by_cases low : j - k < 32 - k
    · rw [decide_eq_true low, Bool.and_true]
    · have high : n / 2 ^ k < 2 ^ (j - k) :=
        Nat.lt_of_lt_of_le upper (Nat.pow_le_pow_right (by decide) (by omega))
      rw [Nat.testBit_lt_two_pow high, Bool.false_and]

theorem alignDown_eight (k : Nat) (bound : 8 * k + 15 < Frame.numberLimit) :
    Frame.alignDown (8 * k + 15) 8 = 8 * (k + 1) := by
  have aligned := @alignDown_pow (8 * k + 15) 3 bound (by decide)
  have eight : (2 : Nat) ^ 3 = 8 := by decide
  rw [eight] at aligned
  omega

/-- A word goes right below the words of a frame. -/
theorem allocate?_word {f f' : Frame} {k : Nat} {offset : Int} (used : f.used = 8 * k)
    (h : f.allocate? 8 8 = some (offset, f')) :
    f'.used = 8 * (k + 1) ∧ f'.slots = f.slots ++ [-((8 * (k + 1) : Nat) : Int)] := by
  obtain ⟨used', slots, bound, -⟩ := allocated_of_allocate? h
  have stop : f.used + max 8 1 + (max 8 1 - 1) = 8 * k + 15 := by omega
  rw [stop] at used' bound
  have lowest : f'.used = 8 * (k + 1) := used'.trans (alignDown_eight k bound)
  exact ⟨lowest, lowest ▸ slots⟩

theorem slots_start {f f' : Frame} {params : Nat} {vars : List LocalVar}
    (run : allocateLocals f params vars = .ok f') : f.slots <+: f'.slots := by
  induction vars generalizing f params with
  | nil =>
      cases run
      exact List.prefix_rfl
  | cons v vars ih =>
      unfold allocateLocals at run
      cases slot : if 0 < params then f.allocate? 8 8 else f.allocate? v.ty.size v.ty.align with
      | none =>
          rw [slot] at run
          cases run
      | some r =>
          rw [slot] at run
          refine List.IsPrefix.trans ?_ (ih run)
          split at slot <;>
            exact (allocated_of_allocate? slot).slots ▸ List.prefix_append ..

/-- The slots of parameters lie one below the other, a word each. -/
theorem slots_allocateLocals {f f' : Frame} {k params : Nat} {vars : List LocalVar}
    (run : allocateLocals f params vars = .ok f') (used : f.used = 8 * k)
    (le : params ≤ vars.length) {i : Nat} (h : i < params) :
    f'.slots[f.slots.length + i]? = some (-((8 * (k + i + 1) : Nat) : Int)) ∧
      8 * (k + i + 1) ≤ Frame.maxSize := by
  induction vars generalizing f k params i with
  | nil => simp at le; omega
  | cons v vars ih =>
      rw [List.length_cons] at le
      unfold allocateLocals at run
      rw [if_pos (by omega : 0 < params)] at run
      cases slot : f.allocate? 8 8 with
      | none =>
          rw [slot] at run
          cases run
      | some r =>
          rw [slot] at run
          obtain ⟨used', same⟩ := allocate?_word used slot
          have bound := (allocated_of_allocate? slot).used_le
          have length : r.2.slots.length = f.slots.length + 1 := by
            rw [same, List.length_append, List.length_singleton]
          cases i with
          | zero =>
              have first : r.2.slots[f.slots.length]? = some (-((8 * (k + 1) : Nat) : Int)) := by
                rw [same, List.getElem?_concat_length]
              obtain ⟨rest, whole⟩ := slots_start run
              refine ⟨?_, used' ▸ bound⟩
              rw [← whole, List.getElem?_append_left (by omega)]
              exact first
          | succ i =>
              have next := @ih r.2 (k + 1) (params - 1) run used' (by omega) i (by omega)
              rw [length] at next
              rwa [← Nat.add_assoc, Nat.add_right_comm, ← Nat.add_assoc k, Nat.add_right_comm k]

/-- A displacement of a frame, as a word. -/
theorem signExtend_displacement {n : Nat} (bound : n ≤ Frame.maxSize) :
    (BitVec.ofInt 32 (-(n : Int))).signExtend 64 = -BitVec.ofNat 64 n := by
  unfold Frame.maxSize at bound
  apply BitVec.eq_of_toInt_eq
  rw [BitVec.toInt_signExtend_of_le (by decide), BitVec.toInt_ofInt, ← BitVec.ofInt_natCast,
    ← BitVec.ofInt_neg, BitVec.toInt_ofInt]
  simp only [Int.bmod]
  omega

/-- A displacement of a frame reaches the word of its slot. -/
theorem add_signExtend {k : Nat} (bound : 8 * (k + 1) ≤ Frame.maxSize) (top : Word) :
    top + (BitVec.ofInt 32 (-((8 * (k + 1) : Nat) : Int))).signExtend 64 = slot top k := by
  rw [signExtend_displacement bound, slot, BitVec.sub_eq_add_neg]

/-- The displacements of parameters reach the words of a stack, from the frame pointer down. -/
theorem offset_of_allocateLocals {frame : Frame} {params : Nat} {vars : List LocalVar}
    (run : allocateLocals {} params vars = .ok frame) (le : params ≤ vars.length) {i : Nat}
    (h : i < params) : ∃ offset, (frame.slots.map (BitVec.ofInt 32))[i]? = some offset ∧
      ∀ top : Word, top + offset.signExtend 64 = slot top i := by
  obtain ⟨found, bound⟩ := @slots_allocateLocals {} frame 0 params vars run rfl le i h
  simp only [List.length_nil, Nat.zero_add] at found bound
  exact ⟨_, by rw [List.getElem?_map, found, Option.map_some], add_signExtend bound⟩

/-! ### Stores -/

/-- Stores a register of either bank. -/
def storing (r : Register) (a : Address) : Instruction Label :=
  match r with
  | .gp r => .store a r .w64
  | .xmm x => .storeDouble a x

theorem effect_storing (r : Register) (a : Address) (m : Machine) :
    (storing r a).effect m = .ok (m.storeAt (m.locate a) .w64 (m.word r), .next) := by
  cases r <;> rfl

/-- Parameters are stored in order, each from the register that arguments give it. -/
theorem spillParameters_eq {i : Nat} {taken last : ArgumentRegisters} {tys : List CType}
    (assigned : taken.assignAll? (tys.map bankOf) = some (rs, last))
    (slots : i + tys.length ≤ c.offsets.length) : spillParameters c i taken tys n =
      .ok (block (List.zipWith (fun r offset => storing r ⟨.rbp, offset⟩) rs (c.offsets.drop i)),
        n) := by
  induction tys generalizing i taken rs n with
  | nil =>
      cases assigned
      rfl
  | cons ty tys ih =>
      rw [List.length_cons] at slots
      obtain ⟨r, others, found, behind, rfl⟩ := ArgumentRegisters.assignAll?_cons.mp assigned
      have inside : i < c.offsets.length := by omega
      have place : c.variableAddress i n = .ok (⟨.rbp, c.offsets[i]⟩, n) :=
        variableAddress_eq_ok.mpr ⟨_, List.getElem?_eq_getElem inside, rfl, rfl⟩
      have rest := @ih n others (i + 1) _ behind (by omega)
      rw [spillParameters, ArgumentRegisters.assign?_eq, found]
      refine (bind_of_ok place).trans ((bind_of_ok rest).trans ?_)
      rw [List.drop_eq_getElem_cons inside, List.zipWith_cons_cons]
      cases r <;> rfl

/-- Stored words lie one below the other. -/
theorem straight_storing {top : Word} {offsets : List (BitVec 32)} {stack : List Word}
    {m : Machine} (base : m.gp .rbp = top)
    (places : ∀ j < rs.length, ∃ offset, offsets[j]? = some offset ∧
      top + offset.signExtend 64 = slot top (stack.length + j))
    (room : 8 * (stack.length + rs.length) ≤ 2 ^ 64) (stacked : m.memory.Stacked top stack) :
    ∃ m', straight (List.zipWith (fun r offset => storing r ⟨.rbp, offset⟩) rs offsets) m =
        .ok m' ∧
      (∀ r, m'.word r = m.word r) ∧
      m'.memory.Stacked top ((rs.map m.word).reverse ++ stack) := by
  induction rs generalizing offsets stack m with
  | nil => exact ⟨m, rfl, fun _ => rfl, stacked⟩
  | cons r rs ih =>
      obtain ⟨found, first, place⟩ := places 0 (Nat.succ_pos _)
      obtain _ | ⟨offset, offsets⟩ := offsets
      · cases first
      · obtain rfl : offset = found := Option.some.inj first
        rw [List.length_cons] at room
        have same (s : Register) :
            (m.storeAt (slot top stack.length) .w64 (m.word r)).word s = m.word s :=
          Machine.word_storeAt ..
        have kept (a : Word) (inside : below top a < 8 * stack.length) :
            (m.memory.store (slot top stack.length) 8 (m.word r)).read a = m.memory.read a :=
          Memory.read_store_of_outside _ _ (Nat.le_refl 8) (outside_slot (by omega) (.inl inside))
        have memory : (m.storeAt (slot top stack.length) .w64 (m.word r)).memory =
            m.memory.store (slot top stack.length) 8 (m.word r) := rfl
        have stored : (m.storeAt (slot top stack.length) .w64 (m.word r)).memory.Stacked top
            (m.word r :: stack) := by
          rw [memory]
          exact ⟨Memory.load_store .., stacked.congr (by omega) kept⟩
        have effect : (storing r ⟨.rbp, offset⟩).effect m =
            .ok (m.storeAt (slot top stack.length) .w64 (m.word r), .next) := by
          rw [effect_storing, Machine.locate, base, place, Nat.add_zero]
        have others (j : Nat) (inside : j < rs.length) : ∃ offset, offsets[j]? = some offset ∧
            top + offset.signExtend 64 = slot top ((m.word r :: stack).length + j) := by
          obtain ⟨next, found, there⟩ := places (j + 1) (Nat.succ_lt_succ inside)
          refine ⟨next, found, there.trans ?_⟩
          rw [List.length_cons, Nat.add_right_comm, Nat.add_assoc]
        obtain ⟨m', run, words, all⟩ := @ih offsets (m.word r :: stack)
          (m.storeAt (slot top stack.length) .w64 (m.word r))
          ((Machine.gp_storeAt ..).trans base) others
          (by rw [List.length_cons]; omega) stored
        refine ⟨m', (straight_cons effect).trans run, fun s => (words s).trans (same s), ?_⟩
        rw [List.map_congr_left fun s _ => same s] at all
        rwa [List.map_cons, List.reverse_cons, List.append_assoc]

/-- Each parameter has a slot of its own, in which its register is stored. -/
theorem straight_spills {frame : Frame} {vars : List LocalVar} {params : Nat}
    (framed : allocateLocals {} params vars = .ok frame) (le : params ≤ vars.length)
    (length : rs.length = params) (few : params ≤ 14) (m : Machine) :
    ∃ m', straight (List.zipWith (fun r offset => storing r ⟨.rbp, offset⟩) rs
        (frame.slots.map (BitVec.ofInt 32))) m = .ok m' ∧
      ∀ (i : Nat) (r : Register), rs[i]? = some r →
        ∃ offset, (frame.slots.map (BitVec.ofInt 32))[i]? = some offset ∧
          m'.memory.load (m'.locate ⟨.rbp, offset⟩) 8 = m.word r := by
  subst length
  have places (j : Nat) (inside : j < rs.length) :
      ∃ offset, (frame.slots.map (BitVec.ofInt 32))[j]? = some offset ∧
        m.gp .rbp + offset.signExtend 64 = slot (m.gp .rbp) (([] : List Word).length + j) := by
    obtain ⟨offset, found, place⟩ := offset_of_allocateLocals framed le inside
    exact ⟨offset, found, by rw [List.length_nil, Nat.zero_add]; exact place _⟩
  obtain ⟨m', run, same, stacked⟩ := straight_storing rfl places
    (by rw [List.length_nil]; omega) trivial
  rw [List.append_nil] at stacked
  refine ⟨m', run, fun i r register => ?_⟩
  have inside := (List.getElem?_eq_some_iff.mp register).1
  obtain ⟨offset, found, place⟩ := offset_of_allocateLocals framed le inside
  have base : m'.gp .rbp = m.gp .rbp := same (.gp .rbp)
  refine ⟨offset, found, ?_⟩
  rw [Machine.locate, base, place]
  apply stacked.load
  rw [List.reverse_reverse, List.getElem?_map, register, Option.map_some]

/-- Parameters that are stored have registers and slots. -/
theorem assigned_of_spillParameters {i : Nat} {taken : ArgumentRegisters} {tys : List CType}
    (h : spillParameters c i taken tys n = .ok (code, n')) :
    (∃ rs last, taken.assignAll? (tys.map bankOf) = some (rs, last)) ∧
      ∀ j < tys.length, i + j < c.offsets.length := by
  induction tys generalizing i taken n n' code with
  | nil => exact ⟨⟨[], taken, rfl⟩, nofun⟩
  | cons ty tys ih =>
      simp only [spillParameters] at h
      cases found : taken.assign? (bankOf ty) with
      | none =>
          rw [found] at h
          cases h
      | some r =>
          rw [found] at h
          simp only [bind_eq_ok, variableAddress_eq_ok, pure_eq_ok] at h
          obtain ⟨_, _, ⟨_, place, -⟩, others, _, behind, -⟩ := h
          obtain ⟨⟨rs, last, assigned⟩, slots⟩ := ih behind
          refine ⟨⟨r.1 :: rs, last, ?_⟩, fun j inside => ?_⟩
          · simp only [List.map_cons, ArgumentRegisters.assignAll?, found, assigned,
              Option.bind_eq_bind, Option.bind_some, Option.pure_def]
          · cases j with
            | zero => exact (List.getElem?_eq_some_iff.mp place).1
            | succ j =>
                have := slots j (Nat.lt_of_succ_lt_succ inside)
                omega

/-! ### Loads -/

/-- A load leaves the word at the address, wrapped to the type. -/
theorem reaches_loadValue {link : CodeTarget → Word} {program rest : UnitCode} {ty : CType}
    (scalar : ty.isScalar = true) (a : Address) (m : Machine) :
    ∃ m', (unitCode link).Reaches program ⟨loadValue ty a ++ rest, m⟩ ⟨rest, m'⟩ ∧
      m'.word (bankOf ty).resultRegister =
        (machineInt ty).wrap (m.memory.load (m.locate a) 8) := by
  cases ty with
  | int t =>
      refine ⟨_, reaches_block (straight_cons rfl), ?_⟩
      exact ((Machine.gp_setGp ..).trans (if_pos rfl)).trans (Memory.wrap_load ..)
  | pointer t =>
      refine ⟨_, reaches_block (straight_cons rfl), ?_⟩
      exact (Machine.gp_setGp ..).trans (if_pos rfl)
  | double =>
      refine ⟨_, reaches_block (straight_cons rfl), ?_⟩
      refine (congrArg Double.bits ((Machine.xmm_setXmm ..).trans (if_pos rfl))).trans ?_
      exact (IntType.wrap_w64 false _).symm
  | void | array | function => cases scalar

/-- The opening of a frame keeps all registers but those of the stack. -/
theorem straight_prologue (size : Nat) (m : Machine) :
    ∃ m', straight ([.push .rbp, .mov .rbp .rsp] ++
        if size = 0 then [] else [.aluImm .sub .rsp (BitVec.ofNat 32 size)]) m = .ok m' ∧
      ∀ r, r ≠ .gp .rsp → r ≠ .gp .rbp → m'.word r = m.word r := by
  have based : straight [.push .rbp, .mov .rbp .rsp] m =
      .ok ((m.push (m.gp .rbp)).setGp .rbp ((m.push (m.gp .rbp)).gp .rsp)) := rfl
  have kept (r : Register) (sp : r ≠ .gp .rsp) (bp : r ≠ .gp .rbp) :
      ((m.push (m.gp .rbp)).setGp .rbp ((m.push (m.gp .rbp)).gp .rsp)).word r = m.word r := by
    rw [Machine.word_setGp _ _ bp, Machine.word_push _ _ sp]
  split
  case isTrue => exact ⟨_, (straight_append based).trans rfl, kept⟩
  case isFalse =>
    refine ⟨_, (straight_append based).trans (straight_cons rfl), fun r sp bp => ?_⟩
    rw [← kept r sp bp]
    cases r with
    | gp r =>
        exact (Machine.gp_setGp ..).trans (if_neg (mt (congrArg Register.gp) sp))
    | xmm x => rfl

/-! ### Functions -/

/-- The code of a function brings its parameters from registers into its frame, where its body, as
long as it changes nothing, reads what was passed, wrapped to the types of the parameters. -/
def Receives (layout : UnitLayout) (f : Function) (finish n' : Label) (code : UnitCode) : Prop :=
  ∃ (c : FunctionContext) (opening body : UnitCode), c.layout = layout ∧ c.locals = f.locals ∧
    stmts c none f.body (finish + 1) = .ok (body, n') ∧
    code = opening ++ (body ++ (literal 0 ++ ([.label finish] ++ epilogue))) ∧
    ∀ (link : CodeTarget → Word) (program rest : UnitCode) (m : Machine) (words : List Word),
      m.HoldsArguments (f.signature.params.map bankOf) words →
      ∃ m', (unitCode link).Reaches program ⟨opening ++ rest, m⟩ ⟨rest, m'⟩ ∧
        ∀ (i : Nat) (note : Note), f.signature.params[i]? = some note.ty →
          note.ty.isScalar = true → ∃ w read, words[i]? = some w ∧
            (∀ depth k, expr c.toContext depth (.var note i) k = .ok (read, k)) ∧
            ∀ rest, ∃ m'', (unitCode link).Reaches program ⟨read ++ rest, m'⟩ ⟨rest, m''⟩ ∧
              m''.word (bankOf note.ty).resultRegister = (machineInt note.ty).wrap w

theorem function_receives {layout : UnitLayout} {entry : Label} {f : Function}
    (lowered : function layout entry f n = .ok (code, n')) : Receives layout f n n' code := by
  simp only [function, bind_eq_ok, newLabel_eq_ok, lift_eq_ok, pure_eq_ok] at lowered
  obtain ⟨_, _, ⟨rfl, rfl⟩, frame, _, ⟨framed, rfl⟩, spills, _, spilled, body, _, lowered, rfl,
    rfl⟩ := lowered
  obtain ⟨⟨rs, last, assigned⟩, slots⟩ := assigned_of_spillParameters spilled
  have length := ArgumentRegisters.length_assignAll? assigned
  rw [List.length_map] at length
  have few := length_le_of_fits (Host.exists_assignAll?_iff.mp ⟨rs, last, assigned⟩)
  rw [List.length_map] at few
  have covered : f.signature.params.length ≤ (frame.slots.map (BitVec.ofInt 32)).length :=
    Nat.le_of_not_lt fun beyond => Nat.lt_irrefl _ (Nat.zero_add _ ▸ slots _ beyond)
  have declared : f.signature.params.length ≤ f.locals.length := by
    obtain ⟨_, failed⟩ | ⟨_, framed', total⟩ :=
      allocateLocals_cases {} f.signature.params.length f.locals
    · cases framed.symm.trans failed
    · cases framed.symm.trans framed'
      rwa [List.length_map, total, List.length_nil, Nat.zero_add] at covered
  have stores := @spillParameters_eq
    { layout, offsets := frame.slots.map (BitVec.ofInt 32) } (n + 1) rs 0 {} last
    f.signature.params assigned ((Nat.zero_add _).symm ▸ covered)
  cases spilled.symm.trans stores
  let spills := List.zipWith (fun r offset => storing r ⟨.rbp, offset⟩) rs
    (frame.slots.map (BitVec.ofInt 32))
  refine ⟨_, .label entry :: (prologue frame.size ++ block spills), body, rfl, rfl, lowered, ?_,
    fun link program rest m words holds => ?_⟩
  · simp only [List.append_assoc, List.cons_append, List.drop_zero, spills]
  obtain ⟨m₁, opened, kept⟩ := straight_prologue frame.size m
  obtain ⟨m₂, stored, places⟩ := straight_spills framed declared length few m₁
  refine ⟨m₂, ?_, fun i note here scalar => ?_⟩
  · rw [List.cons_append, List.append_assoc]
    exact (Language.reaches_next rfl).trans ((reaches_block opened).trans (reaches_block stored))
  · have inside : i < rs.length := length ▸ (List.getElem?_eq_some_iff.mp here).1
    have register : rs[i]? = some rs[i] := List.getElem?_eq_getElem inside
    obtain ⟨b, number, -, passed⟩ :=
      ArgumentRegisters.register_of_mem assigned (List.getElem_mem inside)
    obtain ⟨-, sp, bp⟩ := Bank.register?_ne passed
    obtain ⟨offset, found, value⟩ := places i _ register
    refine ⟨_, loadValue note.ty ⟨.rbp, offset⟩, holds i rs[i] ?_, fun depth k => ?_,
      fun rest => ?_⟩
    · rw [← ArgumentRegisters.getElem?_registers assigned, register]
    · exact bind_of_ok (variableAddress_eq_ok.mpr ⟨offset, found, rfl, rfl⟩)
    · rw [← kept _ sp bp, ← value]
      exact reaches_loadValue scalar _ m₂

end Lowering

end LiveC
