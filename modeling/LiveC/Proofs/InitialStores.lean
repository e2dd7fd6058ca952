import LiveC.Proofs.InitialImage
import LiveC.Proofs.ParameterCode
import LiveC.Proofs.StatementLabels

/-!
What the code of an initialised local variable leaves in its slot. An array is zeroed first; then
each value is stored where it belongs, of a string only the characters that are not zero. Of a
pointer to a string literal the slot holds the address of the literal.
-/

namespace LiveC
namespace Lowering

/-! ### Slots -/

theorem le_alignDown {n align : Nat} (h : IsAlignment align) (bound : n < Frame.numberLimit) :
    n ≤ Frame.alignDown n align + (align - 1) := by
  obtain ⟨k, small, rfl⟩ : ∃ k, k ≤ 32 ∧ align = 2 ^ k := by
    rcases h with rfl | rfl | rfl | rfl
    · exact ⟨0, by decide, rfl⟩
    · exact ⟨1, by decide, rfl⟩
    · exact ⟨2, by decide, rfl⟩
    · exact ⟨3, by decide, rfl⟩
  have below := Nat.mod_lt n (Nat.two_pow_pos k)
  have whole := Nat.div_add_mod n (2 ^ k)
  rw [alignDown_pow bound small]
  omega

/-- The slot of a variable that is no parameter holds an object of its type, below the frame
pointer. -/
theorem slot_of_allocateLocals {f frame : Frame} {params id : Nat} {vars : List LocalVar} {v : LocalVar}
    (run : allocateLocals f params vars = .ok frame) (found : vars[id]? = some v)
    (behind : params ≤ id) : ∃ used : Nat, frame.slots[f.slots.length + id]? = some (-(used : Int)) ∧
      v.ty.size ≤ used ∧ used ≤ Frame.maxSize := by
  induction vars generalizing f params id with
  | nil => cases found
  | cons w vars ih =>
      unfold allocateLocals at run
      cases slot : if 0 < params then f.allocate? 8 8 else f.allocate? w.ty.size w.ty.align with
      | none =>
          rw [slot] at run
          cases run
      | some r =>
          rw [slot] at run
          have slots : r.2.slots = f.slots ++ [-(r.2.used : Int)] := by
            split at slot <;> exact (allocated_of_allocate? slot).slots
          cases id with
          | zero =>
              obtain rfl : w = v := Option.some.inj found
              rw [if_neg (by omega : ¬0 < params)] at slot
              have allocated := allocated_of_allocate? slot
              obtain ⟨rest, whole⟩ := slots_start run
              refine ⟨r.2.used, ?_, ?_, allocated.used_le⟩
              · rw [← whole, slots, List.append_assoc, Nat.add_zero,
                  List.getElem?_append_right (Nat.le_refl _), Nat.sub_self]
                rfl
              · have low := le_alignDown (w.ty.isAlignment.max (.inl rfl)) allocated.stop_lt
                rw [← allocated.used] at low
                omega
          | succ id =>
              have next := ih run found (by omega : params - 1 ≤ id)
              rw [slots, List.length_append, List.length_singleton] at next
              rwa [Nat.add_comm id, ← Nat.add_assoc]

/-- The offset in a slot adds up with the displacement of the slot. -/
theorem signExtend_inside {used k : Nat} (inside : k ≤ used) (bound : used ≤ Frame.maxSize) :
    (BitVec.ofInt 32 (-(used : Int)) + BitVec.ofNat 32 k).signExtend 64 =
      (BitVec.ofInt 32 (-(used : Int))).signExtend 64 + BitVec.ofNat 64 k := by
  obtain ⟨left, rfl⟩ := Nat.exists_eq_add_of_le' inside
  have shorter : BitVec.ofInt 32 (-((left + k : Nat) : Int)) + BitVec.ofNat 32 k =
      BitVec.ofInt 32 (-(left : Int)) := by
    rw [← BitVec.ofInt_natCast, ← BitVec.ofInt_add]
    congr 1
    omega
  rw [shorter, signExtend_displacement bound, signExtend_displacement (by omega), BitVec.ofNat_add]
  rw [BitVec.neg_add, BitVec.sub_add_cancel]

/-- The bytes of an object of a size at an address, and zeros behind it. -/
def slotByte (m : Memory) (a : Word) (size k : Nat) : UInt8 :=
  if k < size then m.read (a + BitVec.ofNat 64 k) else 0

section

variable {m : Memory} {a : Word} {size k : Nat} {bs : List UInt8}

theorem slotByte_writeBytes_of_outside (small : size ≤ 2 ^ 64) (inside : k + bs.length ≤ size)
    {j : Nat} (apart : j < k ∨ k + bs.length ≤ j) :
    slotByte (m.writeBytes (a + BitVec.ofNat 64 k) bs) a size j = slotByte m a size j := by
  unfold slotByte
  split
  case isTrue here =>
    have far : bs.length ≤ (a + BitVec.ofNat 64 j - (a + BitVec.ofNat 64 k)).toNat := by
      by_cases last : k = 2 ^ 64
      · omega
      · bv_omega
    rw [Memory.read_writeBytes _ _ (by omega), List.getElem?_eq_none far, Option.getD_none]
  case isFalse => rfl

theorem window_slotByte_writeBytes (small : size ≤ 2 ^ 64) (inside : k + bs.length ≤ size) :
    window (slotByte (m.writeBytes (a + BitVec.ofNat 64 k) bs) a size) k bs.length = bs := by
  refine List.ext_getElem (length_window ..) fun j _ here => ?_
  have there : (a + BitVec.ofNat 64 (k + j) - (a + BitVec.ofNat 64 k)).toNat = j := by
    bv_omega
  rw [List.getElem_eq_iff, getElem?_window here, slotByte, if_pos (by omega),
    Memory.read_writeBytes _ _ (by omega), there, List.getElem?_eq_getElem here, Option.getD_some]

end

/-! ### Values -/

variable {link : CodeTarget → Word} {program rest : UnitCode} {c : Context}

/-- The code of a value and of a store behind it runs to its end, and leaves bytes at an address in
the frame. -/
def Puts (link : CodeTarget → Word) (c : Context) (e : Expr) (bs : List UInt8) : Prop :=
  ∀ ⦃a : Address⦄ ⦃n k n' : Label⦄ ⦃value store : UnitCode⦄, a.base = .rbp →
    expr c 0 e n = .ok (value, k) → storeValue e.ty a k = .ok (store, n') →
    ∀ (program rest : UnitCode) (m : Machine), ∃ m',
      (unitCode link).Reaches program ⟨value ++ store ++ rest, m⟩ ⟨rest, m'⟩ ∧
      m'.gp .rbp = m.gp .rbp ∧ m'.memory = m.memory.writeBytes (m.locate a) bs

theorem locate_of_alike {m m' : Machine} (h : m.Alike m') {a : Address} (base : a.base = .rbp) :
    m'.locate a = m.locate a := by
  rw [Machine.locate, Machine.locate, base, h.gp .rbp rfl]

/-- A machine that has stored the word in `rax` in the frame. -/
theorem put_word {m m' : Machine} {v : Word} (alike : m.Alike m') (value : m'.gp .rax = v) {a : Address}
    (base : a.base = .rbp) (w : Width) :
    (m'.storeAt (m'.locate a) w (m'.gp .rax)).gp .rbp = m.gp .rbp ∧
      (m'.storeAt (m'.locate a) w (m'.gp .rax)).memory =
        m.memory.writeBytes (m.locate a) (v.toBytes w.bytes) := by
  refine ⟨alike.gp .rbp rfl, ?_⟩
  rw [value, locate_of_alike alike base]
  exact congrArg (Memory.store · _ _ v) alike.memory

/-- A word is stored with the width of its type. -/
theorem straight_put {is : List (Instruction Label)} {m : Machine} {v : Word} (h : Computes is m v)
    {a : Address} (base : a.base = .rbp) (w : Width) :
    ∃ m', straight (is ++ [.store a .rax w]) m = .ok m' ∧ m'.gp .rbp = m.gp .rbp ∧
      m'.memory = m.memory.writeBytes (m.locate a) (v.toBytes w.bytes) := by
  obtain ⟨m', run, alike, value⟩ := h
  exact ⟨_, (straight_append run).trans rfl, put_word alike value base w⟩

theorem puts_int {ty : CType} {loc : Location} {x : Word}
    (scalar : ty.isInteger = true ∨ ty.isPointer = true) :
    Puts link c (.int ⟨ty, loc⟩ x) (x.toBytes ty.size) := by
  intro a n k n' value store base he hs program rest m
  obtain ⟨rfl, rfl⟩ := pure_eq_ok.mp he
  have put (w : Width) (size : ty.size = w.bytes) (code : store = block [.store a .rax w]) :
      ∃ m', (unitCode link).Reaches program ⟨literal x ++ store ++ rest, m⟩ ⟨rest, m'⟩ ∧
        m'.gp .rbp = m.gp .rbp ∧ m'.memory = m.memory.writeBytes (m.locate a) (x.toBytes ty.size) := by
    obtain ⟨m', run, frame, memory⟩ := straight_put (computes_settingWord m x) base w
    subst code
    exact ⟨m', reaches_block run, frame, size ▸ memory⟩
  cases ty with
  | int t => exact put t.width rfl (pure_eq_ok.mp hs).1.symm
  | pointer p => exact put .w64 rfl (pure_eq_ok.mp hs).1.symm
  | void | double | array | function => simp [CType.isInteger, CType.isPointer] at scalar

theorem puts_float {loc : Location} {x : Double} :
    Puts link c (.float ⟨.double, loc⟩ x) (x.bits.toBytes 8) := by
  intro a n k n' value store base he hs program rest m
  obtain ⟨rfl, rfl⟩ := pure_eq_ok.mp he
  obtain ⟨rfl, rfl⟩ := pure_eq_ok.mp hs
  obtain ⟨m', run, alike, word⟩ := computes_settingWord m x.bits
  let m'' := m'.setXmm .xmm0 ⟨m'.gp .rax⟩
  have stored : straight ([Assembling.settingWord .rax x.bits] ++
      [.movToXmm .xmm0 .rax, .storeDouble a .xmm0]) m =
      .ok (m''.storeAt (m''.locate a) .w64 (m''.xmm .xmm0).bits) := by
    rw [straight_append run]
    rfl
  refine ⟨_, reaches_block stored, alike.gp .rbp rfl, ?_⟩
  have bits : (m''.xmm .xmm0).bits = x.bits := by
    rw [Machine.xmm_setXmm, if_pos rfl, word]
  rw [bits, show m''.locate a = m'.locate a from rfl, locate_of_alike alike base]
  exact congrArg (Memory.store · _ _ x.bits) alike.memory

/-- The code of a literal and a store behind it. -/
theorem puts_literal {e literal : Expr} (h : e.Is literal) :
    Puts link c e (Leaf.value literal).bytes := by
  obtain ⟨ty, first, second, x, scalar, rfl, rfl⟩ | ⟨first, second, x, rfl, rfl⟩ := h.cases
  · exact puts_int scalar
  · exact puts_float

theorem conversion_pointers (p q : CType) (n : Label) :
    conversion (.pointer p) (.pointer q) n = .ok ([], n) := by
  unfold conversion
  split <;> rfl

/-- The code of the address of a string literal, as whatever pointer. -/
theorem expr_string {ty : CType} {loc : Location} {m : Note} {id sectionId offset : Nat}
    (isPointer : ty.isPointer = true) (place : c.layout.strings[id]? = some (sectionId, offset))
    (n : Label) : expr c 0 ((Expr.addrOf ⟨.pointer (.int .char), loc⟩ (.str m id)).convert ty) n =
      .ok (linkedAddress (.place sectionId offset) none, n) := by
  have plain : expr c 0 (Expr.addrOf ⟨.pointer (.int .char), loc⟩ (.str m id)) n =
      .ok (linkedAddress (.place sectionId offset) none, n) := by
    simp only [expr, address, Context.stringAddress, place]
    rfl
  obtain ⟨same, -⟩ | same := Expr.convert_str ty loc m id
  · rw [same, plain]
  · cases ty with
    | pointer p =>
        rw [same, expr]
        refine (bind_of_ok plain).trans ?_
        exact (bind_of_ok (conversion_pointers _ p n)).trans rfl
    | void | int | double | array | function => cases isPointer

/-- The address of a string literal. -/
theorem puts_string {ty : CType} {loc : Location} {m : Note} {id sectionId offset : Nat}
    (isPointer : ty.isPointer = true) (place : c.layout.strings[id]? = some (sectionId, offset)) :
    Puts link c ((Expr.addrOf ⟨.pointer (.int .char), loc⟩ (.str m id)).convert ty)
      ((link (.place sectionId offset)).toBytes 8) := by
  intro a n k n' value store base he hs program rest m
  cases (expr_string isPointer place n).symm.trans he
  rw [Expr.ty_convert] at hs
  cases ty with
  | pointer p =>
      obtain ⟨rfl, rfl⟩ := pure_eq_ok.mp hs
      have alike : m.Alike (m.setGp .rax (link (.place sectionId offset))) := .setGp m rfl _
      have value := Machine.gp_setGp m .rax .rax (link (.place sectionId offset))
      rw [if_pos rfl] at value
      refine ⟨_, ?_, put_word alike value base .w64⟩
      have loaded : (unitCode link).effect (.linked (.address .rax) ⟨.abs64, .place sectionId offset,
          none⟩) m = .ok (m.setGp .rax (link (.place sectionId offset)), .next) := rfl
      have stored (m : Machine) : straight [.store a .rax .w64] m =
          .ok (m.storeAt (m.locate a) .w64 (m.gp .rax)) := rfl
      exact (Language.reaches_next loaded).trans (reaches_block (stored _))
  | void | int | double | array | function => cases isPointer

/-! ### Characters -/

theorem setWidth_signExtend_byte (x : BitVec 8) : (x.signExtend 64).setWidth 8 = x := by grind

/-- A character is stored as its byte. -/
theorem toBytes_wrap_character (signed : Bool) (b : UInt8) :
    ((⟨.w8, signed⟩ : IntType).wrap (BitVec.ofNat 64 b.toNat)).toBytes 1 = [b] := by
  have low : ((⟨.w8, signed⟩ : IntType).wrap (BitVec.ofNat 64 b.toNat)).setWidth 8 = b.toBitVec := by
    apply BitVec.eq_of_toNat_eq
    cases signed with
    | false => simp [IntType.wrap, Width.bits, Width.bytes]
    | true =>
        simp only [IntType.wrap, Width.bits, Width.bytes, if_true]
        rw [setWidth_signExtend_byte]
        simp
  have byte (v : Word) : v.toBytes 1 = [UInt8.ofBitVec (v.setWidth 8)] := by
    simp only [Word.toBytes, Binary.little, List.cons.injEq, and_true]
    apply UInt8.toNat_inj.mp
    simp
  rw [byte, low]

theorem puts_character {note : Note} (character : note.ty.isCharacter = true) (b : UInt8) :
    let v := BitVec.ofNat 64 b.toNat
    Puts link c (.int note ((note.ty.intType?.map (·.wrap v)).getD v)) [b] := by
  obtain ⟨ty, loc⟩ := note
  cases ty with
  | int t =>
      obtain ⟨w, signed⟩ := t
      cases w with
      | w8 =>
          intro v
          have put := @puts_int link c (.int ⟨.w8, signed⟩) loc
            ((⟨.w8, signed⟩ : IntType).wrap v) (.inl rfl)
          have byte : ((⟨.w8, signed⟩ : IntType).wrap v).toBytes (CType.int ⟨.w8, signed⟩).size = [b] :=
            toBytes_wrap_character signed b
          rw [byte] at put
          exact put
      | w16 | w32 | w64 => cases character
  | void | double | pointer | array | function => cases character

/-! ### Stores in order -/

section

variable {offset : BitVec 32} {stores others : List InitStore} {n n' : Label} {code : UnitCode}

theorem initStores_cons {s : InitStore} (run : initStores c offset (s :: stores) n = .ok (code, n')) :
    ∃ value k store k' behind, expr c 0 s.value n = .ok (value, k) ∧
      storeValue s.value.ty ⟨.rbp, offset + BitVec.ofNat 32 s.offset⟩ k = .ok (store, k') ∧
      initStores c offset stores k' = .ok (behind, n') ∧ code = value ++ store ++ behind := by
  simp only [initStores, bind_eq_ok, pure_eq_ok] at run
  obtain ⟨value, k, evaluated, store, k', stored, behind, _, later, rfl, rfl⟩ := run
  exact ⟨value, k, store, k', behind, evaluated, stored, later, rfl⟩

theorem initStores_append (run : initStores c offset (stores ++ others) n = .ok (code, n')) :
    ∃ first k second, initStores c offset stores n = .ok (first, k) ∧
      initStores c offset others k = .ok (second, n') ∧ code = first ++ second := by
  induction stores generalizing n code with
  | nil => exact ⟨[], n, code, rfl, run, rfl⟩
  | cons s stores ih =>
      obtain ⟨value, k, store, k', behind, evaluated, stored, later, rfl⟩ := initStores_cons run
      obtain ⟨first, j, second, here, there, rfl⟩ := ih later
      refine ⟨value ++ store ++ first, j, second, ?_, there, (List.append_assoc ..).symm⟩
      simp only [initStores, bind_eq_ok, pure_eq_ok]
      exact ⟨value, k, evaluated, store, k', stored, first, j, here, rfl, rfl⟩

/-- The offsets into an object of a size add up with the displacement of its slot. -/
def Displaces (offset : BitVec 32) (size : Nat) : Prop :=
  size ≤ 2 ^ 64 ∧ ∀ k ≤ size,
    (offset + BitVec.ofNat 32 k).signExtend 64 = offset.signExtend 64 + BitVec.ofNat 64 k

/-- The code of stores runs to its end and keeps the frame; what it makes of the bytes of the
object is as it should be. -/
def Stores (link : CodeTarget → Word) (c : Context) (offset : BitVec 32) (size : Nat)
    (stores : List InitStore) (Q : (Nat → UInt8) → (Nat → UInt8) → Prop) : Prop :=
  ∀ ⦃n n' : Label⦄ ⦃code : UnitCode⦄, initStores c offset stores n = .ok (code, n') →
    ∀ (program rest : UnitCode) (m : Machine), ∃ m',
      (unitCode link).Reaches program ⟨code ++ rest, m⟩ ⟨rest, m'⟩ ∧ m'.gp .rbp = m.gp .rbp ∧
      Q (slotByte m.memory (m.gp .rbp + offset.signExtend 64) size)
        (slotByte m'.memory (m.gp .rbp + offset.signExtend 64) size)

/-- Bytes from an offset on are other ones. -/
def Sets (offset : Nat) (bs : List UInt8) (b b' : Nat → UInt8) : Prop :=
  (∀ k, k < offset ∨ offset + bs.length ≤ k → b' k = b k) ∧ window b' offset bs.length = bs

variable {size : Nat} {P Q : (Nat → UInt8) → (Nat → UInt8) → Prop}

theorem stores_nil (h : ∀ b, Q b b) : Stores link c offset size [] Q := by
  intro n n' code run program rest m
  obtain ⟨rfl, rfl⟩ := pure_eq_ok.mp run
  exact ⟨m, .refl _, rfl, h _⟩

theorem Stores.append (h : Stores link c offset size stores P)
    (k : Stores link c offset size others Q) {R : (Nat → UInt8) → (Nat → UInt8) → Prop}
    (trans : ∀ b b' b'', P b b' → Q b' b'' → R b b'') :
    Stores link c offset size (stores ++ others) R := by
  intro n n' code run program rest m
  obtain ⟨first, j, second, here, there, rfl⟩ := initStores_append run
  obtain ⟨m', reaches, frame, before⟩ := h here program (second ++ rest) m
  obtain ⟨m'', reaches', frame', behind⟩ := k there program rest m'
  rw [frame] at behind
  rw [List.append_assoc]
  exact ⟨m'', reaches.trans reaches', frame'.trans frame, trans _ _ _ before behind⟩

/-- A value is stored where it belongs. -/
theorem stores_single (displaces : Displaces offset size) {s : InitStore} {bs : List UInt8}
    (puts : Puts link c s.value bs) (inside : s.offset + bs.length ≤ size) :
    Stores link c offset size [s] (Sets s.offset bs) := by
  intro n n' code run program rest m
  obtain ⟨value, k, store, k', behind, evaluated, stored, later, rfl⟩ := initStores_cons run
  obtain ⟨rfl, rfl⟩ := pure_eq_ok.mp later
  obtain ⟨m', reaches, frame, memory⟩ := puts rfl evaluated stored program rest m
  rw [List.append_nil]
  refine ⟨m', reaches, frame, ?_⟩
  have place : m.locate ⟨.rbp, offset + BitVec.ofNat 32 s.offset⟩ =
      m.gp .rbp + offset.signExtend 64 + BitVec.ofNat 64 s.offset := by
    rw [Machine.locate, displaces.2 _ (by omega), BitVec.add_assoc]
  rw [memory, place]
  exact ⟨fun k apart => slotByte_writeBytes_of_outside displaces.1 inside apart,
    window_slotByte_writeBytes displaces.1 inside⟩

theorem Stores.mono (h : Stores link c offset size stores P) (le : ∀ b b', P b b' → Q b b') :
    Stores link c offset size stores Q := by
  intro n n' code run program rest m
  obtain ⟨m', reaches, frame, made⟩ := h run program rest m
  exact ⟨m', reaches, frame, le _ _ made⟩

/-- Bytes are written into zeros. -/
def Fills (offset : Nat) (bs : List UInt8) (b b' : Nat → UInt8) : Prop :=
  (∀ k, k < offset ∨ offset + bs.length ≤ k → b' k = b k) ∧
    ((∀ k, offset ≤ k → k < offset + bs.length → b k = 0) → window b' offset bs.length = bs)

/-- Characters that are not zero are stored one after the other. -/
theorem stores_bytes (displaces : Displaces offset size) {note : Note}
    (character : note.ty.isCharacter = true) {start : Nat} {bs : List UInt8}
    (inside : start + bs.length ≤ size) :
    Stores link c offset size (InitForm.byteStores note start bs) (Fills start bs) := by
  induction bs generalizing start with
  | nil => exact stores_nil fun b => ⟨fun _ _ => rfl, fun _ => rfl⟩
  | cons x bs ih =>
      rw [List.length_cons] at inside
      have behind := @ih (start + 1) (by omega)
      rw [InitForm.byteStores]
      split
      case isTrue zero =>
        subst zero
        refine behind.mono ?_
        rintro b b' ⟨outside, filled⟩
        refine ⟨fun k apart => ?_, fun zero => ?_⟩
        · rw [List.length_cons] at apart
          exact outside k (by omega)
        · rw [List.length_cons] at zero ⊢
          rw [window_succ, filled fun k least most => zero k (by omega) (by omega),
            outside start (by omega), zero start (by omega) (by omega)]
      case isFalse =>
        have here : Stores link c offset size [⟨start, _⟩] (Sets start [x]) :=
          stores_single displaces (puts_character character x)
            (Nat.le_trans (Nat.add_le_add_left (Nat.succ_le_succ (Nat.zero_le _)) start) inside)
        refine here.append behind ?_
        rintro b b' b'' ⟨kept, set⟩ ⟨outside, filled⟩
        rw [List.length_singleton] at kept set
        have first : b' start = x := (List.cons.inj set).1
        refine ⟨fun k apart => ?_, fun zero => ?_⟩
        · rw [List.length_cons] at apart
          rw [outside k (by omega), kept k (by omega)]
        · rw [List.length_cons] at zero ⊢
          rw [window_succ, outside start (by omega), first, filled]
          intro k least most
          rw [kept k (by omega)]
          exact zero k (by omega) (by omega)

end

/-! ### Initialisers -/

/-- The literal whose address is taken has a place. -/
theorem place_of_expr {ty : CType} {loc : Location} {m : Note} {id : Nat} {n n' : Label}
    {code : UnitCode} (run : expr c 0 ((Expr.addrOf ⟨.pointer (.int .char), loc⟩ (.str m id)).convert
      ty) n = .ok (code, n')) :
    ∃ sectionId offset, c.layout.strings[id]? = some (sectionId, offset) := by
  have plain {n n' : Label} {code : UnitCode} (run : expr c 0 (Expr.addrOf
      ⟨.pointer (.int .char), loc⟩ (.str m id)) n = .ok (code, n')) :
      ∃ sectionId offset, c.layout.strings[id]? = some (sectionId, offset) := by
    rw [expr, address] at run
    obtain ⟨place, found, -⟩ := stringAddress_eq_ok.mp run
    exact ⟨_, _, found⟩
  obtain ⟨same, -⟩ | same := Expr.convert_str ty loc m id
  · exact plain (same ▸ run)
  · rw [same, expr] at run
    obtain ⟨value, k, evaluated, -⟩ := bind_eq_ok.mp run
    exact plain evaluated

end Lowering

/-- The bytes of a value in a slot are as they should be: a pointer to a string literal is its
address. -/
def Leaf.IsStored (link : CodeTarget → Word) (places : List (Nat × Nat))
    (strings : List (List UInt8)) : Leaf → List UInt8 → Prop
  | address _ string, bs => ∃ id sectionId offset : Nat, strings[id]? = some string ∧
      places[id]? = some (sectionId, offset) ∧ bs = (link (.place sectionId offset)).toBytes 8
  | leaf, bs => bs = leaf.bytes

/-- The characters that are written, and zeros behind them. -/
theorem fitString_eq (bytes : List UInt8) (length : Option Nat) :
    fitString bytes length = bytes.take (length.getD bytes.length) ++
      List.replicate (length.getD (bytes.length + 1) -
        (bytes.take (length.getD bytes.length)).length) 0 := by
  cases length with
  | none => simp [fitString]
  | some n =>
      simp only [fitString, Option.getD_some, List.length_take]
      congr 2
      omega

namespace Lowering

variable {link : CodeTarget → Word} {c : Context} {strings : List (List UInt8)}
  {leaves : List (Nat × Leaf)} {stores : List InitStore} {offset : BitVec 32} {size : Nat}

/-- The code of the stores of an initialiser leaves each value where it belongs. -/
theorem stores_of_yielded (yielded : Yielded .automatic strings leaves stores)
    (displaces : Displaces offset size)
    (pointers : ∀ p ∈ leaves, ∀ ty text, p.2 = .address ty text → ty.isPointer = true)
    {lo : Nat} (placed : Placed lo size leaves) :
    Stores link c offset size stores
      (Paints Leaf.isText (Leaf.IsStored link c.layout.strings strings) · leaves ·) := by
  induction yielded generalizing lo with
  | nil => exact stores_nil fun _ => .nil
  | text element length start bytes loc character _ ih =>
      obtain ⟨-, behind⟩ := placed
      have le := behind.le
      have others := ih (fun p member => pointers p (.tail _ member)) behind
      have written : (bytes.take (length.getD bytes.length)).length ≤
          (Leaf.text element length bytes).size := by
        rw [Leaf.size, ← length_fitString, fitString_eq, List.length_append]
        exact Nat.le_add_right _ _
      have here : Stores link c offset size (InitForm.byteStores ⟨element, loc⟩ start
          (bytes.take (length.getD bytes.length))) (Fills start _) :=
        stores_bytes displaces character (Nat.le_trans (Nat.add_le_add_left written start) le)
      refine here.append others ?_
      rintro b b' b'' ⟨outside, filled⟩ painted
      refine .cons (fun k apart => outside k (by omega)) (fun zero => ?_) painted
      have zero := zero rfl
      change window b' start _ = fitString bytes length
      rw [fitString_eq, ← Nat.add_sub_of_le written, window_add,
        filled fun k least most => zero k least (by omega)]
      refine congrArg _ (window_eq_zero fun k least most => ?_)
      rw [Nat.add_assoc, Nat.add_sub_of_le written] at most
      rw [outside k (.inr least), zero k (by omega) most]
  | @scalar leaves items leaf e item start loc ws ws' is scalar run _ ih =>
      obtain ⟨-, behind⟩ := placed
      have le := behind.le
      have others := ih (fun p member => pointers p (.tail _ member)) behind
      cases run
      have put {bs : List UInt8} (here : Stores link c offset size [⟨start, e⟩] (Sets start bs))
          (length : bs.length = leaf.size)
          (isStored : leaf.IsStored link c.layout.strings strings bs) :
          Stores link c offset size (⟨start, e⟩ :: items) (Paints Leaf.isText
            (Leaf.IsStored link c.layout.strings strings) · ((start, leaf) :: leaves) ·) := by
        refine here.append others ?_
        rintro b b' b'' ⟨kept, set⟩ painted
        rw [length] at kept set
        exact .cons kept (fun _ => set ▸ isStored) painted
      cases leaf with
      | text => exact is.elim
      | value literal =>
          have length := Leaf.length_bytes_of_isLiteral is.isLiteral_right
          exact put (stores_single displaces (puts_literal is) (length ▸ le)) length rfl
      | address ty text =>
          obtain ⟨length, place, id, found, rfl, -⟩ := is
          have isPointer := pointers _ (.head _) ty text rfl
          have word : (Leaf.address ty text).size = 8 := CType.size_of_isPointer isPointer
          intro n n' code run
          obtain ⟨_, _, _, _, _, evaluated, -⟩ := initStores_cons run
          obtain ⟨sectionId, there, found'⟩ := place_of_expr evaluated
          have bytes : ((link (.place sectionId there)).toBytes 8).length = 8 := Binary.length_little ..
          exact put (stores_single displaces (puts_string isPointer found')
              (by rw [bytes, ← word]; exact le))
            (bytes.trans word.symm) ⟨id, sectionId, there, found, found', rfl⟩ run

/-! ### Zeroing -/

theorem fill_eq_writeBytes (m : Memory) (a : Word) (b : UInt8) (n : Nat) :
    m.fill a b n = m.writeBytes a (List.replicate n b) := by
  induction n generalizing m a with
  | zero => rfl
  | succ n ih => exact ih ..

theorem effect_settingWord (r : Gp) (v : Word) (m : Machine) :
    ∃ flags, (Assembling.settingWord r v : Instruction Label).effect m =
      .ok ({ m.setGp r v with flags }, .next) := by
  unfold Assembling.settingWord
  split
  case isTrue zero => exact ⟨_, by rw [zero]; rfl⟩
  case isFalse => exact ⟨m.flags, rfl⟩

theorem gp_withFlags (m : Machine) (flags : Flags) (r : Gp) : { m with flags }.gp r = m.gp r := rfl

/-- What zeroing does to the machine. -/
theorem straight_zeroing (m : Machine) (a : Address) (size : Nat) :
    ∃ m', straight [.lea .rdi a, Assembling.settingWord .rcx (BitVec.ofNat 64 size),
        Assembling.settingWord .rax 0, .fill] m = .ok m' ∧ m'.gp .rbp = m.gp .rbp ∧
      m'.memory = m.memory.fill (m.locate a) 0 (BitVec.ofNat 64 size).toNat := by
  obtain ⟨flags, count⟩ := effect_settingWord .rcx (BitVec.ofNat 64 size) (m.setGp .rdi (m.locate a))
  generalize counted : { (m.setGp .rdi (m.locate a)).setGp .rcx (BitVec.ofNat 64 size) with flags } = m₂
    at count
  obtain ⟨flags', zero⟩ := effect_settingWord .rax 0 m₂
  generalize zeroed : { m₂.setGp .rax 0 with flags := flags' } = m₃ at zero
  have memory : m₃.memory = m.memory := by rw [← zeroed, ← counted]; rfl
  have gp (r : Gp) : m₃.gp r = if r = .rax then 0 else if r = .rcx then BitVec.ofNat 64 size
      else if r = .rdi then m.locate a else m.gp r := by
    rw [← zeroed, ← counted]
    simp only [gp_withFlags, Machine.gp_setGp]
  refine ⟨_, (straight_cons rfl).trans ((straight_cons count).trans ((straight_cons zero).trans
    ((straight_cons rfl).trans rfl))), ?_, ?_⟩
  · simp only [Machine.gp_setGp]
    exact gp .rbp
  · simp only [Machine.memory_setGp, gp .rdi, gp .rax, gp .rcx, memory]
    rfl

/-- Zeroing runs to its end, keeps the frame, and leaves the object zero. -/
theorem reaches_zeroing (link : CodeTarget → Word) (program rest : UnitCode) (m : Machine)
    (offset : BitVec 32) {size : Nat} (small : size < 2 ^ 64) : ∃ m',
      (unitCode link).Reaches program ⟨zeroing ⟨.rbp, offset⟩ size ++ rest, m⟩ ⟨rest, m'⟩ ∧
      m'.gp .rbp = m.gp .rbp ∧
      ∀ k < size, slotByte m'.memory (m.gp .rbp + offset.signExtend 64) size k = 0 := by
  obtain ⟨m', run, frame, memory⟩ := straight_zeroing m ⟨.rbp, offset⟩ size
  refine ⟨m', reaches_block run, frame, fun k inside => ?_⟩
  have count : (BitVec.ofNat 64 size).toNat = size := by
    rw [BitVec.toNat_ofNat, Nat.mod_eq_of_lt small]
  change m'.memory = m.memory.fill (m.gp .rbp + offset.signExtend 64) 0 _ at memory
  generalize m.gp .rbp + offset.signExtend 64 = start at memory
  have index : (start + BitVec.ofNat 64 k - start).toNat = k := by bv_omega
  rw [slotByte, if_pos inside, memory, count, fill_eq_writeBytes,
    Memory.read_writeBytes _ _ (by rw [List.length_replicate]; omega), index,
    List.getElem?_replicate, if_pos inside, Option.getD_some]

/-! ### Statements -/

/-- What the code of a function is generated in, by `context_of_function`: the unit is laid out, and
each variable of the function has a slot in its frame. -/
structure FunctionContext.Of (c : FunctionContext) (layout : UnitLayout) (f : Function) : Prop where
  layout : c.layout = layout
  locals : c.locals = f.locals
  slots : ∃ frame, allocateLocals {} f.signature.params.length f.locals = .ok frame ∧
    c.offsets = frame.slots.map (BitVec.ofInt 32)

/-- The body of a function is lowered in its context. -/
theorem context_of_function {layout : UnitLayout} {entry n n' : Label} {f : Function} {code : UnitCode}
    (lowered : function layout entry f n = .ok (code, n')) :
    ∃ (c : FunctionContext) (k : Label) (body : UnitCode), FunctionContext.Of c layout f ∧
      stmts c none f.body k = .ok (body, n') ∧ body <:+: code := by
  simp only [function, bind_eq_ok, newLabel_eq_ok, lift_eq_ok, pure_eq_ok] at lowered
  obtain ⟨_, _, ⟨rfl, rfl⟩, frame, _, ⟨framed, rfl⟩, spills, k, -, body, _, lowered, rfl, rfl⟩ :=
    lowered
  refine ⟨_, k, body, ⟨rfl, rfl, frame, framed, rfl⟩, lowered,
    .label entry :: prologue frame.size ++ spills, literal 0 ++ [.label n] ++ epilogue, ?_⟩
  simp only [List.append_assoc]

/-- A local variable that is no parameter has a slot, in which its offsets add up. -/
theorem FunctionContext.Of.displaces {layout : UnitLayout} {c : FunctionContext} {f : Function}
    (of : c.Of layout f) {id : Nat} {v : LocalVar} (found : f.locals[id]? = some v)
    (behind : f.signature.params.length ≤ id) {offset : BitVec 32}
    (slot : c.offsets[id]? = some offset) :
    v.ty.size ≤ Frame.maxSize ∧ Displaces offset v.ty.size := by
  obtain ⟨frame, allocated, offsets⟩ := of.slots
  obtain ⟨used, there, enough, bound⟩ := slot_of_allocateLocals allocated found behind
  rw [List.length_nil, Nat.zero_add] at there
  rw [offsets, List.getElem?_map, there] at slot
  cases slot
  have small : Frame.maxSize ≤ 2 ^ 64 := by decide
  exact ⟨Nat.le_trans enough bound, Nat.le_trans enough (Nat.le_trans bound small),
    fun k inside => signExtend_inside (Nat.le_trans inside enough) bound⟩

/-- The values of its initialiser lie in a local variable. -/
theorem FunctionContext.Of.placed {layout : UnitLayout} {c : FunctionContext} {f : Function}
    (of : c.Of layout f) {id : Nat} {v : LocalVar} (found : f.locals[id]? = some v)
    (behind : f.signature.params.length ≤ id) {offset : BitVec 32}
    (slot : c.offsets[id]? = some offset) {i : Initial} {ty : CType}
    (said : i.read ty 0 = some (v.ty, leaves)) (completable : ty.isCompletable = true) :
    Placed 0 v.ty.size leaves := by
  have bound : Frame.maxSize < Word.modulus - 1 := by decide
  have sized : v.ty.Sized := ⟨(Initial.completed_of_read said completable).1,
    Nat.lt_of_le_of_lt (of.displaces found behind slot).1 bound⟩
  have placed := Initial.placed_read i said completable sized
  rwa [Nat.zero_add] at placed

/-- The code of the statement that initialises a local variable runs to its end, keeps the frame and
leaves in the slot of the variable what its initialiser says. -/
theorem pictured_of_init (link : CodeTarget → Word) {layout : UnitLayout} {c : FunctionContext}
    {f : Function} (of : c.Of layout f) {id : Nat} {v : LocalVar} (found : f.locals[id]? = some v)
    (behind : f.signature.params.length ≤ id) {offset : BitVec 32} (slot : c.offsets[id]? = some offset)
    {i : Initial} {ty : CType} (said : i.read ty 0 = some (v.ty, leaves))
    (completable : ty.isCompletable = true) (yielded : Yielded .automatic strings leaves stores)
    (pointers : ∀ p ∈ leaves, ∀ ty text, p.2 = .address ty text → ty.isPointer = true)
    {loop : Option LoopLabels} {n n' : Label} {code : UnitCode}
    (lowered : stmt c loop (.init id v.ty.isArray stores) n = .ok (code, n'))
    (program rest : UnitCode) (m : Machine) : ∃ m',
      (unitCode link).Reaches program ⟨code ++ rest, m⟩ ⟨rest, m'⟩ ∧ m'.gp .rbp = m.gp .rbp ∧
      Pictured (Leaf.IsStored link layout.strings strings) v.ty.size leaves
        (slotByte m'.memory (m.gp .rbp + offset.signExtend 64) v.ty.size) := by
  obtain ⟨offset', others, slot', stored, rfl⟩ := composed_of_stmt lowered
  cases slot.symm.trans slot'
  obtain ⟨small, displaces⟩ := of.displaces found behind slot
  have placed := of.placed found behind slot said completable
  have runs : Stores link c.toContext offset v.ty.size stores _ :=
    stores_of_yielded yielded displaces pointers placed
  have runs := runs stored program rest
  rw [of.layout] at runs
  have size : ((c.locals[id]?.map fun v => v.ty.size).getD 0) = v.ty.size := by
    rw [of.locals, found]
    rfl
  rw [size]
  cases isArray : v.ty.isArray with
  | true =>
      rw [if_pos rfl, List.append_assoc]
      obtain ⟨m₁, zeroed, frame, zero⟩ := reaches_zeroing link program (others ++ rest) m offset
        (Nat.lt_of_le_of_lt small (by decide))
      obtain ⟨m', reaches, frame', painted⟩ := runs m₁
      rw [frame] at painted
      exact ⟨m', zeroed.trans reaches, frame'.trans frame, painted.pictured placed zero⟩
  | false =>
      rw [if_neg Bool.false_ne_true, List.nil_append]
      obtain ⟨m', reaches, frame, painted⟩ := runs m
      obtain ⟨_, _, _, -, -, same, -⟩ | ⟨_, _, _, _, -, -, -, same, -⟩ | ⟨-, same, leaf, value, rfl⟩ :=
        Initial.read_cases said
      · rw [same] at isArray
        cases isArray
      · rw [same] at isArray
        cases isArray
      · obtain ⟨whole, dirty⟩ := Initial.size_of_leaf? value
        rw [same, ← whole] at painted ⊢
        exact ⟨m', reaches, frame, painted.single dirty⟩

end Lowering
end LiveC
