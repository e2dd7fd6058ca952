import Mathlib.Algebra.Group.Nat.Defs
import LiveC.Lowering.Expression
import LiveC.Machine.Effect
import LiveC.Proofs.Evaluation
import LiveC.Proofs.Labelled

/-!
The machine stack amid an evaluation. Bytes are told apart by how far they lie below the
stack pointer that the evaluation began with: the nearest ones hold the pushed words, those
within the evaluation's room may hold anything, and all others are the program's memory.

Generated code as labelled code, and its straight pieces: instructions that are executed
one after the other.
-/

namespace LiveC
namespace Memory

/-- A written byte is found where it was written, and no other byte changes. -/
theorem read_writeBytes {a x : Word} (m : Memory) (bs : List UInt8) (h : bs.length ≤ 2 ^ 64) :
    (m.writeBytes a bs).read x = bs[(x - a).toNat]?.getD (m.read x) := by
  induction bs generalizing m a with
  | nil => simp [writeBytes]
  | cons b bs ih =>
      rw [List.length_cons] at h
      rw [writeBytes, ih _ (by omega), read_write]
      by_cases hx : x = a
      · have last : (x - (a + 1)).toNat = 2 ^ 64 - 1 := by
          subst hx
          bv_omega
        rw [last, List.getElem?_eq_none (by omega)]
        simp [hx]
      · have next : (x - a).toNat = (x - (a + 1)).toNat + 1 := by bv_omega
        rw [if_neg hx, next, List.getElem?_cons_succ]

theorem read_store {a x : Word} {n : Nat} (m : Memory) (v : Word) (h : n ≤ 8) :
    (m.store a n v).read x = (v.toBytes n)[(x - a).toNat]?.getD (m.read x) :=
  read_writeBytes m _ (by simp only [Word.toBytes, Binary.length_little]; omega)

theorem read_store_of_outside {a x : Word} {n : Nat} (m : Memory) (v : Word) (h : n ≤ 8)
    (outside : n ≤ (x - a).toNat) : (m.store a n v).read x = m.read x := by
  rw [read_store m v h, List.getElem?_eq_none (by simpa [Word.toBytes] using outside),
    Option.getD_none]

theorem load_congr {m m' : Memory} {a : Word} {n : Nat}
    (h : ∀ i < n, m.read (a + BitVec.ofNat 64 i) = m'.read (a + BitVec.ofNat 64 i)) :
    m.load a n = m'.load a n := by
  rw [load, load, readBytes, readBytes]
  congr 1
  exact List.map_congr_left fun i hi => h i (List.mem_range.mp hi)

theorem load_store (m : Memory) (a v : Word) : (m.store a 8 v).load a 8 = v := by
  have bytes : (m.store a 8 v).readBytes a 8 = v.toBytes 8 := by
    apply List.ext_getElem
    · simp [Word.toBytes]
    · intro i hi _
      have hi : i < 8 := by simpa using hi
      have offset : (a + BitVec.ofNat 64 i - a).toNat = i := by bv_omega
      simp only [readBytes, List.getElem_map, List.getElem_range]
      rw [read_store _ _ (by decide), offset,
        List.getElem?_eq_getElem (by simpa [Word.toBytes] using hi), Option.getD_some]
  rw [load, bytes, Word.ofBytes, Word.toBytes, Binary.ofLittle_little]
  exact BitVec.eq_of_toNat_eq (by simp [Nat.mod_eq_of_lt v.isLt])

end Memory

/-- How far a byte lies below the top of a stack; the byte just below it lies at zero. -/
def below (top a : Word) : Nat := (top - 1 - a).toNat

/-- Where the word is stored that was pushed on top of `n` others. -/
def slot (top : Word) (n : Nat) : Word := top - BitVec.ofNat 64 (8 * (n + 1))

/-- The slot on top of `n` words is the eight bytes behind theirs. -/
theorem below_slot {top : Word} {n i : Nat} (h : 8 * (n + 1) ≤ 2 ^ 64) (hi : i < 8) :
    below top (slot top n + BitVec.ofNat 64 i) = 8 * n + 7 - i := by
  simp only [below, slot]
  bv_omega

theorem outside_slot {top a : Word} {n : Nat} (h : 8 * (n + 1) ≤ 2 ^ 64)
    (ha : below top a < 8 * n ∨ 8 * (n + 1) ≤ below top a) : 8 ≤ (a - slot top n).toNat := by
  simp only [below, slot] at *
  bv_omega

/-- The words of a list lie below the top of a stack, the head of the list lowest. -/
def Memory.Stacked (m : Memory) (top : Word) : List Word → Prop
  | [] => True
  | v :: stack => m.load (slot top stack.length) 8 = v ∧ Stacked m top stack

theorem Memory.Stacked.congr {m m' : Memory} {top : Word} {stack : List Word}
    (h : m.Stacked top stack) (room : 8 * stack.length ≤ 2 ^ 64)
    (same : ∀ a, below top a < 8 * stack.length → m'.read a = m.read a) :
    m'.Stacked top stack := by
  induction stack with
  | nil => trivial
  | cons v stack ih =>
      rw [List.length_cons] at room same
      refine ⟨?_, ih h.2 (by omega) fun a ha => same a (by omega)⟩
      rw [← h.1]
      exact load_congr fun i hi => same _ (by rw [below_slot room hi]; omega)

namespace Machine

@[simp] theorem gp_storeAt (m : Machine) (a : Word) (w : Width) (v : Word) (r : Gp) :
    (m.storeAt a w v).gp r = m.gp r := rfl

@[simp] theorem xmm_storeAt (m : Machine) (a : Word) (w : Width) (v : Word) (x : Xmm) :
    (m.storeAt a w v).xmm x = m.xmm x := rfl

theorem gp_push (m : Machine) (v : Word) (r : Gp) :
    (m.push v).gp r = if r = .rsp then m.gp .rsp - 8 else m.gp r := by
  simp only [push, gp_storeAt, gp_setGp]

theorem memory_push (m : Machine) (v : Word) :
    (m.push v).memory = m.memory.store (m.gp .rsp - 8) 8 v := rfl

theorem gp_pop (m : Machine) (r : Gp) :
    m.pop.2.gp r = if r = .rsp then m.gp .rsp + 8 else m.gp r := by
  simp only [pop, gp_setGp]

theorem gp_alu (m : Machine) (op : AluOp) (d : Gp) (v : Word) (r : Gp) :
    (m.alu op d v).gp r = (m.setGp d (op.apply m.flags (m.gp d) v).1).gp r := rfl

end Machine

/-- The registers that the code of an expression works with. -/
def Gp.isScratch : Gp → Bool
  | .rax | .rcx | .rdx => true
  | _ => false

/-- Two machines that differ only in scratch registers and flags. -/
structure Machine.Alike (m m' : Machine) : Prop where
  gp : ∀ r, r.isScratch = false → m'.gp r = m.gp r
  xmm : ∀ x, m'.xmm x = m.xmm x
  memory : m'.memory = m.memory

namespace Machine.Alike

theorem refl (m : Machine) : Alike m m := ⟨fun _ _ => rfl, fun _ => rfl, rfl⟩

theorem trans {m m' m'' : Machine} (h : Alike m m') (h' : Alike m' m'') : Alike m m'' :=
  ⟨fun r hr => (h'.gp r hr).trans (h.gp r hr), fun x => (h'.xmm x).trans (h.xmm x),
    h'.memory.trans h.memory⟩

theorem setGp (m : Machine) {r : Gp} (hr : r.isScratch = true) (v : Word) :
    Alike m (m.setGp r v) := by
  refine ⟨fun s hs => ?_, fun _ => rfl, rfl⟩
  rw [gp_setGp, if_neg]
  rintro rfl
  exact absurd (hr.symm.trans hs) nofun

theorem setFlags (m : Machine) (flags : Flags) : Alike m { m with flags } :=
  ⟨fun _ _ => rfl, fun _ => rfl, rfl⟩

end Machine.Alike

/-- The machine amid an evaluation that began on `start`: it has pushed the words of
`stack`, and outside of `room` bytes below the stack its memory is the program's. -/
structure Amid (start : Machine) (room : Nat) (stack : List Word) (memory : Memory)
    (m : Machine) : Prop where
  room_le : room ≤ 2 ^ 64
  fits : 8 * stack.length ≤ room
  gp : ∀ r, r.isScratch = false → r ≠ .rsp → m.gp r = start.gp r
  xmm : ∀ x, m.xmm x = start.xmm x
  rsp : m.gp .rsp = start.gp .rsp - BitVec.ofNat 64 (8 * stack.length)
  stacked : m.memory.Stacked (start.gp .rsp) stack
  agrees : ∀ a, room ≤ below (start.gp .rsp) a → m.memory.read a = memory.read a

namespace Amid

variable {start m m' : Machine} {room : Nat} {stack : List Word} {memory : Memory}

theorem init (start : Machine) {room : Nat} (h : room ≤ 2 ^ 64) :
    Amid start room [] start.memory start where
  room_le := h
  fits := Nat.zero_le _
  gp _ _ _ := rfl
  xmm _ := rfl
  rsp := by simp
  stacked := trivial
  agrees _ _ := rfl

theorem alike (h : Amid start room stack memory m) (same : m.Alike m') :
    Amid start room stack memory m' where
  room_le := h.room_le
  fits := h.fits
  gp r hr hs := (same.gp r hr).trans (h.gp r hr hs)
  xmm x := (same.xmm x).trans (h.xmm x)
  rsp := (same.gp .rsp rfl).trans h.rsp
  stacked := by rw [same.memory]; exact h.stacked
  agrees a ha := by rw [same.memory]; exact h.agrees a ha

theorem setGp (h : Amid start room stack memory m) {r : Gp} (hr : r.isScratch = true)
    (v : Word) : Amid start room stack memory (m.setGp r v) := h.alike (.setGp m hr v)

theorem push (h : Amid start room stack memory m) (v : Word)
    (fits : 8 * (stack.length + 1) ≤ room) :
    Amid start room (v :: stack) memory (m.push v) := by
  have le := h.room_le
  have top : m.gp .rsp - 8 = slot (start.gp .rsp) stack.length := by
    rw [h.rsp, slot]
    bv_omega
  have pushed : (m.push v).memory = m.memory.store (slot (start.gp .rsp) stack.length) 8 v := by
    rw [Machine.memory_push, top]
  have outside (a : Word) (ha : below (start.gp .rsp) a < 8 * stack.length ∨
      8 * (stack.length + 1) ≤ below (start.gp .rsp) a) :
      (m.push v).memory.read a = m.memory.read a := by
    rw [pushed]
    exact Memory.read_store_of_outside _ _ (by omega) (outside_slot (by omega) ha)
  exact {
    room_le := le
    fits := fits
    gp := fun r hr hs => by rw [Machine.gp_push, if_neg hs, h.gp r hr hs]
    xmm := h.xmm
    rsp := by rw [Machine.gp_push, if_pos rfl, top, slot, List.length_cons]
    stacked := ⟨by rw [pushed]; exact Memory.load_store _ _ _,
      h.stacked.congr (by omega) fun a ha => outside a (.inl ha)⟩
    agrees := fun a ha => (outside a (.inr (by omega))).trans (h.agrees a ha) }

theorem pop {v : Word} (h : Amid start room (v :: stack) memory m) :
    m.pop.1 = v ∧ Amid start room stack memory m.pop.2 := by
  have fits := h.fits
  have le := h.room_le
  rw [List.length_cons] at fits
  have top : m.gp .rsp = slot (start.gp .rsp) stack.length := h.rsp
  refine ⟨?_, ?_⟩
  · change m.memory.load (m.gp .rsp) 8 = v
    rw [top]
    exact h.stacked.1
  · exact {
      room_le := le
      fits := by omega
      gp := fun r hr hs => by rw [Machine.gp_pop, if_neg hs, h.gp r hr hs]
      xmm := h.xmm
      rsp := by
        rw [Machine.gp_pop, if_pos rfl, top, slot]
        bv_omega
      stacked := h.stacked.2
      agrees := h.agrees }

/-- The word below the head of the stack. -/
theorem load_second {v w : Word} (h : Amid start room (v :: w :: stack) memory m) :
    m.memory.load (m.gp .rsp + 8) 8 = w := by
  have next : m.gp .rsp + 8 = slot (start.gp .rsp) stack.length := by
    rw [h.rsp, slot]
    simp only [List.length_cons]
    bv_omega
  rw [next]
  exact h.stacked.2.1

/-- Outside of the room the machine finds the program's memory. -/
theorem load (h : Amid start room stack memory m) {a : Word} {n : Nat}
    (outside : ∀ i < n, room ≤ below (start.gp .rsp) (a + BitVec.ofNat 64 i)) :
    m.memory.load a n = memory.load a n :=
  Memory.load_congr fun i hi => h.agrees _ (outside i hi)

theorem store (h : Amid start room stack memory m) {a : Word} {w : Width} (v : Word)
    (outside : ∀ i < w.bytes, room ≤ below (start.gp .rsp) (a + BitVec.ofNat 64 i)) :
    Amid start room stack (memory.store a w.bytes v) (m.storeAt a w v) := by
  have size : w.bytes ≤ 8 := by cases w <;> decide
  have other (x : Word) (hx : below (start.gp .rsp) x < 8 * stack.length) :
      (m.memory.store a w.bytes v).read x = m.memory.read x := by
    refine Memory.read_store_of_outside _ _ size (Nat.le_of_not_lt fun lt => ?_)
    have ho := outside _ lt
    rw [BitVec.ofNat_toNat, BitVec.setWidth_eq, BitVec.add_comm, BitVec.sub_add_cancel] at ho
    have fits := h.fits
    omega
  exact {
    room_le := h.room_le
    fits := h.fits
    gp := h.gp
    xmm := h.xmm
    rsp := h.rsp
    stacked := h.stacked.congr (Nat.le_trans h.fits h.room_le) other
    agrees := fun x hx => by
      change (m.memory.store a w.bytes v).read x = _
      rw [Memory.read_store _ _ size, Memory.read_store _ _ size, h.agrees x hx] }

end Amid
end LiveC

/-! ## Straight code -/

namespace LiveC
namespace Lowering

/-- Generated code, given the addresses that linking fills in. -/
def unitCode (link : CodeTarget → Word) : Language (Piece Reference) where
  label?
    | .label l => some l
    | _ => none
  effect
    | .label _, m => .ok (m, .next)
    | .instr i, m => i.effect m
    | .linked (.address d) ref, m => .ok (m.setGp d (link ref.target), .next)
    | .linked .call ref, m => .ok (m, .callTo (link ref.target))

/-- The machine behind instructions that are executed one after the other. -/
def straight : List (Instruction Label) → Machine → Except Halt Machine
  | [], m => .ok m
  | i :: is, m =>
      match i.effect m with
      | .ok (m', .next) => straight is m'
      | .ok (_, flow) => .error (.leaves flow)
      | .error f => .error (.fault f)

theorem straight_cons {i : Instruction Label} {is : List (Instruction Label)} {m m' : Machine}
    (h : i.effect m = .ok (m', .next)) : straight (i :: is) m = straight is m' := by
  simp only [straight, h]

/-- Either an instruction leads to the next, or it ends the run whatever is behind it. -/
theorem straight_cases (i : Instruction Label) (m : Machine) :
    (∃ m', i.effect m = .ok (m', .next)) ∨
      ∃ halt, (∀ f, halt = .fault f → i.effect m = .error f) ∧
        ∀ is, straight (i :: is) m = .error halt := by
  cases h : i.effect m with
  | error f =>
      exact .inr ⟨.fault f, fun _ e => by rw [Halt.fault.inj e],
        fun is => by simp only [straight, h]⟩
  | ok r =>
      obtain ⟨m', flow⟩ := r
      by_cases next : flow = .next
      · exact .inl ⟨m', by rw [next]⟩
      · refine .inr ⟨.leaves flow, nofun, fun is => ?_⟩
        simp only [straight, h]

theorem straight_append {is js : List (Instruction Label)} {m m' : Machine}
    (h : straight is m = .ok m') : straight (is ++ js) m = straight js m' := by
  induction is generalizing m with
  | nil => cases h; rfl
  | cons i is ih =>
      obtain ⟨m₁, hi⟩ | ⟨halt, -, ends⟩ := straight_cases i m
      · rw [List.cons_append, straight_cons hi]
        exact ih ((straight_cons hi).symm.trans h)
      · exact absurd ((ends is).symm.trans h) nofun

theorem straight_append_error {is js : List (Instruction Label)} {m : Machine} {halt : Halt}
    (h : straight is m = .error halt) : straight (is ++ js) m = .error halt := by
  induction is generalizing m with
  | nil => cases h
  | cons i is ih =>
      obtain ⟨m₁, hi⟩ | ⟨halt, -, ends⟩ := straight_cases i m
      · rw [List.cons_append, straight_cons hi]
        exact ih ((straight_cons hi).symm.trans h)
      · exact (ends (is ++ js)).trans ((ends is).symm.trans h)

variable {link : CodeTarget → Word} {program : UnitCode}

theorem reaches_block {is : List (Instruction Label)} {m m' : Machine} {rest : UnitCode}
    (h : straight is m = .ok m') :
    (unitCode link).Reaches program ⟨block is ++ rest, m⟩ ⟨rest, m'⟩ := by
  induction is generalizing m with
  | nil => cases h; exact .refl _
  | cons i is ih =>
      obtain ⟨m₁, hi⟩ | ⟨halt, -, ends⟩ := straight_cases i m
      · exact (Language.reaches_next hi).trans (ih ((straight_cons hi).symm.trans h))
      · exact absurd ((ends is).symm.trans h) nofun

theorem halts_block {is : List (Instruction Label)} {m : Machine} {rest : UnitCode} {f : Fault}
    (h : straight is m = .error (.fault f)) :
    (unitCode link).Halts program ⟨block is ++ rest, m⟩ (.fault f) := by
  induction is generalizing m with
  | nil => cases h
  | cons i is ih =>
      obtain ⟨m₁, hi⟩ | ⟨halt, faults, ends⟩ := straight_cases i m
      · exact .of_reaches (Language.reaches_next hi) (ih ((straight_cons hi).symm.trans h))
      · cases (ends is).symm.trans h
        exact Language.halts_fault (faults f rfl)

/-! ### Extensions and constants -/

theorem setGp_gp (m : Machine) (r : Gp) : m.setGp r (m.gp r) = m := by
  simp only [Machine.setGp, Machine.gp, Fin.getElem_fin, Vector.set_getElem_self]

theorem straight_extension (r : Gp) (t : IntType) (m : Machine) :
    straight (extension r t) m = .ok (m.setGp r (t.wrap (m.gp r))) := by
  obtain ⟨w, s⟩ := t
  unfold extension
  split
  case isTrue hw =>
    obtain rfl : w = .w64 := hw
    rw [IntType.wrap_w64, setGp_gp]
    rfl
  case isFalse => rfl

/-- Straight code leaves a word in `rax` and changes nothing but scratch registers. -/
def Computes (is : List (Instruction Label)) (m : Machine) (v : Word) : Prop :=
  ∃ m', straight is m = .ok m' ∧ m.Alike m' ∧ m'.gp .rax = v

theorem Computes.append {is js : List (Instruction Label)} {m : Machine} {v w : Word}
    (h : Computes is m v) (hj : ∀ m', m.Alike m' → m'.gp .rax = v → Computes js m' w) :
    Computes (is ++ js) m w := by
  obtain ⟨m₁, run, alike, value⟩ := h
  obtain ⟨m₂, run', alike', value'⟩ := hj m₁ alike value
  exact ⟨m₂, (straight_append run).trans run', alike.trans alike', value'⟩

theorem Computes.extension {is : List (Instruction Label)} {m : Machine} {v : Word}
    (h : Computes is m v) (t : IntType) :
    Computes (is ++ Lowering.extension .rax t) m (t.wrap v) := by
  refine h.append fun m' _ value => ⟨_, straight_extension .rax t m', .setGp m' rfl _, ?_⟩
  rw [Machine.gp_setGp, if_pos rfl, value]

/-- An instruction that sets `rax`, and perhaps the flags. -/
theorem Computes.single {i : Instruction Label} {m : Machine} {v : Word} (flags : Flags)
    (h : i.effect m = .ok ({ m.setGp .rax v with flags }, .next)) : Computes [i] m v := by
  refine ⟨_, straight_cons h, (Machine.Alike.setGp m rfl v).trans (.setFlags _ flags), ?_⟩
  change (m.setGp .rax v).gp .rax = v
  rw [Machine.gp_setGp, if_pos rfl]

theorem computes_settingWord (m : Machine) (v : Word) :
    Computes [Assembling.settingWord .rax v] m v := by
  unfold Assembling.settingWord
  split
  case isTrue hv =>
    subst hv
    exact .single _ rfl
  case isFalse => exact .single _ rfl

end Lowering
end LiveC
