import LiveC.Host.Call
import LiveC.Proofs.Sequence
import Mathlib.Data.List.Count

/-!
Registers of arguments. Each bank counts on its own, so the register of an argument is told by how
many arguments of its bank stand in front of it. All who pass arguments take registers this way,
and a call from outside is refused only if its arguments do not match or do not fit.
-/

namespace LiveC

namespace Bank

/-- The register of a bank for the argument behind so many others of the bank. -/
def register? : Bank → Nat → Option Register
  | .general, n => (ArgumentRegisters.generalRegisters[n]?).map .gp
  | .vector, n => (ArgumentRegisters.vectorRegisters[n]?).map .xmm

/-- How many arguments the registers of a bank take. -/
def capacity : Bank → Nat
  | .general => 6
  | .vector => 8

variable {b b' : Bank} {n n' : Nat} {r : Register}

theorem isSome_register? : (b.register? n).isSome = true ↔ n < b.capacity := by
  cases b with
  | general => simp [register?, capacity, ArgumentRegisters.generalRegisters]
  | vector => simp [register?, capacity, show ArgumentRegisters.vectorRegisters.length = 8 from rfl]

/-- No register serves two arguments. -/
theorem register?_injective (h : b.register? n = some r) (h' : b'.register? n' = some r) :
    b = b' ∧ n = n' := by
  have general : ArgumentRegisters.generalRegisters.Nodup := by decide
  have vector : ArgumentRegisters.vectorRegisters.Nodup := by decide
  cases b <;> cases b' <;> obtain ⟨x, hx, rfl⟩ := Option.map_eq_some_iff.mp h <;>
    obtain ⟨y, hy, same⟩ := Option.map_eq_some_iff.mp h'
  case general.general =>
    cases same
    obtain ⟨bound, -⟩ := List.getElem?_eq_some_iff.mp hx
    exact ⟨rfl, (List.getElem?_inj bound general).mp (hx.trans hy.symm)⟩
  case vector.vector =>
    cases same
    obtain ⟨bound, -⟩ := List.getElem?_eq_some_iff.mp hx
    exact ⟨rfl, (List.getElem?_inj bound vector).mp (hx.trans hy.symm)⟩
  all_goals cases same

/-- Arguments are passed neither in the register of a result nor in those of the stack. -/
theorem register?_ne (h : b.register? n = some r) :
    r ≠ .gp .rax ∧ r ≠ .gp .rsp ∧ r ≠ .gp .rbp := by
  cases b with
  | general =>
      obtain ⟨g, found, rfl⟩ := Option.map_eq_some_iff.mp h
      have all : ∀ g ∈ ArgumentRegisters.generalRegisters, Register.gp g ≠ .gp .rax ∧
        Register.gp g ≠ .gp .rsp ∧ Register.gp g ≠ .gp .rbp := by decide
      exact all g (List.mem_of_getElem? found)
  | vector =>
      obtain ⟨x, -, rfl⟩ := Option.map_eq_some_iff.mp h
      exact ⟨nofun, nofun, nofun⟩

end Bank

/-- The register of an argument, by the banks that pass the arguments. -/
def argumentRegister? (banks : List Bank) (i : Nat) : Option Register := do
  let b ← banks[i]?
  b.register? ((banks.take i).count b)

namespace ArgumentRegisters

variable {a last : ArgumentRegisters} {banks : List Bank} {rs : List Register}

/-- How many registers of a bank are taken. -/
def taken (a : ArgumentRegisters) : Bank → Nat
  | .general => a.general
  | .vector => a.vector

/-- Takes another register of a bank. -/
def take (a : ArgumentRegisters) : Bank → ArgumentRegisters
  | .general => { a with general := a.general + 1 }
  | .vector => { a with vector := a.vector + 1 }

theorem assign?_eq (a : ArgumentRegisters) (b : Bank) :
    a.assign? b = (b.register? (a.taken b)).map fun r => (r, a.take b) := by
  cases b <;> simp [assign?, Bank.register?, taken, take, Function.comp_def]

theorem taken_take (a : ArgumentRegisters) (b b' : Bank) :
    (a.take b).taken b' = a.taken b' + if b = b' then 1 else 0 := by
  cases b <;> cases b' <;> rfl

theorem assignAll?_cons {b : Bank} : a.assignAll? (b :: banks) = some (rs, last) ↔
    ∃ r others, b.register? (a.taken b) = some r ∧
      (a.take b).assignAll? banks = some (others, last) ∧ rs = r :: others := by
  simp only [assignAll?, assign?_eq, Option.bind_eq_bind, Option.bind_eq_some_iff,
    Option.pure_def, Option.some.injEq, Option.map_eq_some_iff, Prod.exists, Prod.mk.injEq]
  constructor
  · rintro ⟨_, _, ⟨r, found, rfl, rfl⟩, others, _, assigned, rfl, rfl⟩
    exact ⟨r, others, found, assigned, rfl⟩
  · rintro ⟨r, others, found, assigned, rfl⟩
    exact ⟨_, _, ⟨r, found, rfl, rfl⟩, others, last, assigned, rfl, rfl⟩

/-- The register of each argument behind those that are taken. -/
theorem getElem?_assignAll? (h : a.assignAll? banks = some (rs, last)) (i : Nat) :
    rs[i]? = banks[i]?.bind fun b => b.register? (a.taken b + (banks.take i).count b) := by
  induction banks generalizing a rs i with
  | nil =>
      cases h
      rfl
  | cons b banks ih =>
      obtain ⟨r, others, found, assigned, rfl⟩ := assignAll?_cons.1 h
      cases i with
      | zero => exact found.symm
      | succ i =>
          rw [List.getElem?_cons_succ, List.getElem?_cons_succ, ih assigned, List.take_succ_cons]
          congr 1
          funext b'
          congr 1
          rw [taken_take, List.count_cons]
          simp only [beq_iff_eq]
          omega

theorem getElem?_registers (h : assignAll? {} banks = some (rs, last)) (i : Nat) :
    rs[i]? = argumentRegister? banks i := by
  rw [getElem?_assignAll? h]
  unfold argumentRegister?
  congr 1
  funext b
  cases b <;> simp [taken]

theorem length_assignAll? (h : a.assignAll? banks = some (rs, last)) :
    rs.length = banks.length := by
  induction banks generalizing a rs with
  | nil =>
      cases h
      rfl
  | cons b banks ih =>
      obtain ⟨r, others, -, assigned, rfl⟩ := assignAll?_cons.1 h
      exact congrArg Nat.succ (ih assigned)

/-- Registers are taken in order. -/
theorem register_of_mem (h : a.assignAll? banks = some (rs, last)) {r : Register}
    (member : r ∈ rs) : ∃ b n, a.taken b ≤ n ∧ b.register? n = some r := by
  obtain ⟨i, found⟩ := List.mem_iff_getElem?.mp member
  obtain ⟨b, -, register⟩ := Option.bind_eq_some_iff.mp ((getElem?_assignAll? h i).symm.trans found)
  exact ⟨b, _, Nat.le_add_right .., register⟩

theorem nodup_assignAll? (h : a.assignAll? banks = some (rs, last)) : rs.Nodup := by
  induction banks generalizing a rs with
  | nil =>
      cases h
      exact List.nodup_nil
  | cons b banks ih =>
      obtain ⟨r, others, found, assigned, rfl⟩ := assignAll?_cons.1 h
      refine List.nodup_cons.mpr ⟨fun again => ?_, ih assigned⟩
      obtain ⟨b', n, later, register⟩ := register_of_mem assigned again
      obtain ⟨rfl, rfl⟩ := Bank.register?_injective found register
      rw [taken_take, if_pos rfl] at later
      omega

/-- There are registers for all arguments that the banks have room for. -/
theorem assignAll?_isSome_iff (room : ∀ b, a.taken b ≤ b.capacity) :
    (∃ rs last, a.assignAll? banks = some (rs, last)) ↔
      ∀ b, a.taken b + banks.count b ≤ b.capacity := by
  induction banks generalizing a with
  | nil => simpa [assignAll?] using room
  | cons b banks ih =>
      have count (b' : Bank) : a.taken b' + (b :: banks).count b' =
          (a.take b).taken b' + banks.count b' := by
        rw [taken_take, List.count_cons]
        simp only [beq_iff_eq]
        omega
      simp only [count]
      by_cases free : a.taken b < b.capacity
      · obtain ⟨r, found⟩ := Option.isSome_iff_exists.mp (Bank.isSome_register?.mpr free)
        have room' : ∀ b', (a.take b).taken b' ≤ b'.capacity := by
          intro b'
          have := room b'
          rw [taken_take]
          split
          case isTrue same =>
            subst same
            exact free
          case isFalse => exact this
        rw [← ih room']
        constructor
        · rintro ⟨_, last, h⟩
          obtain ⟨_, others, -, assigned, -⟩ := assignAll?_cons.1 h
          exact ⟨others, last, assigned⟩
        · rintro ⟨others, last, assigned⟩
          exact ⟨_, last, assignAll?_cons.2 ⟨r, others, found, assigned, rfl⟩⟩
      · constructor
        · rintro ⟨_, last, h⟩
          obtain ⟨_, _, found, -, -⟩ := assignAll?_cons.1 h
          exact absurd (Bank.isSome_register?.mp (Option.isSome_iff_exists.mpr ⟨_, found⟩)) free
        · intro fits
          have := fits b
          rw [taken_take, if_pos rfl] at this
          omega

end ArgumentRegisters

/-! ### Arguments from outside -/

theorem marshal_cons {a : ArgumentRegisters} {number : Nat} {v : Value} {args : List Value}
    {placed : List (Register × Word)} : a.marshal number (v :: args) = .ok placed ↔
      ∃ b r others, v.bank? = some b ∧ b.register? (a.taken b) = some r ∧
        (a.take b).marshal (number + 1) args = .ok others ∧ placed = (r, v.bits) :: others := by
  rw [ArgumentRegisters.marshal]
  cases passed : v.bank? with
  | none => exact ⟨nofun, fun ⟨_, _, _, same, _⟩ => by cases same⟩
  | some b =>
      dsimp only
      rw [ArgumentRegisters.assign?_eq]
      cases found : b.register? (a.taken b) with
      | none =>
          refine ⟨nofun, ?_⟩
          rintro ⟨_, _, _, ⟨⟩, register, -⟩
          cases found.symm.trans register
      | some r =>
          dsimp only [Option.map_some]
          constructor
          · intro h
            cases run : (a.take b).marshal (number + 1) args with
            | error e =>
                rw [run] at h
                cases h
            | ok others =>
                rw [run] at h
                cases h
                exact ⟨b, r, others, rfl, found, run, rfl⟩
          · rintro ⟨_, _, others, ⟨⟩, register, run, rfl⟩
            cases found.symm.trans register
            rw [run]
            rfl

/-- Marshalling puts every argument into the register of its bank. -/
theorem marshal_eq_ok_iff {a : ArgumentRegisters} {number : Nat} {args : List Value}
    {placed : List (Register × Word)} : a.marshal number args = .ok placed ↔
      ∃ banks rs last, banks.map some = args.map Value.bank? ∧
        a.assignAll? banks = some (rs, last) ∧ placed = rs.zip (args.map Value.bits) := by
  induction args generalizing a number placed with
  | nil =>
      rw [ArgumentRegisters.marshal, Except.ok.injEq]
      constructor
      · rintro rfl
        exact ⟨[], [], a, rfl, rfl, rfl⟩
      · rintro ⟨_, _, _, -, -, rfl⟩
        exact (List.zip_nil_right).symm
  | cons v args ih =>
      rw [marshal_cons]
      constructor
      · rintro ⟨b, r, others, passed, found, run, rfl⟩
        obtain ⟨banks, rs, last, same, assigned, rfl⟩ := ih.mp run
        refine ⟨b :: banks, r :: rs, last, ?_,
          ArgumentRegisters.assignAll?_cons.2 ⟨r, rs, found, assigned, rfl⟩, rfl⟩
        rw [List.map_cons, List.map_cons, passed, same]
      · rintro ⟨_, _, last, same, assigned, rfl⟩
        obtain ⟨b, banks, rfl, passed, same⟩ := List.map_eq_cons_iff.mp same
        obtain ⟨r, rs, found, others, rfl⟩ := ArgumentRegisters.assignAll?_cons.1 assigned
        exact ⟨b, r, _, passed.symm, found, ih.mpr ⟨banks, rs, last, same, others, rfl⟩, rfl⟩

/-- No argument is of another class than its parameter. -/
theorem mismatch?_eq_none {kinds : List ValueKind} {args : List Value} {number : Nat} :
    CallShape.mismatch? number kinds args = none ↔
      ∀ (i : Nat) (k : ValueKind) (v : Value), kinds[i]? = some k → args[i]? = some v →
        v.bank? = some k.bank := by
  induction kinds generalizing args number with
  | nil => exact ⟨fun _ _ _ _ => nofun, fun _ => rfl⟩
  | cons k kinds ih =>
      cases args with
      | nil => exact ⟨fun _ _ _ _ _ => nofun, fun _ => rfl⟩
      | cons v args =>
          rw [CallShape.mismatch?]
          split
          case isTrue same =>
            rw [ih]
            constructor
            · rintro h (_ | i) k' v' hk hv
              · cases hk
                cases hv
                exact same
              · exact h i k' v' hk hv
            · exact fun h i => h (i + 1)
          case isFalse other => exact ⟨nofun, fun h => absurd (h 0 k v rfl rfl) other⟩

/-- A signature allows arguments of this number and of these classes. -/
structure CallShape.Accepts (shape : CallShape) (args : List Value) : Prop where
  count : if shape.variadic then shape.params.length ≤ args.length
    else args.length = shape.params.length
  classes : ∀ (i : Nat) (k : ValueKind) (v : Value), shape.params[i]? = some k →
    args[i]? = some v → v.bank? = some k.bank

theorem CallShape.check_eq_ok {shape : CallShape} {args : List Value} :
    shape.check args = .ok () ↔ shape.Accepts args := by
  have count : shape.takes args.length = true ↔ if shape.variadic then
      shape.params.length ≤ args.length else args.length = shape.params.length := by
    unfold takes
    cases shape.variadic <;> simp
  unfold check
  cases taken : shape.takes args.length with
  | false =>
      refine ⟨nofun, fun accepts => ?_⟩
      rw [count.mpr accepts.count] at taken
      cases taken
  | true =>
      cases found : mismatch? 1 shape.params args with
      | none => exact ⟨fun _ => ⟨count.mp taken, mismatch?_eq_none.mp found⟩, fun _ => rfl⟩
      | some e =>
          refine ⟨nofun, fun accepts => ?_⟩
          rw [mismatch?_eq_none.mpr accepts.classes] at found
          cases found

namespace Host

variable {s : LoadedSymbol} {args : List Value}

theorem arguments_eq_ok {placed : List (Register × Word)} : arguments s args = .ok placed ↔
    (∀ shape, s.shape = some shape → shape.Accepts args) ∧
      ArgumentRegisters.marshal {} 1 args = .ok placed := by
  unfold arguments
  cases s.shape with
  | none => exact ⟨fun h => ⟨nofun, h⟩, And.right⟩
  | some shape =>
      constructor
      · intro h
        obtain ⟨_, checked, h⟩ := ok_of_bind h
        exact ⟨fun _ same => Option.some.inj same ▸ CallShape.check_eq_ok.mp checked, h⟩
      · rintro ⟨accepts, h⟩
        exact (except_bind_of_ok (CallShape.check_eq_ok.mpr (accepts shape rfl))).trans h

/-- Arguments of these banks find registers if there are not too many. -/
theorem exists_assignAll?_iff {banks : List Bank} :
    (∃ rs last, ArgumentRegisters.assignAll? {} banks = some (rs, last)) ↔
      ∀ b : Bank, banks.count b ≤ b.capacity := by
  have none (b : Bank) : ({} : ArgumentRegisters).taken b = 0 := by cases b <;> rfl
  have fits := @ArgumentRegisters.assignAll?_isSome_iff {} banks fun b =>
    Nat.le_trans (Nat.le_of_eq (none b)) (Nat.zero_le _)
  simpa only [none, Nat.zero_add] using fits

theorem map_some_filterMap_bank? (noVoid : ∀ v ∈ args, v ≠ .void) :
    (args.filterMap Value.bank?).map some = args.map Value.bank? := by
  induction args with
  | nil => rfl
  | cons v args ih =>
      obtain ⟨first, others⟩ := List.forall_mem_cons.mp noVoid
      cases v with
      | void => exact absurd rfl first
      | int | ptr | float => exact congrArg (_ :: ·) (ih others)

/-- Arguments are put into registers exactly if the signature, where one is known, allows them,
none is without a value, and the registers of each bank suffice. -/
theorem arguments_succeeds_iff : (∃ placed, arguments s args = .ok placed) ↔
    (∀ shape, s.shape = some shape → shape.Accepts args) ∧ (∀ v ∈ args, v ≠ .void) ∧
      ∀ b : Bank, (args.filterMap Value.bank?).count b ≤ b.capacity := by
  simp only [arguments_eq_ok, exists_and_left, marshal_eq_ok_iff]
  refine and_congr_right fun _ => ?_
  constructor
  · rintro ⟨_, banks, same, rs, last, assigned, -⟩
    refine ⟨fun v member => ?_, fun b => ?_⟩
    · obtain ⟨b, -, found⟩ := List.mem_map.mp (same.symm ▸ List.mem_map_of_mem member)
      rintro rfl
      cases found
    · have passed : args.filterMap Value.bank? = banks := by
        have ids := congrArg (List.filterMap id) same
        rwa [List.filterMap_map, List.filterMap_map, Function.id_comp, Function.id_comp,
          List.filterMap_some, eq_comm] at ids
      rw [passed]
      exact exists_assignAll?_iff.mp ⟨rs, last, assigned⟩ b
  · rintro ⟨noVoid, bound⟩
    obtain ⟨rs, last, assigned⟩ := exists_assignAll?_iff.mpr bound
    exact ⟨_, _, map_some_filterMap_bank? noVoid, rs, last, assigned, rfl⟩

end Host

end LiveC
