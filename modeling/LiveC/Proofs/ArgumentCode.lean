import LiveC.Proofs.ArgumentRegisters
import LiveC.Proofs.Straight
import Mathlib.Data.List.Nodup

/-!
Arguments on their way into registers. The code of a call pushes the value of each argument and
pops the last one first, so that at the call every argument is in the register that its position
gives it; a call from outside puts it there at once.
-/

namespace LiveC

namespace Machine

/-- The contents of a register of either bank. -/
def word (m : Machine) : Register → Word
  | .gp r => m.gp r
  | .xmm x => (m.xmm x).bits

variable {m m' : Machine} {r s : Register}

theorem word_setRegister (m : Machine) (r s : Register) (v : Word) :
    (m.setRegister r v).word s = if s = r then v else m.word s := by
  cases r with
  | gp r =>
      cases s with
      | gp s => simp only [setRegister, word, gp_setGp, Register.gp.injEq]
      | xmm s => rfl
  | xmm r =>
      cases s with
      | gp s => rfl
      | xmm s =>
          simp only [setRegister, word, xmm_setXmm, Register.xmm.injEq]
          split <;> rfl

theorem word_setGp (m : Machine) {g : Gp} (v : Word) (h : r ≠ .gp g) :
    (m.setGp g v).word r = m.word r :=
  (word_setRegister m (.gp g) r v).trans (if_neg h)

theorem word_storeAt (m : Machine) (a : Word) (w : Width) (v : Word) (r : Register) :
    (m.storeAt a w v).word r = m.word r := by
  cases r with
  | gp r => exact gp_storeAt ..
  | xmm x => exact congrArg Double.bits (xmm_storeAt ..)

theorem word_push (m : Machine) (v : Word) (h : r ≠ .gp .rsp) : (m.push v).word r = m.word r := by
  cases r with
  | gp r => exact (gp_push m v r).trans (if_neg (mt (congrArg Register.gp) h))
  | xmm x => rfl

theorem word_pop (m : Machine) (h : r ≠ .gp .rsp) : m.pop.2.word r = m.word r := by
  cases r with
  | gp r => exact (gp_pop m r).trans (if_neg (mt (congrArg Register.gp) h))
  | xmm x => rfl

/-- The registers of arguments hold the words that are passed. -/
def HoldsArguments (m : Machine) (banks : List Bank) (words : List Word) : Prop :=
  ∀ i r, argumentRegister? banks i = some r → words[i]? = some (m.word r)

/-- Entering a function keeps the arguments. -/
theorem HoldsArguments.push {banks : List Bank} {words : List Word}
    (h : m.HoldsArguments banks words) (back : Word) :
    (m.push back).HoldsArguments banks words := by
  intro i r register
  obtain ⟨b, -, found⟩ := Option.bind_eq_some_iff.mp register
  rw [word_push m back (Bank.register?_ne found).2.1]
  exact h i r register

theorem argumentRegister?_start {banks others : List Bank} {i : Nat}
    (start : banks <+: others) (register : argumentRegister? banks i = some r) :
    argumentRegister? others i = some r := by
  obtain ⟨rest, rfl⟩ := start
  obtain ⟨b, inside, found⟩ := Option.bind_eq_some_iff.mp register
  obtain ⟨bound, -⟩ := List.getElem?_eq_some_iff.mp inside
  unfold argumentRegister?
  rw [List.getElem?_append_left bound, List.take_append_of_le_length (Nat.le_of_lt bound)]
  exact register

/-- What follows the arguments of parameters does not change their registers. -/
theorem HoldsArguments.of_start {banks others : List Bank} {words : List Word}
    (h : m.HoldsArguments others words) (start : banks <+: others) :
    m.HoldsArguments banks words :=
  fun i r register => h i r (argumentRegister?_start start register)

/-- Registers that are set one after the other. -/
def setRegisters (m : Machine) (placed : List (Register × Word)) : Machine :=
  placed.foldl (fun m (r, v) => m.setRegister r v) m

theorem word_setRegisters_of_not_mem {placed : List (Register × Word)}
    (h : r ∉ placed.map Prod.fst) (m : Machine) : (m.setRegisters placed).word r = m.word r := by
  induction placed generalizing m with
  | nil => rfl
  | cons p placed ih =>
      rw [List.map_cons, List.mem_cons, not_or] at h
      exact (ih h.2 _).trans ((word_setRegister ..).trans (if_neg h.1))

theorem word_setRegisters {rs : List Register} {words : List Word} (distinct : rs.Nodup)
    (same : rs.length = words.length) {i : Nat} (found : rs[i]? = some r) (m : Machine) :
    words[i]? = some ((m.setRegisters (rs.zip words)).word r) := by
  induction rs generalizing words i m with
  | nil => cases found
  | cons s rs ih =>
      obtain ⟨fresh, distinct⟩ := List.nodup_cons.mp distinct
      obtain _ | ⟨w, words⟩ := words
      · cases same
      · have same' : rs.length = words.length := Nat.succ.inj same
        cases i with
        | zero =>
            cases found
            have outside : r ∉ (rs.zip words).map Prod.fst := fun member =>
              fresh ((List.map_fst_zip (Nat.le_of_eq same')) ▸ member)
            have kept := word_setRegisters_of_not_mem outside (m.setRegister r w)
            rw [word_setRegister, if_pos rfl] at kept
            exact congrArg some kept.symm
        | succ i => exact ih distinct same' found (m.setRegister s w)

end Machine

open ArgumentRegisters in
/-- A call from outside places arguments where the function looks for them. -/
theorem Host.enter_holds {σ : Type} {banks : List Bank} {rs : List Register}
    {last : ArgumentRegisters} (assigned : assignAll? {} banks = some (rs, last))
    {words : List Word} (same : banks.length = words.length) (h : Host σ) (address : Word) :
    (h.enter address (rs.zip words)).machine.HoldsArguments banks words := by
  refine Machine.HoldsArguments.push (fun i r register => ?_) exitAddress
  rw [← getElem?_registers assigned] at register
  exact Machine.word_setRegisters (nodup_assignAll? assigned)
    ((length_assignAll? assigned).trans same) register _

namespace Lowering

/-! ### Words on the stack -/

/-- The words that code has pushed since the stack pointer was at `top`, the last one first. -/
structure Piled (top : Word) (stack : List Word) (m : Machine) : Prop where
  rsp : m.gp .rsp = top - BitVec.ofNat 64 (8 * stack.length)
  stacked : m.memory.Stacked top stack

variable {top v : Word} {stack words : List Word} {m m' : Machine} {rs : List Register}

theorem Piled.setGp (h : Piled top stack m) {r : Gp} (other : r ≠ .rsp) (v : Word) :
    Piled top stack (m.setGp r v) :=
  ⟨((Machine.gp_setGp m r .rsp v).trans (if_neg (Ne.symm other))).trans h.rsp, h.stacked⟩

theorem Piled.push (h : Piled top stack m) (v : Word) (room : 8 * (stack.length + 1) ≤ 2 ^ 64) :
    Piled top (v :: stack) (m.push v) := by
  have place : m.gp .rsp - 8 = slot top stack.length := by
    rw [h.rsp, slot]
    bv_omega
  have pushed : (m.push v).memory = m.memory.store (slot top stack.length) 8 v := by
    rw [Machine.memory_push, place]
  refine ⟨?_, ?_, ?_⟩
  · rw [Machine.gp_push, if_pos rfl, place]
    rfl
  · rw [pushed]
    exact Memory.load_store ..
  · rw [pushed]
    refine h.stacked.congr (by omega) fun a inside => ?_
    exact Memory.read_store_of_outside _ _ (Nat.le_refl 8) (outside_slot room (.inl inside))

theorem Piled.pop (h : Piled top (v :: stack) m) : m.pop.1 = v ∧ Piled top stack m.pop.2 := by
  have place : m.gp .rsp = slot top stack.length := h.rsp
  refine ⟨?_, ?_, h.stacked.2⟩
  · change m.memory.load (m.gp .rsp) 8 = v
    rw [place]
    exact h.stacked.1
  · rw [Machine.gp_pop, if_pos rfl, place, slot]
    bv_omega

/-! ### Popping -/

/-- One argument goes from the stack into its register. -/
theorem straight_popArgument {r : Register} (h : Piled top (v :: stack) m)
    (free : r ≠ .gp .rax ∧ r ≠ .gp .rsp ∧ r ≠ .gp .rbp) :
    ∃ m', straight (popArgument r) m = .ok m' ∧ Piled top stack m' ∧ m'.word r = v ∧
      ∀ s, s ≠ r → s ≠ .gp .rax → s ≠ .gp .rsp → m'.word s = m.word s := by
  obtain ⟨value, rest⟩ := h.pop
  cases r with
  | gp r =>
      refine ⟨m.pop.2.setGp r m.pop.1, straight_cons rfl, ?_, ?_, fun s other _ sp => ?_⟩
      · exact rest.setGp (mt (congrArg Register.gp) free.2.1) _
      · rw [← value]
        exact (Machine.word_setRegister _ (.gp r) (.gp r) _).trans (if_pos rfl)
      · rw [Machine.word_setGp _ _ other, Machine.word_pop m sp]
  | xmm x =>
      have loaded := rest.setGp (nofun : Gp.rax ≠ .rsp) m.pop.1
      have rax : (m.pop.2.setGp .rax m.pop.1).gp .rax = v := by
        rw [Machine.gp_setGp, if_pos rfl, value]
      refine ⟨(m.pop.2.setGp .rax m.pop.1).setXmm x ⟨(m.pop.2.setGp .rax m.pop.1).gp .rax⟩,
        (straight_cons rfl).trans (straight_cons rfl), ⟨loaded.rsp, loaded.stacked⟩, ?_,
        fun s other ax sp => ?_⟩
      · rw [← rax]
        exact (Machine.word_setRegister _ (.xmm x) (.xmm x) _).trans (if_pos rfl)
      · refine ((Machine.word_setRegister _ (.xmm x) s _).trans (if_neg other)).trans ?_
        rw [Machine.word_setGp _ _ ax, Machine.word_pop m sp]

/-- All arguments go into their registers. -/
theorem straight_popArguments (free : ∀ r ∈ rs, r ≠ .gp .rax ∧ r ≠ .gp .rsp ∧ r ≠ .gp .rbp)
    (distinct : rs.Nodup) (same : rs.length = words.length) (h : Piled top words m) :
    ∃ m', straight (rs.flatMap popArgument) m = .ok m' ∧
      (∀ (i : Nat) (r : Register), rs[i]? = some r → words[i]? = some (m'.word r)) ∧
      ∀ s, s ∉ rs → s ≠ .gp .rax → s ≠ .gp .rsp → m'.word s = m.word s := by
  induction rs generalizing words m with
  | nil => exact ⟨m, rfl, nofun, fun _ _ _ _ => rfl⟩
  | cons r rs ih =>
      obtain ⟨first, free⟩ := List.forall_mem_cons.mp free
      obtain ⟨fresh, distinct⟩ := List.nodup_cons.mp distinct
      obtain _ | ⟨w, words⟩ := words
      · cases same
      · obtain ⟨m₁, run, rest, value, kept⟩ := straight_popArgument h first
        obtain ⟨m₂, others, values, kept'⟩ := ih free distinct (Nat.succ.inj same) rest
        refine ⟨m₂, (straight_append run).trans others, ?_, fun s outside ax sp => ?_⟩
        · rintro (_ | i) s found
          · cases found
            rw [kept' r fresh first.1 first.2.1, value]
            rfl
          · exact values i s found
        · rw [List.mem_cons, not_or] at outside
          rw [kept' s outside.2 ax sp, kept s outside.1 ax sp]

/-- What a call sets between its arguments and the call itself: the number of vector registers for a
callee that asks for it, and an even depth. -/
def settings (depth : Nat) (signature : Signature) (vector : Nat) : List (Instruction Label) :=
  (if signature.variadic || signature.unspecified then
      [Instruction.movImm32 .rax (BitVec.ofNat 32 vector)] else []) ++
    if depth % 2 = 1 then [.aluImm .sub .rsp 8] else []

/-- What a call does behind itself: it undoes the odd word and extends the result. -/
def restoring (depth : Nat) (signature : Signature) : List (Instruction Label) :=
  (if depth % 2 = 1 then [.aluImm .add .rsp 8] else []) ++
    match signature.ret with
    | .int t => extension .rax t
    | _ => []

/-- What makes up for an odd word on the stack changes no other register. -/
theorem straight_odd (op : AluOp) (depth : Nat) (m : Machine) :
    ∃ m', straight (if depth % 2 = 1 then [.aluImm op .rsp 8] else []) m = .ok m' ∧
      ∀ s, s ≠ .gp .rsp → m'.word s = m.word s := by
  split
  case isTrue =>
    refine ⟨_, straight_cons rfl, fun s sp => ?_⟩
    rw [← Machine.word_setGp m (op.apply m.flags (m.gp .rsp) _).1 sp]
    cases s <;> rfl
  case isFalse => exact ⟨m, rfl, fun _ _ => rfl⟩

theorem straight_settings (depth : Nat) (signature : Signature) (vector : Nat) (m : Machine) :
    ∃ m', straight (settings depth signature vector) m = .ok m' ∧
      ∀ s, s ≠ .gp .rax → s ≠ .gp .rsp → m'.word s = m.word s := by
  have counted : ∃ m', straight (if signature.variadic || signature.unspecified then
      [Instruction.movImm32 .rax (BitVec.ofNat 32 vector)] else []) m = .ok m' ∧
      ∀ s, s ≠ .gp .rax → m'.word s = m.word s := by
    split
    case isTrue => exact ⟨_, straight_cons rfl, fun s ax => Machine.word_setGp m _ ax⟩
    case isFalse => exact ⟨m, rfl, fun _ _ => rfl⟩
  obtain ⟨m₁, run, kept⟩ := counted
  obtain ⟨m₂, run', kept'⟩ := straight_odd .sub depth m₁
  exact ⟨m₂, (straight_append run).trans run', fun s ax sp => (kept' s sp).trans (kept s ax)⟩

/-- Behind a call the result is wrapped to the return type. -/
theorem straight_restoring (depth : Nat) (signature : Signature) (m : Machine) :
    ∃ m', straight (restoring depth signature) m = .ok m' ∧
      m'.word (bankOf signature.ret).resultRegister =
        (machineInt signature.ret).wrap (m.word (bankOf signature.ret).resultRegister) := by
  obtain ⟨m₁, run, kept⟩ := straight_odd .add depth m
  obtain ⟨ret, params, variadic, unspecified⟩ := signature
  cases ret with
  | int t =>
      refine ⟨_, (straight_append run).trans (straight_extension .rax t m₁), ?_⟩
      refine ((Machine.word_setRegister m₁ (.gp .rax) (.gp .rax) _).trans (if_pos rfl)).trans ?_
      exact congrArg t.wrap (kept (.gp .rax) nofun)
  | double =>
      refine ⟨m₁, (straight_append run).trans rfl, (kept (.xmm .xmm0) nofun).trans ?_⟩
      exact (IntType.wrap_w64 false _).symm
  | void | pointer | array | function =>
      refine ⟨m₁, (straight_append run).trans rfl, (kept (.gp .rax) nofun).trans ?_⟩
      exact (IntType.wrap_w64 false _).symm

theorem length_le_of_fits {banks : List Bank} (fits : ∀ b : Bank, banks.count b ≤ b.capacity) :
    banks.length ≤ 14 := by
  have sum : banks.length = banks.count .general + banks.count .vector := by
    clear fits
    induction banks with
    | nil => rfl
    | cons b banks ih =>
        rw [List.length_cons, ih, List.count_cons, List.count_cons]
        cases b <;> simp <;> omega
  have general := fits .general
  have vector := fits .vector
  simp only [Bank.capacity] at general vector
  omega

/-- At the call every argument that was pushed is in its register. -/
theorem calling_eq {tys : List CType} (fits : ∀ b : Bank, (tys.map bankOf).count b ≤ b.capacity)
    (depth : Nat) (signature : Signature) :
    ∃ moves, (∀ call n, calling depth signature tys call n =
        .ok (block moves ++ call ++ block (restoring depth signature), n)) ∧
      ∀ {top words m}, Piled top words.reverse m → words.length = tys.length →
        ∃ m', straight moves m = .ok m' ∧ m'.HoldsArguments (tys.map bankOf) words := by
  obtain ⟨rs, last, assigned⟩ := Host.exists_assignAll?_iff.mpr fits
  refine ⟨rs.reverse.flatMap popArgument ++ settings depth signature last.vector,
    fun call n => ?_, fun {top words m} piled same => ?_⟩
  · unfold calling settings
    rw [assigned, ← List.append_assoc]
    rfl
  have length := ArgumentRegisters.length_assignAll? assigned
  rw [List.length_map] at length
  have free : ∀ r ∈ rs, r ≠ .gp .rax ∧ r ≠ .gp .rsp ∧ r ≠ .gp .rbp := fun r member => by
    obtain ⟨b, n, -, register⟩ := ArgumentRegisters.register_of_mem assigned member
    exact Bank.register?_ne register
  obtain ⟨m₁, run, values, -⟩ := straight_popArguments
    (fun r member => free r (List.mem_reverse.mp member))
    (List.nodup_reverse.mpr (ArgumentRegisters.nodup_assignAll? assigned))
    (by rw [List.length_reverse, List.length_reverse, length, same]) piled
  obtain ⟨m₂, run', kept⟩ := straight_settings depth signature last.vector m₁
  refine ⟨m₂, (straight_append run).trans run', fun i r register => ?_⟩
  rw [← ArgumentRegisters.getElem?_registers assigned] at register
  obtain ⟨ax, sp, -⟩ := free r (List.mem_of_getElem? register)
  obtain ⟨bound, -⟩ := List.getElem?_eq_some_iff.mp register
  have popped := values (rs.length - 1 - i) r (by
    rw [List.getElem?_reverse (by omega), ← register]
    congr 1
    omega)
  rw [List.getElem?_reverse (by omega)] at popped
  rw [kept r ax sp, ← popped]
  congr 1
  omega

/-! ### Pushing -/

/-- The machine behind a value that was pushed. -/
def pushed (ty : CType) (m : Machine) : Machine :=
  if ty.isDouble then (m.setGp .rax (m.xmm .xmm0).bits).push (m.xmm .xmm0).bits
  else m.push (m.gp .rax)

variable {link : CodeTarget → Word} {program rest : UnitCode}

theorem reaches_pushValue (ty : CType) (m : Machine) :
    (unitCode link).Reaches program ⟨pushValue ty ++ rest, m⟩ ⟨rest, pushed ty m⟩ := by
  unfold pushValue pushed
  refine reaches_block ?_
  split
  case isTrue =>
    refine (straight_cons rfl).trans (straight_cons ?_)
    rw [Instruction.effect, Machine.gp_setGp, if_pos rfl]
  case isFalse => exact straight_cons rfl

theorem Piled.pushed (h : Piled top stack m) (ty : CType)
    (room : 8 * (stack.length + 1) ≤ 2 ^ 64) :
    Piled top (m.word (bankOf ty).resultRegister :: stack) (pushed ty m) := by
  unfold Lowering.pushed bankOf
  split
  · exact (h.setGp (nofun : Gp.rax ≠ .rsp) _).push _ room
  · exact h.push _ room

/-- The code of arguments that have code and are pushed. -/
def argumentsCode (pieces : List (UnitCode × CType)) : UnitCode :=
  pieces.flatMap fun p => p.1 ++ pushValue p.2

theorem arguments_eq_ok {c : Context} {depth : Nat} {args : List Expr} {n n' : Label}
    {code : UnitCode} (h : arguments c depth args n = .ok (code, n')) :
    ∃ pieces, code = argumentsCode pieces ∧ List.Forall₂ (fun e p => p.2 = e.ty ∧
      ∃ k l l', expr c k e l = .ok (p.1, l')) args pieces := by
  induction args generalizing depth n n' code with
  | nil =>
      obtain ⟨rfl, -⟩ := pure_eq_ok.mp h
      exact ⟨[], rfl, .nil⟩
  | cons e args ih =>
      simp only [arguments, bind_eq_ok, pure_eq_ok] at h
      obtain ⟨first, k, he, others, _, ho, rfl, -⟩ := h
      obtain ⟨pieces, rfl, each⟩ := ih ho
      exact ⟨(first, e.ty) :: pieces, rfl, .cons ⟨rfl, depth, n, k, he⟩ each⟩

/-- A run through the code of arguments: the code of each leaves a value in the register of a
result and what was pushed as it was. -/
inductive Evaluates (link : CodeTarget → Word) (program : UnitCode) (top : Word)
    (rest : UnitCode) :
    List (UnitCode × CType) → List Word → Machine → List Word → Machine → Prop
  | done (stack : List Word) (m : Machine) : Evaluates link program top rest [] stack m [] m
  | argument {code : UnitCode} {ty : CType} {others : List (UnitCode × CType)}
      {stack words : List Word} {m m₁ m₂ : Machine}
      (run : (unitCode link).Reaches program
        ⟨code ++ (pushValue ty ++ (argumentsCode others ++ rest)), m⟩
        ⟨pushValue ty ++ (argumentsCode others ++ rest), m₁⟩)
      (kept : Piled top stack m₁)
      (next : Evaluates link program top rest others
        (m₁.word (bankOf ty).resultRegister :: stack) (pushed ty m₁) words m₂) :
      Evaluates link program top rest ((code, ty) :: others) stack m
        (m₁.word (bankOf ty).resultRegister :: words) m₂

/-- The values of arguments are pushed in order. -/
theorem Evaluates.reaches {pieces : List (UnitCode × CType)}
    (h : Evaluates link program top rest pieces stack m words m') (piled : Piled top stack m)
    (room : 8 * (stack.length + pieces.length) ≤ 2 ^ 64) :
    (unitCode link).Reaches program ⟨argumentsCode pieces ++ rest, m⟩ ⟨rest, m'⟩ ∧
      Piled top (words.reverse ++ stack) m' ∧ words.length = pieces.length := by
  induction h with
  | done stack m => exact ⟨.refl _, piled, rfl⟩
  | @argument code ty others stack words m m₁ m₂ run kept next ih =>
      rw [List.length_cons] at room
      obtain ⟨arrives, all, same⟩ := ih (kept.pushed ty (by omega))
        (by rw [List.length_cons]; omega)
      refine ⟨?_, ?_, congrArg Nat.succ same⟩
      · have cut : argumentsCode ((code, ty) :: others) ++ rest =
            code ++ (pushValue ty ++ (argumentsCode others ++ rest)) := by
          simp only [argumentsCode, List.flatMap_cons, List.append_assoc]
        rw [cut]
        exact run.trans ((reaches_pushValue ty m₁).trans arrives)
      · rwa [List.reverse_cons, List.append_assoc]

end Lowering

end LiveC
