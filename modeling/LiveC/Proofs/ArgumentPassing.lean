import LiveC.Parser.Declarator
import LiveC.Proofs.CallDiscipline
import LiveC.Proofs.ParameterCode

/-!
All sides of a call agree. Compiled calls and calls from outside leave an argument in the register
in which the callee looks for its parameter, and results are read as values of the return type by
both. What a caller establishes and a callee relies on is `Machine.HoldsArguments`.
-/

namespace LiveC

/-! ### Calls from outside -/

/-- The words among values that a bank passes. -/
def Bank.words (b : Bank) (args : List Value) : List Word :=
  (args.filter (·.bank? = some b)).map Value.bits

namespace Machine

variable {m : Machine} {r : Register}

/-- Values fill each bank in order, whatever the other bank passes between them. -/
theorem word_setRegisters_of_marshal {a : ArgumentRegisters} {number k : Nat} {b : Bank}
    {args : List Value} {placed : List (Register × Word)} (run : a.marshal number args = .ok placed)
    (found : b.register? k = some r) (m : Machine) : (m.setRegisters placed).word r =
      if k < a.taken b then m.word r else ((b.words args)[k - a.taken b]?).getD (m.word r) := by
  induction args generalizing a number placed m with
  | nil =>
      rw [ArgumentRegisters.marshal] at run
      cases run
      split <;> rfl
  | cons v args ih =>
      obtain ⟨b', r', others, passed, register, rest, rfl⟩ := marshal_cons.mp run
      have next := ih rest (m.setRegister r' v.bits)
      rw [ArgumentRegisters.taken_take, word_setRegister] at next
      refine next.trans ?_
      by_cases same : b' = b
      · subst same
        have words : b'.words (v :: args) = v.bits :: b'.words args := by
          simp only [Bank.words, passed, List.filter_cons, decide_true, if_true, List.map_cons]
        rw [words, if_pos rfl]
        rcases Nat.lt_trichotomy k (a.taken b') with before | here | behind
        · have other : r ≠ r' := by
            rintro rfl
            have := (Bank.register?_injective found register).2
            omega
          rw [if_pos (by omega), if_neg other, if_pos before]
        · subst here
          cases found.symm.trans register
          rw [if_pos (by omega), if_pos rfl, if_neg (by omega), Nat.sub_self]
          rfl
        · have other : r ≠ r' := by
            rintro rfl
            have := (Bank.register?_injective found register).2
            omega
          obtain ⟨j, rfl⟩ := Nat.exists_eq_add_of_lt behind
          rw [if_neg (by omega), if_neg other, if_neg (by omega),
            show a.taken b' + j + 1 - a.taken b' = j + 1 by omega,
            show a.taken b' + j + 1 - (a.taken b' + 1) = j by omega]
          rfl
      · have words : b.words (v :: args) = b.words args := by
          simp only [Bank.words, passed, List.filter_cons, Option.some.injEq, same, decide_false,
            Bool.false_eq_true, if_false]
        have other : r ≠ r' := by
          rintro rfl
          exact same (Bank.register?_injective found register).1.symm
        rw [words, if_neg same, if_neg other, Nat.add_zero]

theorem word_zeroed {rs : List Register} (member : r ∈ rs) (m : Machine) :
    (rs.foldl (fun m r => m.setRegister r 0) m).word r = 0 := by
  have kept (rs : List Register) (m : Machine) (zero : m.word r = 0) :
      (rs.foldl (fun m r => m.setRegister r 0) m).word r = 0 := by
    induction rs generalizing m with
    | nil => exact zero
    | cons s rs ih =>
        refine ih _ ((word_setRegister ..).trans ?_)
        split
        case isTrue => rfl
        case isFalse => exact zero
  obtain ⟨before, behind, rfl⟩ := List.append_of_mem member
  rw [List.foldl_append, List.foldl_cons]
  exact kept behind _ ((word_setRegister ..).trans (if_pos rfl))

end Machine

namespace Host

variable {σ : Type} {s : LoadedSymbol} {args : List Value} {placed : List (Register × Word)}

/-- A call from outside always has the same form: the registers of each bank hold the values that it
passes, in order, and zeros behind them. -/
theorem word_enter (run : arguments s args = .ok placed) {b : Bank} {k : Nat} {r : Register}
    (found : b.register? k = some r) (h : Host σ) (address : Word) :
    (h.enter address placed).machine.word r = ((b.words args)[k]?).getD 0 := by
  have member : r ∈ ArgumentRegisters.generalRegisters.map Register.gp ++
      ArgumentRegisters.vectorRegisters.map Register.xmm := by
    cases b with
    | general =>
        obtain ⟨g, register, rfl⟩ := Option.map_eq_some_iff.mp found
        exact List.mem_append_left _ (List.mem_map_of_mem (List.mem_of_getElem? register))
    | vector =>
        obtain ⟨x, register, rfl⟩ := Option.map_eq_some_iff.mp found
        exact List.mem_append_right _ (List.mem_map_of_mem (List.mem_of_getElem? register))
  have none : ¬k < ({} : ArgumentRegisters).taken b := by cases b <;> exact Nat.not_lt_zero k
  have first : k - ({} : ArgumentRegisters).taken b = k := by cases b <;> rfl
  refine (Machine.word_push _ exitAddress (Bank.register?_ne found).2.1).trans ?_
  refine (Machine.word_setRegisters_of_marshal (arguments_eq_ok.mp run).2 found _).trans ?_
  rw [if_neg none, first, Machine.word_zeroed member]

theorem execute_eq_ok {h h' : Host σ} {functions : HostFunctions σ} {image : Image}
    {entry : String} {v : Value} (run : h.execute functions image entry args = .ok (v, h')) :
    ∃ s placed, image.symbol? entry = some s ∧ s.kind = .function ∧
      arguments s args = .ok placed ∧ h.call functions s.address placed = .ok h' ∧
      v = CallShape.result s.shape h'.machine := by
  unfold execute at run
  cases found : (image.symbol? entry).filter (·.kind = .function) with
  | none =>
      rw [found] at run
      cases run
  | some s =>
      obtain ⟨symbol, kind⟩ := Option.filter_eq_some_iff.mp found
      rw [found] at run
      dsimp only at run
      split at run
      case isTrue => cases run
      case isFalse =>
        cases passed : arguments s args with
        | error e =>
            rw [passed] at run
            cases run
        | ok placed =>
            rw [passed] at run
            cases ran : h.call functions s.address placed with
            | error f =>
                simp only [ran] at run
                cases run
            | ok h'' =>
                simp only [ran] at run
                cases run
                exact ⟨s, placed, symbol, of_decide_eq_true kind, passed, ran, rfl⟩

end Host

/-- A value of a type that holds a word. -/
def Value.ofType (ty : CType) (v : Word) : Value :=
  match ty with
  | .int _ => .int v
  | .pointer _ => .ptr v
  | .double => .float ⟨v⟩
  | .void | .array .. | .function .. => .void

open Lowering in
/-- The host reads a result as a value of the return type. -/
theorem CallShape.result_ofSignature (signature : Signature) (m : Machine) :
    CallShape.result (some (.ofSignature signature)) m = .ofType signature.ret
      ((machineInt signature.ret).wrap (m.word (bankOf signature.ret).resultRegister)) := by
  obtain ⟨ret, params, variadic, unspecified⟩ := signature
  cases ret with
  | int t => rfl
  | pointer t => exact congrArg Value.ptr (IntType.wrap_w64 false _).symm
  | double => exact congrArg (fun v : Word => Value.float ⟨v⟩) (IntType.wrap_w64 false _).symm
  | void | array | function => rfl

/-- All parameters have scalar types: arrays and functions become pointers, and `void` is
refused. -/
theorem Parser.isScalar_of_ofDeclarator {d : Declarator} {loc : Location} {p : Param}
    {s s' : ParserState} (h : Param.ofDeclarator d loc s = .ok p s') : p.ty.isScalar = true := by
  obtain ⟨name, ty, params⟩ := d
  cases ty with
  | void => cases h
  | int | double | pointer | array | function =>
      cases h
      rfl

/-! ### Compiled calls -/

/-- The signature and the arguments of a call. -/
def Expr.passed? : Expr → Option (Signature × List Expr)
  | .call _ _ s args | .callPointer _ s _ args => some (s, args)
  | _ => none

namespace Lowering

variable {c : Context} {depth : Nat} {e : Expr} {signature : Signature} {args : List Expr}
  {n n' : Label} {code : UnitCode}

/-- The code between the evaluation of arguments and their registers: that of a function pointer,
which then waits in a register of its own. -/
def IsCalleeCode (c : Context) : Expr → UnitCode → Prop
  | .callPointer _ _ callee _, code => ∃ k l l' pointer,
      expr c k callee l = .ok (pointer, l') ∧ code = pointer ++ block [.mov .r11 .rax]
  | _, code => code = []

theorem callNamed_eq (c : Context) (name : String) :
    ∃ p, c.callNamed name = [p] ∧ p.calls = true := by
  unfold Context.callNamed
  split <;> exact ⟨_, rfl, rfl⟩

/-- The code of a call evaluates arguments, then the callee, and then calls. -/
theorem expr_of_passed? (h : expr c depth e n = .ok (code, n'))
    (passed : e.passed? = some (signature, args)) : ∃ pieces between p k behind,
      List.Forall₂ (fun e p => p.2 = e.ty ∧ ∃ k l l', expr c k e l = .ok (p.1, l')) args pieces ∧
      IsCalleeCode c e between ∧ p.calls = true ∧
      calling depth signature (args.map Expr.ty) [p] k = .ok (behind, n') ∧
      code = argumentsCode pieces ++ (between ++ behind) := by
  cases e with
  | call note name s es =>
      cases passed
      obtain ⟨p, named, calls⟩ := callNamed_eq c name
      simp only [expr, bind_eq_ok, pure_eq_ok, named] at h
      obtain ⟨_, k, evaluated, behind, _, called, rfl, rfl⟩ := h
      obtain ⟨pieces, rfl, each⟩ := arguments_eq_ok evaluated
      exact ⟨pieces, [], p, k, behind, each, rfl, calls, called, rfl⟩
  | callPointer note s callee es =>
      cases passed
      simp only [expr, bind_eq_ok, pure_eq_ok] at h
      obtain ⟨_, l, evaluated, pointer, k, pointed, behind, _, called, rfl, rfl⟩ := h
      obtain ⟨pieces, rfl, each⟩ := arguments_eq_ok evaluated
      exact ⟨pieces, _, _, k, behind, each, ⟨_, l, k, pointer, pointed, rfl⟩, rfl, called,
        by simp only [List.append_assoc]⟩
  | _ => cases passed

theorem fits_of_calling {tys : List CType} {call : UnitCode}
    (h : calling depth signature tys call n = .ok (code, n')) (b : Bank) :
    (tys.map bankOf).count b ≤ b.capacity := by
  unfold calling at h
  cases assigned : ArgumentRegisters.assignAll? {} (tys.map bankOf) with
  | none =>
      rw [assigned] at h
      cases h
  | some r => exact Host.exists_assignAll?_iff.mp ⟨r.1, r.2, assigned⟩ b

/-- The code of a call evaluates and pushes its arguments, reaches the callee, and leaves the values
of the arguments in the registers of parameters that are passed in given banks. -/
def LeavesArguments (c : Context) (depth : Nat) (e : Expr) (signature : Signature)
    (args : List Expr) (banks : List Bank) (code : UnitCode) : Prop :=
  ∃ pieces between moves p,
    code = argumentsCode pieces ++
      (between ++ (block moves ++ (p :: block (restoring depth signature)))) ∧
    List.Forall₂ (fun e p => p.2 = e.ty ∧ ∃ k l l', expr c k e l = .ok (p.1, l')) args pieces ∧
    IsCalleeCode c e between ∧ p.calls = true ∧
    ∀ (link : CodeTarget → Word) (program tail : UnitCode) (m m₁ m₂ : Machine) (words : List Word),
      let call := p :: (block (restoring depth signature) ++ tail)
      Evaluates link program (m.gp .rsp) (between ++ (block moves ++ call)) pieces [] m words m₁ →
      (unitCode link).Reaches program ⟨between ++ (block moves ++ call), m₁⟩
        ⟨block moves ++ call, m₂⟩ →
      Piled (m.gp .rsp) words.reverse m₂ →
      ∃ m₃, (unitCode link).Reaches program ⟨code ++ tail, m⟩ ⟨call, m₃⟩ ∧
        ∀ back, (m₃.push back).HoldsArguments banks words

theorem leavesArguments (h : expr c depth e n = .ok (code, n'))
    (passed : e.passed? = some (signature, args)) {banks : List Bank}
    (start : banks <+: (args.map Expr.ty).map bankOf) :
    LeavesArguments c depth e signature args banks code := by
  obtain ⟨pieces, between, p, k, behind, each, callee, calls, called, rfl⟩ :=
    expr_of_passed? h passed
  have fits := fits_of_calling called
  have few := length_le_of_fits fits
  rw [List.length_map, List.length_map] at few
  obtain ⟨moves, same, leaves⟩ := calling_eq fits depth signature
  cases (same [p] k).symm.trans called
  refine ⟨pieces, between, moves, p, ?_, each, callee, calls, ?_⟩
  · simp only [List.append_assoc, List.cons_append, List.nil_append]
  intro link program tail m m₁ m₂ words call evaluated between_reaches piled
  have length := each.length_eq
  have bottom : Piled (m.gp .rsp) [] m := ⟨(BitVec.sub_zero _).symm, trivial⟩
  obtain ⟨first, -, count⟩ := evaluated.reaches bottom (by rw [List.length_nil]; omega)
  obtain ⟨m₃, moved, holds⟩ := leaves piled (by rw [count, ← length, List.length_map])
  refine ⟨m₃, ?_, fun back => (holds.of_start start).push back⟩
  have cut : argumentsCode pieces ++
      (between ++ (block moves ++ [p] ++ block (restoring depth signature))) ++ tail =
      argumentsCode pieces ++ (between ++ (block moves ++ call)) := by
    simp only [List.append_assoc, List.cons_append, List.nil_append, call]
  rw [cut]
  exact first.trans (between_reaches.trans (reaches_block moved))

/-! ### Agreement -/

theorem ofType?_bank {ty : CType} (scalar : ty.isScalar = true) :
    ∃ k, ValueKind.ofType? ty = some k ∧ k.bank = bankOf ty := by
  cases ty with
  | int | pointer | double => exact ⟨_, rfl, rfl⟩
  | void | array | function => cases scalar

theorem bank_kinds {params : List CType} (scalar : ∀ ty ∈ params, ty.isScalar = true) :
    (params.filterMap ValueKind.ofType?).map ValueKind.bank = params.map bankOf := by
  induction params with
  | nil => rfl
  | cons ty params ih =>
      obtain ⟨first, others⟩ := List.forall_mem_cons.mp scalar
      obtain ⟨k, kind, bank⟩ := ofType?_bank first
      rw [List.filterMap_cons_some kind, List.map_cons, List.map_cons, bank, ih others]

/-- The shape that an object records allows the arguments that match the parameters. -/
theorem accepts_ofSignature {signature : Signature} {args : List Value}
    (scalar : ∀ ty ∈ signature.params, ty.isScalar = true) :
    (CallShape.ofSignature signature).Accepts args ↔
      (if signature.variadic then signature.params.length ≤ args.length
        else args.length = signature.params.length) ∧
      ∀ (i : Nat) (ty : CType) (v : Value), signature.params[i]? = some ty → args[i]? = some v →
        v.bank? = some (bankOf ty) := by
  have kinds := bank_kinds scalar
  have length : (CallShape.ofSignature signature).params.length = signature.params.length := by
    have length := congrArg List.length kinds
    rwa [List.length_map, List.length_map] at length
  have bank (i : Nat) : (CallShape.ofSignature signature).params[i]?.map ValueKind.bank =
      signature.params[i]?.map bankOf := by
    rw [← List.getElem?_map, ← List.getElem?_map]
    exact congrArg (·[i]?) kinds
  constructor
  · rintro ⟨count, classes⟩
    rw [length] at count
    refine ⟨count, fun i ty v param arg => ?_⟩
    have both := bank i
    rw [param] at both
    obtain ⟨k, kind, same⟩ := Option.map_eq_some_iff.mp both
    rw [← same]
    exact classes i k v kind arg
  · rintro ⟨count, classes⟩
    refine ⟨by rw [length]; exact count, fun i k v kind arg => ?_⟩
    have both := bank i
    rw [kind] at both
    obtain ⟨ty, param, same⟩ := Option.map_eq_some_iff.mp both.symm
    rw [← same]
    exact classes i ty v param arg

/-- The registers of parameters hold the arguments that match them, among all arguments. -/
theorem banks_start {signature : Signature} {args : List Value} {banks : List Bank}
    (scalar : ∀ ty ∈ signature.params, ty.isScalar = true)
    (accepts : (CallShape.ofSignature signature).Accepts args)
    (passed : banks.map some = args.map Value.bank?) : signature.params.map bankOf <+: banks := by
  obtain ⟨count, classes⟩ := (accepts_ofSignature scalar).mp accepts
  have enough : signature.params.length ≤ args.length := by
    split at count <;> omega
  rw [List.prefix_iff_getElem?]
  intro i inside
  rw [List.length_map] at inside
  have here := classes i _ _ (List.getElem?_eq_getElem inside)
    (List.getElem?_eq_getElem (Nat.lt_of_lt_of_le inside enough))
  have same := congrArg (·[i]?) passed
  simp only [List.getElem?_map, List.getElem?_eq_getElem (Nat.lt_of_lt_of_le inside enough),
    Option.map_some, here] at same
  obtain ⟨b, found, bank⟩ := Option.map_eq_some_iff.mp same
  rw [found, List.getElem_map, Option.some.inj bank]

/-- All who pass arguments to functions with parameters of given types agree. -/
structure PassingAgrees (params : List CType) : Prop where
  /-- Each parameter has a register of its own. -/
  distinct : ∀ i < params.length, ∃ r, argumentRegister? (params.map bankOf) i = some r ∧
    ∀ j, argumentRegister? (params.map bankOf) j = some r → j = i
  /-- A function stores this register in the slot of the parameter. -/
  stored : ∀ (c : Context) (n : Label), params.length ≤ c.offsets.length →
    ∃ stores, spillParameters c 0 {} params n = .ok (block stores, n) ∧
      stores.length = params.length ∧ ∀ i r offset,
        argumentRegister? (params.map bankOf) i = some r → c.offsets[i]? = some offset →
          stores[i]? = some (storing r ⟨.rbp, offset⟩)
  /-- The body of a function reads there what the registers held, wrapped to the type. -/
  received : ∀ {layout : UnitLayout} {entry n n' : Label} {f : Function} {code : UnitCode},
    f.signature.params = params → function layout entry f n = .ok (code, n') →
      Receives layout f n n' code
  /-- Calls with as many arguments of these classes, or more that fit, are compiled. -/
  callable : ∀ {tys : List CType}, params.map bankOf <+: tys.map bankOf →
    (∀ b : Bank, (tys.map bankOf).count b ≤ b.capacity) →
      ∀ depth signature call n, ∃ code, calling depth signature tys call n = .ok (code, n)
  /-- A compiled call leaves its arguments in the registers of the parameters. -/
  called : ∀ {c : Context} {depth : Nat} {e : Expr} {signature : Signature} {args : List Expr}
      {n n' : Label} {code : UnitCode}, e.passed? = some (signature, args) →
    params.map bankOf <+: (args.map Expr.ty).map bankOf → expr c depth e n = .ok (code, n') →
      LeavesArguments c depth e signature args (params.map bankOf) code
  /-- A call from outside is accepted exactly if its arguments match the recorded signature in
  number and classes and fit into registers. -/
  accepted : ∀ {signature : Signature} {s : LoadedSymbol} {args : List Value},
    signature.params = params → s.shape = some (.ofSignature signature) →
      ((∃ placed, Host.arguments s args = .ok placed) ↔
        (if signature.variadic then params.length ≤ args.length
          else args.length = params.length) ∧
        (∀ (i : Nat) (ty : CType) (v : Value), params[i]? = some ty → args[i]? = some v →
          v.bank? = some (bankOf ty)) ∧
        (∀ v ∈ args, v ≠ .void) ∧ ∀ b : Bank, (args.filterMap Value.bank?).count b ≤ b.capacity)
  /-- It places its arguments in the registers of the parameters, and fills each bank in order. -/
  entered : ∀ {σ : Type} {signature : Signature} {s : LoadedSymbol} {args : List Value}
      {placed : List (Register × Word)}, signature.params = params →
    s.shape = some (.ofSignature signature) → Host.arguments s args = .ok placed →
      ∀ (h : Host σ) (address : Word),
        (h.enter address placed).machine.HoldsArguments (params.map bankOf)
          (args.map Value.bits) ∧
        ∀ (b : Bank) (k : Nat) (r : Register), b.register? k = some r →
          (h.enter address placed).machine.word r = ((b.words args)[k]?).getD 0
  /-- Compiled callers wrap the result to the return type, and so does the host. -/
  returned : ∀ {signature : Signature}, signature.params = params →
    (∀ depth m, ∃ m', straight (restoring depth signature) m = .ok m' ∧
      m'.word (bankOf signature.ret).resultRegister =
        (machineInt signature.ret).wrap (m.word (bankOf signature.ret).resultRegister)) ∧
    ∀ {σ : Type} {h h' : Host σ} {functions : HostFunctions σ} {image : Image} {entry : String}
      {args : List Value} {v : Value} {s : LoadedSymbol},
      h.execute functions image entry args = .ok (v, h') → image.symbol? entry = some s →
      s.shape = some (.ofSignature signature) → ∃ placed, Host.arguments s args = .ok placed ∧
        h.call functions s.address placed = .ok h' ∧ v = .ofType signature.ret
          ((machineInt signature.ret).wrap
            (h'.machine.word (bankOf signature.ret).resultRegister))

/-- Compiled functions, compiled calls and calls from outside agree on where arguments are and what
they are read as, whatever the order of the parameters, as long as there are registers for all.
That parameters are scalar is no restriction, by `Parser.isScalar_of_ofDeclarator`. -/
theorem passing_agrees {params : List CType} (scalar : ∀ ty ∈ params, ty.isScalar = true)
    (general : (params.filter (!·.isDouble)).length ≤ 6)
    (vector : (params.filter (·.isDouble)).length ≤ 8) : PassingAgrees params := by
  have passes : Passes {} params :=
    ⟨(Nat.zero_add _).symm ▸ general, (Nat.zero_add _).symm ▸ vector⟩
  obtain ⟨⟨rs, last⟩, assigned⟩ := passes.assignAll?
  have length := ArgumentRegisters.length_assignAll? assigned
  rw [List.length_map] at length
  have unique := ArgumentRegisters.nodup_assignAll? assigned
  have register := ArgumentRegisters.getElem?_registers assigned
  refine ⟨?distinct, ?stored, ?received, ?callable, ?called, ?accepted, ?entered, ?returned⟩
  case distinct =>
    intro i inside
    refine ⟨rs[i], by rw [← register, List.getElem?_eq_getElem (length ▸ inside)], fun j same => ?_⟩
    rw [← register, ← List.getElem?_eq_getElem (length ▸ inside)] at same
    exact ((List.getElem?_inj (length ▸ inside) unique).mp same.symm).symm
  case stored =>
    intro c n covered
    refine ⟨_, spillParameters_eq assigned ((Nat.zero_add _).symm ▸ covered), ?_,
      fun i r offset passed found => ?_⟩
    · rw [List.length_zipWith, List.drop_zero, length, Nat.min_eq_left covered]
    · rw [List.getElem?_zipWith, List.drop_zero, register, passed, found]
  case received => exact fun _ lowered => function_receives lowered
  case callable =>
    intro tys _ fits depth signature call n
    obtain ⟨moves, same, -⟩ := calling_eq fits depth signature
    exact ⟨_, same call n⟩
  case called => exact fun passed start lowered => leavesArguments lowered passed start
  case accepted =>
    rintro signature s args rfl shape
    have accepts : (∀ shape, s.shape = some shape → shape.Accepts args) ↔
        (CallShape.ofSignature signature).Accepts args := by
      simp only [shape, Option.some.injEq, forall_eq']
    rw [Host.arguments_succeeds_iff, accepts, accepts_ofSignature scalar, and_assoc]
  case entered =>
    rintro σ signature s args placed rfl shape run h address
    obtain ⟨accepts, marshalled⟩ := Host.arguments_eq_ok.mp run
    obtain ⟨banks, _, _, passed, assigned, rfl⟩ := marshal_eq_ok_iff.mp marshalled
    have same : banks.length = (args.map Value.bits).length := by
      have length := congrArg List.length passed
      rw [List.length_map, List.length_map] at length
      rw [length, List.length_map]
    refine ⟨?_, fun b k r found => Host.word_enter run found h address⟩
    exact (Host.enter_holds assigned same h address).of_start
      (banks_start scalar (accepts _ shape) passed)
  case returned =>
    rintro signature -
    refine ⟨fun depth m => straight_restoring depth signature m, ?_⟩
    intro σ h h' functions image entry args v s run found shape
    obtain ⟨_, placed, found', -, passed, ran, rfl⟩ := Host.execute_eq_ok run
    cases found.symm.trans found'
    exact ⟨placed, passed, ran, by rw [shape, CallShape.result_ofSignature]⟩

/-- `int f(double x, char c) { }` -/
def mixedParameters : Function :=
  { name := "f", signature := ⟨.int .int, [.double, .int .char], false, false⟩,
    locals := [⟨"x", .double⟩, ⟨"c", .int .char⟩], body := [], isStatic := false, loc := .start }

/-- The symbol of the function, wherever it is loaded. -/
def mixedSymbol : LoadedSymbol :=
  ⟨"f", .function, 0, 1, some (.ofSignature mixedParameters.signature)⟩

/-- A call from outside with `1.0` and `0x1FF` reaches a body that reads its `char` as `-1`. -/
theorem passing_agrees_mixed : PassingAgrees mixedParameters.signature.params ∧
    ∃ code n placed, function ⟨[], [], []⟩ 0 mixedParameters 1 = .ok (code, n) ∧
      Host.arguments mixedSymbol [.float ⟨0x3FF0000000000000⟩, .int 0x1FF] = .ok placed ∧
      ∃ (opening body read : UnitCode) (m m' : Machine), code = opening ++ body ∧
        (unitCode fun _ => 0).Reaches code
          ⟨code, (Host.enter { state := () } 0 placed).machine⟩ ⟨body, m⟩ ∧
        (unitCode fun _ => 0).Reaches code ⟨read, m⟩ ⟨[], m'⟩ ∧ m'.gp .rax = -1 := by
  have agrees : PassingAgrees mixedParameters.signature.params :=
    passing_agrees (by decide) (by decide) (by decide)
  obtain ⟨code, n, lowered⟩ : ∃ code n, function ⟨[], [], []⟩ 0 mixedParameters 1 = .ok (code, n) :=
    ⟨_, _, rfl⟩
  obtain ⟨placed, run⟩ : ∃ placed,
      Host.arguments mixedSymbol [.float ⟨0x3FF0000000000000⟩, .int 0x1FF] = .ok placed := ⟨_, rfl⟩
  obtain ⟨c, opening, body, -, -, -, rfl, receives⟩ := agrees.received rfl lowered
  obtain ⟨m, opened, reads⟩ := receives (fun _ => 0) _ _ _ _
    (agrees.entered rfl rfl run ({ state := () } : Host Unit) 0).1
  obtain ⟨w, read, passed, -, reading⟩ := reads 1 ⟨.int .char, .start⟩ rfl rfl
  obtain ⟨m', arrives, value⟩ := reading []
  rw [List.append_nil] at arrives
  cases passed
  exact ⟨agrees, _, n, placed, lowered, run, opening, _, read, m, m', rfl, opened, arrives, value⟩

end Lowering

end LiveC
