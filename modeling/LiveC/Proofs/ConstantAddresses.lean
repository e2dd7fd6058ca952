import LiveC.Proofs.DeclarationGrammar
import LiveC.Proofs.IntegerCode
import LiveC.Proofs.OperatorTyping

/-!
Constant addresses. An expression that initialises a pointer without being evaluated is an address
with a distance from it: the address of a name or of a string literal, under conversions between
pointers, indirections whose address is taken at once, and sums and differences with constants. Such
an expression has that value wherever it is evaluated, and so has its code.
-/

namespace LiveC

/-- Where the target of an address lies. -/
def Surroundings.address (s : Surroundings) : AddressTarget → Word
  | .symbol name => s.globalAt name
  | .str id => s.stringAt id

theorem CType.isArithmetic_of_isPointer {ty : CType} (h : ty.isPointer = true) :
    ty.isArithmetic = false := by
  cases ty <;> first | rfl | cases h

theorem CType.isDouble_of_isPointer {ty : CType} (h : ty.isPointer = true) :
    ty.isDouble = false := by
  cases ty <;> first | rfl | cases h

namespace Expr

/-- Induction along the way in which a well-typed pointer is a constant address. All that is passed
on that way is a pointer as well, and the distances are of type `long`. -/
theorem constantAddress?_induction {Γ : TypingContext} {motive : Expr → AddressTarget → Word → Prop}
    (global : ∀ n n' name, n.ty.isPointer = true →
      motive (addrOf n (global n' name)) (.symbol name) 0)
    (str : ∀ n n' id, n.ty.isPointer = true → motive (addrOf n (str n' id)) (.str id) 0)
    (deref : ∀ n n' p target addend, n.ty.isPointer = true → p.ty.isPointer = true →
      motive p target addend → motive (addrOf n (deref n' p)) target addend)
    (cast : ∀ n e target addend, n.ty.isPointer = true → e.ty.isPointer = true →
      motive e target addend → motive (cast n e) target addend)
    (add : ∀ n m base offset target addend, n.ty.isPointer = true → base.ty = n.ty →
      m.ty = .int .long → motive base target addend →
      motive (binary n .add base (int m offset)) target (addend + offset))
    (sub : ∀ n m base offset target addend, n.ty.isPointer = true → base.ty = n.ty →
      m.ty = .int .long → motive base target addend →
      motive (binary n .sub base (int m offset)) target (addend - offset))
    {e : Expr} (typed : e.WellTyped Γ) (pointer : e.ty.isPointer = true) {target : AddressTarget}
    {addend : Word} (h : e.constantAddress? = some (target, addend)) : motive e target addend := by
  have distance {n : Note} {op : BinaryOp} {l r : Expr} (pointer : n.ty.isPointer = true)
      (rule : (binary n op l r).Rule Γ) : l.ty = n.ty ∧ r.ty = .int .long := by
    obtain ⟨left, ⟨-, takes⟩ | ⟨-, -, right⟩⟩ := rule
    · cases (CType.isArithmetic_of_takes takes).symm.trans (CType.isArithmetic_of_isPointer pointer)
    · exact ⟨left, right⟩
  fun_induction constantAddress? e generalizing addend with
  | case1 n n' name =>
      cases h
      exact global n n' name pointer
  | case2 n n' id =>
      cases h
      exact str n n' id pointer
  | case3 n n' p ih =>
      have inner := typed.part (.head _)
      have isPointer : p.ty.isPointer = true := by
        rw [inner.here.2.1]
        rfl
      exact deref n n' p target addend pointer isPointer
        (ih (inner.part (.head _)) isPointer h)
  | case4 n e isPointer ih =>
      exact cast n e target addend pointer isPointer (ih (typed.part (.head _)) isPointer h)
  | case5 => cases h
  | case6 n base m offset ih =>
      obtain ⟨left, right⟩ := distance pointer typed.rule
      obtain ⟨⟨target', addend'⟩, found, same⟩ := Option.map_eq_some_iff.mp h
      cases same
      exact add n m base offset target addend' pointer left right
        (ih (typed.part (.head _)) (by rw [left]; exact pointer) found)
  | case7 n base m offset ih =>
      obtain ⟨left, right⟩ := distance pointer typed.rule
      obtain ⟨⟨target', addend'⟩, found, same⟩ := Option.map_eq_some_iff.mp h
      cases same
      exact sub n m base offset target addend' pointer left right
        (ih (typed.part (.head _)) (by rw [left]; exact pointer) found)
  | case8 => cases h

end Expr

namespace Surroundings

open IntType

variable {Γ : TypingContext} {e : Expr} {target : AddressTarget} {addend : Word}

theorem reduce_add_toInt (a b : Word) :
    ulong.reduce ((a.toNat : Int) + b.toInt) = ((a + b).toNat : Int) := by
  rw [reduce, if_neg (by decide), BitVec.toNat_add, BitVec.toInt_eq_toNat_bmod, Int.bmod_def]
  change _ % ((2 ^ 64 : Nat) : Int) = _
  omega

theorem reduce_sub_toInt (a b : Word) :
    ulong.reduce ((a.toNat : Int) - b.toInt) = ((a - b).toNat : Int) := by
  rw [reduce, if_neg (by decide), BitVec.toNat_sub, BitVec.toInt_eq_toNat_bmod, Int.bmod_def]
  change _ % ((2 ^ 64 : Nat) : Int) = _
  omega

/-- A constant address has the same value in every memory: the distance is added to where its target
lies, and nothing is read. -/
theorem value_of_constantAddress (s : Surroundings) (typed : e.WellTyped Γ)
    (pointer : e.ty.isPointer = true) (h : e.constantAddress? = some (target, addend)) :
    s.value e = pure ((s.address target + addend).toNat : Int) := by
  refine Expr.constantAddress?_induction
    (motive := fun e target addend => s.value e = pure ((s.address target + addend).toNat : Int))
    ?global ?str ?deref ?cast ?add ?sub typed pointer h
  case global | str =>
    intro n n' place _
    have same (a : Word) : a + 0 = a := BitVec.add_zero a
    rw [value, Surroundings.place, pure_bind, address, same]
  case deref =>
    intro n n' p target addend _ _ ih
    rw [value, place, ih, pure_bind, pure_bind, ofInt_toNat]
  case cast =>
    intro n e target addend pointer _ ih
    have void := CType.isVoid_of_isPointer pointer
    rw [value, ih, pure_bind, void, Lowering.machineInt_of_isPointer pointer]
    rw [if_neg Bool.false_ne_true, reduce_of_represents (Lowering.represents_toNat _)]
  case add =>
    intro n m base offset target addend pointer _ long ih
    rw [value, ih, pure_bind, value, Lowering.machineInt_of_isPointer pointer, long, pure_bind]
    change (pure (ulong.reduce (((s.address target + addend).toNat : Int) + offset.toInt)) :
      Evaluation Int) = _
    rw [reduce_add_toInt, BitVec.add_assoc]
  case sub =>
    intro n m base offset target addend pointer _ long ih
    rw [value, ih, pure_bind, value, Lowering.machineInt_of_isPointer pointer, long, pure_bind]
    change (pure (ulong.reduce (((s.address target + addend).toNat : Int) - offset.toInt)) :
      Evaluation Int) = _
    rw [reduce_sub_toInt, BitVec.sub_eq_add_neg, BitVec.add_assoc, ← BitVec.sub_eq_add_neg]

/-- Assigning a constant address stores its value, in the object that the target designates. -/
theorem value_assign_constantAddress (s : Surroundings) (typed : e.WellTyped Γ)
    (pointer : e.ty.isPointer = true) (h : e.constantAddress? = some (target, addend)) (n : Note)
    (object : Expr) :
    s.value (.assign n object e) = (do
      let a ← s.place object
      s.write object.ty a (s.address target + addend).toNat
      return ((s.address target + addend).toNat : Int)) := by
  rw [value, s.value_of_constantAddress typed pointer h]
  rfl

end Surroundings

/-! ### Code -/

namespace Lowering

variable {link : CodeTarget → Word} {program : UnitCode} {c : Context} {start : Machine}
  {room : Nat} {Γ : TypingContext} {e : Expr} {target : AddressTarget} {addend : Word}

/-- A sum or difference of a pointer and a literal distance. -/
theorem simulated_distance {n m : Note} {op : BinaryOp} {base : Expr} {offset : Word}
    (hb : Simulated link program c start room base) (pointer : n.ty.isPointer = true)
    (same : base.ty = n.ty) (long : m.ty = .int .long) (addSub : op = .add ∨ op = .sub) :
    Simulated link program c start room (.binary n op base (.int m offset)) := by
  have distance : Simulated link program c start room (.int m offset) := by
    refine simulated_int ?_
    rw [long]
    exact IntType.wrap_w64 _ offset
  have double := CType.isDouble_of_isPointer pointer
  refine simulated_binary hb distance ?_ (by rw [same]) double (.inr addSub)
  rw [same, Expr.ty, Expr.note, long]
  exact ⟨CType.isVoid_of_isPointer pointer, double, rfl, rfl⟩

/-- The code of a constant address meets its evaluation, also where a double lies at the address. -/
theorem simulated_constantAddress (typed : e.WellTyped Γ) (pointer : e.ty.isPointer = true)
    (h : e.constantAddress? = some (target, addend)) : Simulated link program c start room e := by
  refine Expr.constantAddress?_induction
    (motive := fun e _ _ => Simulated link program c start room e)
    ?global ?str ?deref ?cast ?add ?sub typed pointer h
  case global =>
    intro n n' name isPointer
    refine simulated_addrOf_of_place (machineInt_of_isPointer isPointer)
      fun {_ _ _ _ _ _ _ _} lowered _ h _ => ?_
    obtain ⟨rfl, rfl⟩ := pure_eq_ok.mp lowered
    obtain ⟨run, amid⟩ := reaches_linkedAddress h (c.layout.target name) _
    exact Meets.pure run ⟨amid, gp_setGp_self _ _ _⟩
  case str =>
    intro n n' id isPointer
    refine simulated_addrOf_of_place (machineInt_of_isPointer isPointer)
      fun {_ _ _ _ _ _ _ _} lowered _ h _ => ?_
    obtain ⟨place, found, rfl, rfl⟩ := stringAddress_eq_ok.mp lowered
    obtain ⟨run, amid⟩ := reaches_linkedAddress h (.place place.1 place.2) none
    refine Meets.pure run ⟨amid, ?_⟩
    rw [gp_setGp_self, Context.surroundings]
    simp [found]
  case deref =>
    intro n n' p target addend isPointer inner ih
    refine simulated_addrOf_of_place (machineInt_of_isPointer isPointer)
      fun {_ _ _ _ _ _ _ _} lowered placed h fits => ?_
    rw [Surroundings.place]
    exact (ih.value lowered placed h fits).bind fun a memory' m' _ left =>
      Meets.pure (.refl _) ⟨left.amid, left.rax (CType.isVoid_of_isPointer inner)⟩
  case cast =>
    intro n e target addend isPointer inner ih
    exact simulated_cast ih (fun _ => CType.isVoid_of_isPointer inner)
      (CType.isDouble_of_isPointer inner) (CType.isDouble_of_isPointer isPointer)
  case add =>
    intro n m base offset target addend isPointer same long ih
    exact simulated_distance ih isPointer same long (.inl rfl)
  case sub =>
    intro n m base offset target addend isPointer same long ih
    exact simulated_distance ih isPointer same long (.inr rfl)

/-- What running the code of an expression leaves behind, and what it leaves alone. -/
def Computed (start : Machine) (room : Nat) (ty : CType) (v : Int) (memory : Memory)
    (m : Machine) : Prop :=
  (ty.isVoid = false → m.gp .rax = BitVec.ofInt 64 v) ∧
    (∀ r, r.isScratch = false → m.gp r = start.gp r) ∧ (∀ x, m.xmm x = start.xmm x) ∧
    ∀ a, room ≤ below (start.gp .rsp) a → m.memory.read a = memory.read a

theorem Leaves.computed {ty : CType} {v : Int} {memory : Memory} {m : Machine}
    (left : Leaves start room [] ty v memory m) : Computed start room ty v memory m := by
  refine ⟨left.rax, fun r scratch => ?_, left.amid.xmm, left.amid.agrees⟩
  by_cases stack : r = .rsp
  · subst stack
    simpa using left.amid.rsp
  · exact left.amid.gp r scratch stack

/-- The code of a simulated expression, behind code with older labels. -/
theorem meets_of_simulated {depth n n' : Nat} {code before rest : UnitCode}
    (simulated : Simulated link (before ++ (code ++ rest)) c start (8 * e.pushes) e)
    (lowered : expr c depth e n = .ok (code, n')) (fresh : ∀ l ∈ before.labels, l < n)
    (fits : 8 * e.pushes ≤ 2 ^ 64) :
    Meets link (before ++ (code ++ rest)) ((c.surroundings link start (8 * e.pushes)).value e)
      start.memory ⟨code ++ rest, start⟩ rest (Computed start (8 * e.pushes) e.ty) := by
  refine (simulated.value lowered (placed_of_fresh lowered fresh link) (.init start fits) ?_).mono
    fun v memory m left => left.computed
  simp

end Lowering

open Lowering

/-- What makes an expression a constant address: it has the same value in all surroundings, for
evaluation, for its code and as an initialiser, and assigning it stores that value. -/
structure Expr.Addresses (e : Expr) (target : AddressTarget) (addend : Word) (Γ : TypingContext) :
    Prop where
  value (s : Surroundings) : s.value e = pure ((s.address target + addend).toNat : Int)
  item (offset : Nat) (loc : Location) : InitForm.static.scalar e.ty offset e loc =
    pure ⟨offset, .address target addend.toInt⟩
  code {link : CodeTarget → Word} {c : Context} {depth n n' : Nat} {code before rest : UnitCode}
    (lowered : expr c depth e n = .ok (code, n')) (fresh : ∀ l ∈ before.labels, l < n)
    (fits : 8 * e.pushes ≤ 2 ^ 64) (start : Machine) : ∃ m,
      (unitCode link).Reaches (before ++ (code ++ rest)) ⟨code ++ rest, start⟩ ⟨rest, m⟩ ∧
        m.gp .rax = (c.surroundings link start (8 * e.pushes)).address target + addend ∧
        Computed start (8 * e.pushes) e.ty (m.gp .rax).toNat start.memory m
  assigned {n : Note} {object : Expr} (s : Surroundings) : s.value (.assign n object e) = (do
    let a ← s.place object
    s.write object.ty a (s.address target + addend).toNat
    return ((s.address target + addend).toNat : Int))
  /-- The code of an assignment to an object that is found without doubles and calls. -/
  assignedCode {note : Note} {object : Expr} {link : CodeTarget → Word} {c : Context}
    {depth n n' : Nat} {code before rest : UnitCode}
    (typed : (Expr.assign note object e).WellTyped Γ) (integral : object.IsIntegral)
    (lowered : expr c depth (.assign note object e) n = .ok (code, n'))
    (fresh : ∀ l ∈ before.labels, l < n)
    (fits : 8 * (Expr.assign note object e).pushes ≤ 2 ^ 64) (start : Machine) :
    let room := 8 * (Expr.assign note object e).pushes
    let s := c.surroundings link start room
    Meets link (before ++ (code ++ rest)) (do
        let a ← s.place object
        s.write object.ty a (s.address target + addend).toNat
        return ((s.address target + addend).toNat : Int))
      start.memory ⟨code ++ rest, start⟩ rest (Computed start room note.ty)

namespace Expr

variable {Γ : TypingContext} {e : Expr} {target : AddressTarget} {addend : Word}

theorem constantValue?_of_constantAddress? (pointer : e.ty.isPointer = true)
    (h : e.constantAddress? = some (target, addend)) :
    e.constantValue? e.ty = some (.address target addend.toInt) := by
  unfold constantValue?
  split
  case h_1 | h_2 => cases h
  case h_3 =>
    rw [if_pos pointer, h]
    rfl

theorem addresses_of_constantAddress? (canonical : ∀ t v, Γ.constant t v → t.wrap v = v)
    (typed : e.WellTyped Γ) (pointer : e.ty.isPointer = true)
    (h : e.constantAddress? = some (target, addend)) : e.Addresses target addend Γ where
  value s := s.value_of_constantAddress typed pointer h
  item offset loc := by
    simp only [InitForm.static, constantValue?_of_constantAddress? pointer h]
  code {link c depth n n' code before rest} lowered fresh fits start := by
    have own : Simulated link (before ++ (code ++ rest)) c start (8 * e.pushes) e :=
      simulated_constantAddress typed pointer h
    have meets := meets_of_simulated own lowered fresh fits
    rw [Surroundings.value_of_constantAddress _ typed pointer h] at meets
    obtain ⟨m, run, rax, others⟩ := meets
    have address := rax (CType.isVoid_of_isPointer pointer)
    rw [ofInt_toNat] at address
    refine ⟨m, run, address, fun _ => ?_, others⟩
    rw [ofInt_toNat]
  assigned {n object} s := s.value_assign_constantAddress typed pointer h n object
  assignedCode {note object link c depth n n' code before rest} assignment integral lowered fresh
      fits start := by
    intro room s
    obtain ⟨-, scalar, tyN, tyV⟩ := assignment.rule
    have place : Simulated link (before ++ (code ++ rest)) c start room object :=
      simulated canonical (assignment.part (.head _)) integral
    have both := simulated_assign (n := note) place (simulated_constantAddress typed pointer h) tyN
      tyV (CType.isVoid_of_isScalar scalar) integral.isDouble
    have meets := meets_of_simulated both lowered fresh fits
    rw [Surroundings.value_assign_constantAddress _ typed pointer h] at meets
    exact meets

end Expr

end LiveC
