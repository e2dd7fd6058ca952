import LiveC.Lowering.Function
import LiveC.Proofs.Sequence
import LiveC.Proofs.Straight
import LiveC.Proofs.TypingRules

/-!
Labels of lowered code. Code that is lowered from one label on, up to another, contains
every label between them exactly once and no other label.
-/

namespace LiveC
namespace Code

variable {ρ : Type}

theorem labels_eq_filterMap (i : Nat) (c : Code ρ) :
    (labelIndices i c).map Prod.fst =
      c.filterMap fun | .label l => some l | _ => none := by
  induction c generalizing i with
  | nil => rfl
  | cons p c ih =>
      cases p with
      | label l => simp only [labelIndices, List.map_cons, List.filterMap_cons, ih]
      | instr _ | linked _ _ => simp only [labelIndices, List.filterMap_cons, ih]

@[simp] theorem labels_nil : labels ([] : Code ρ) = [] := rfl

@[simp] theorem labels_append (c d : Code ρ) : labels (c ++ d) = c.labels ++ d.labels := by
  simp only [labels, labels_eq_filterMap, List.filterMap_append]

@[simp] theorem labels_label (l : Label) (c : Code ρ) : labels (.label l :: c) = l :: c.labels := by
  simp only [labels, labels_eq_filterMap, List.filterMap_cons]

@[simp] theorem labels_linked (f : Field) (r : ρ) (c : Code ρ) :
    labels (.linked f r :: c) = c.labels := by
  simp only [labels, labels_eq_filterMap, List.filterMap_cons]

@[simp] theorem labels_block (is : List (Instruction Label)) :
    Code.labels (Lowering.block is) = [] := by
  simp [labels, labels_eq_filterMap, Lowering.block]

end Code

namespace Lowering

theorem block_append (is js : List (Instruction Label)) :
    block (is ++ js) = block is ++ block js := List.map_append

theorem labels_unitCode (link : CodeTarget → Word) (c : UnitCode) :
    (unitCode link).labels c = c.labels := by
  rw [Code.labels, Code.labels_eq_filterMap, Language.labels]
  congr 1
  funext p
  cases p <;> rfl

theorem newLabel_eq_ok {n n' l : Label} : newLabel n = .ok (l, n') ↔ n = l ∧ n + 1 = n' := by
  simp [newLabel]

/-- The labels of the code are those between two labels, each of them once. -/
def Allotted (n : Nat) (code : UnitCode) (n' : Nat) : Prop :=
  n ≤ n' ∧ ∀ l : Nat, code.labels.count l = if n ≤ l ∧ l < n' then 1 else 0

theorem Allotted.nodup {n n' : Nat} {code : UnitCode} (h : Allotted n code n') :
    code.labels.Nodup := by
  rw [List.nodup_iff_count]
  intro l
  have := h.2 l
  split at this <;> omega

theorem Allotted.between {n n' l : Nat} {code : UnitCode} (h : Allotted n code n')
    (hl : l ∈ code.labels) : n ≤ l ∧ l < n' := by
  have positive := List.count_pos_iff.mpr hl
  have := h.2 l
  split at this
  · assumption
  · omega

theorem allotted_of_labels_eq_nil {code : UnitCode} (n : Nat) (h : code.labels = []) :
    Allotted n code n := by
  refine ⟨Nat.le_refl n, fun l => ?_⟩
  rw [h, if_neg (by omega), List.count_nil]

theorem Allotted.append {n k n' : Nat} {code others : UnitCode} (h : Allotted n code k)
    (ho : Allotted k others n') : Allotted n (code ++ others) n' := by
  refine ⟨Nat.le_trans h.1 ho.1, fun l => ?_⟩
  have hl := h.2 l
  have hol := ho.2 l
  have le := h.1
  have le' := ho.1
  rw [Code.labels_append, List.count_append]
  split at hl <;> split at hol <;> split <;> omega

/-- A label that is made in front of the code may stand anywhere in it. -/
theorem Allotted.insert {n n' : Nat} {code others : UnitCode} (h : Allotted (n + 1) others n')
    (labels : ∀ l : Nat, code.labels.count l = others.labels.count l + if n = l then 1 else 0) :
    Allotted n code n' := by
  refine ⟨Nat.le_of_succ_le h.1, fun l => ?_⟩
  have hl := h.2 l
  have le := h.1
  rw [labels]
  split at hl <;> split <;> split <;> omega

/-! ### Operators -/

@[simp] theorem labels_loadValue (ty : CType) (a : Address) :
    Code.labels (loadValue ty a) = [] := by
  cases ty with
  | array | function =>
      simp only [loadValue]
      split <;> simp
  | void | int | double | pointer => simp [loadValue]

@[simp] theorem labels_pushValue (ty : CType) : Code.labels (pushValue ty) = [] :=
  Code.labels_block _

@[simp] theorem labels_globalAddress (c : Context) (name : String) (ty : CType) :
    Code.labels (c.globalAddress name ty) = [] := Code.labels_linked _ _ _

variable {n n' : Label} {code : UnitCode}

theorem labels_storeValue {ty : CType} {a : Address} (h : storeValue ty a n = .ok (code, n')) :
    code.labels = [] ∧ n' = n := by
  cases ty with
  | int | pointer | double =>
      obtain ⟨rfl, rfl⟩ := pure_eq_ok.mp h
      simp
  | void | array | function => exact absurd h throw_ne_ok

theorem variableAddress_eq_ok {c : Context} {id : Nat} {a : Address} :
    c.variableAddress id n = .ok (a, n') ↔
      ∃ offset, c.offsets[id]? = some offset ∧ ⟨.rbp, offset⟩ = a ∧ n = n' := by
  unfold Context.variableAddress
  cases c.offsets[id]? with
  | some offset => simp [pure_eq_ok]
  | none => simp [throw_ne_ok]

theorem stringAddress_eq_ok {c : Context} {id : Nat} :
    c.stringAddress id n = .ok (code, n') ↔
      ∃ place, c.layout.strings[id]? = some place ∧
        linkedAddress (.place place.1 place.2) none = code ∧ n = n' := by
  unfold Context.stringAddress
  cases c.layout.strings[id]? with
  | some place => simp [pure_eq_ok]
  | none => simp [throw_ne_ok]

theorem operation_allotted {op : BinaryOp} {ty : CType} (h : operation op ty n = .ok (code, n')) :
    code.labels = [] ∧ n' = n := by
  unfold operation at h
  split at h
  · cases op with
    | add | sub | mul | div =>
        obtain ⟨rfl, rfl⟩ := pure_eq_ok.mp h
        simp
    | rem | shl | shr | bitAnd | bitOr | bitXor => exact absurd h throw_ne_ok
  · obtain ⟨rfl, rfl⟩ := pure_eq_ok.mp h
    simp [integerOp]

theorem conversion_allotted {source target : CType}
    (h : conversion source target n = .ok (code, n')) : Allotted n code n' := by
  unfold conversion at h
  split at h
  case isTrue =>
    obtain ⟨rfl, rfl⟩ := pure_eq_ok.mp h
    exact allotted_of_labels_eq_nil _ rfl
  case isFalse =>
    cases hs : source.isDouble <;> cases ht : target.isDouble <;> simp only [hs, ht] at h
    case false.true =>
      split at h
      · simp only [bind_eq_ok, newLabel_eq_ok, pure_eq_ok] at h
        obtain ⟨_, _, ⟨rfl, rfl⟩, _, _, ⟨rfl, rfl⟩, rfl, rfl⟩ := h
        have none : Allotted (n + 1 + 1) [] (n + 1 + 1) := allotted_of_labels_eq_nil _ rfl
        have inner : Allotted (n + 1) [.label (n + 1)] (n + 1 + 1) :=
          none.insert fun l => by simp [List.count_cons]
        refine inner.insert fun l => ?_
        simp [doubleOfUnsigned, List.count_cons, Nat.add_comm]
      · obtain ⟨rfl, rfl⟩ := pure_eq_ok.mp h
        exact allotted_of_labels_eq_nil _ (Code.labels_block _)
    all_goals
      obtain ⟨rfl, rfl⟩ := pure_eq_ok.mp h
      exact allotted_of_labels_eq_nil _ (by simp)

theorem stepping_allotted {ty : CType} {delta : Word} {before : Bool}
    (h : stepping ty delta before n = .ok (code, n')) : code.labels = [] ∧ n' = n := by
  unfold stepping at h
  split at h
  case isTrue =>
    obtain ⟨rfl, rfl⟩ := pure_eq_ok.mp h
    simp
  case isFalse =>
    dsimp only at h
    split at h
    case isTrue =>
      obtain ⟨_, _, refused, _⟩ := bind_eq_ok.mp h
      exact absurd refused throw_ne_ok
    case isFalse =>
      obtain ⟨rfl, rfl⟩ := pure_eq_ok.mp h
      simp

theorem compound_allotted {op : BinaryOp} {opTy targetTy valueTy : CType} {k j : Label}
    {target value : UnitCode} (ht : Allotted n target k) (hv : Allotted k value j)
    (h : compound op opTy targetTy valueTy target value j = .ok (code, n')) :
    Allotted n code n' := by
  simp only [compound, bind_eq_ok, pure_eq_ok] at h
  obtain ⟨widen, _, hw, compute, _, hc, narrow, _, hn, store, _, hs, rfl, rfl⟩ := h
  obtain ⟨noneC, rfl⟩ := operation_allotted hc
  obtain ⟨noneS, rfl⟩ := labels_storeValue hs
  have parts := (ht.append hv).append
    ((conversion_allotted hw).append (conversion_allotted hn))
  simpa [Allotted, noneC, noneS] using parts

theorem calling_allotted {depth : Nat} {signature : Signature} {tys : List CType}
    {call : UnitCode} (hcall : call.labels = [])
    (h : calling depth signature tys call n = .ok (code, n')) : code.labels = [] ∧ n' = n := by
  unfold calling at h
  cases ha : ArgumentRegisters.assignAll? {} (tys.map bankOf) with
  | none =>
      rw [ha] at h
      exact absurd h throw_ne_ok
  | some assigned =>
      rw [ha] at h
      obtain ⟨rfl, rfl⟩ := pure_eq_ok.mp h
      simp [hcall]

theorem labels_callNamed (c : Context) (name : String) : Code.labels (c.callNamed name) = [] := by
  unfold Context.callNamed
  split <;> simp

/-! ### Expressions -/

theorem address_ne_ok {c : Context} {depth : Nat} {e : Expr} (he : e.isPlace = false) :
    ¬address c depth e n = .ok (code, n') := by
  cases e with
  | var | global | deref | str => simp [Expr.isPlace] at he
  | _ => exact throw_ne_ok

theorem arguments_allotted {c : Context} {args : List Expr}
    (each : ∀ e ∈ args, ∀ depth n code n', expr c depth e n = .ok (code, n') →
      Allotted n code n') {depth : Nat} {n n' : Label} {code : UnitCode}
    (h : arguments c depth args n = .ok (code, n')) : Allotted n code n' := by
  induction args generalizing depth n code with
  | nil =>
      obtain ⟨rfl, rfl⟩ := pure_eq_ok.mp h
      exact allotted_of_labels_eq_nil _ rfl
  | cons e es ih =>
      simp only [arguments, bind_eq_ok, pure_eq_ok] at h
      obtain ⟨first, _, hf, others, _, ho, rfl, rfl⟩ := h
      have parts := (each e List.mem_cons_self _ _ _ _ hf).append
        (ih (fun e he => each e (List.mem_cons_of_mem _ he)) ho)
      simpa [Allotted] using parts

/-- The code of an assignment to what is no variable. -/
theorem expr_assign {c : Context} {depth : Nat} {n : Note} {target value : Expr}
    (h : ∀ m id, target ≠ .var m id) :
    expr c depth (.assign n target value) = (do
      let place ← address c depth target
      let value ← expr c (depth + 1) value
      return place ++ block [.push .rax] ++ value ++ block [.pop .rdx] ++
        (← storeValue target.ty ⟨.rdx, 0⟩)) := by
  rw [expr]
  exact h

/-- Both the code of an expression and that of its address keep to the labels they make. -/
theorem expr_address_allotted (c : Context) (e : Expr) :
    (∀ depth n code n', expr c depth e n = .ok (code, n') → Allotted n code n') ∧
    (∀ depth n code n', address c depth e n = .ok (code, n') → Allotted n code n') := by
  induction e with
  | int n v | float n v =>
      refine ⟨fun depth n code n' h => ?_, fun _ _ _ _ h => absurd h (address_ne_ok rfl)⟩
      obtain ⟨rfl, rfl⟩ := pure_eq_ok.mp h
      exact allotted_of_labels_eq_nil _ (by simp [literal])
  | str m id =>
      refine ⟨fun depth n code n' h => ?_, fun depth n code n' h => ?_⟩ <;>
      · obtain ⟨_, _, rfl, rfl⟩ := stringAddress_eq_ok.mp h
        exact allotted_of_labels_eq_nil _ (Code.labels_linked _ _ _)
  | var m id =>
      refine ⟨fun depth n code n' h => ?_, fun depth n code n' h => ?_⟩ <;>
      · simp only [expr, address, bind_eq_ok, variableAddress_eq_ok, pure_eq_ok] at h
        obtain ⟨_, _, ⟨_, _, rfl, rfl⟩, rfl, rfl⟩ := h
        exact allotted_of_labels_eq_nil _ (by simp)
  | global m name =>
      refine ⟨fun depth n code n' h => ?_, fun depth n code n' h => ?_⟩ <;>
      · obtain ⟨rfl, rfl⟩ := pure_eq_ok.mp h
        exact allotted_of_labels_eq_nil _ (by simp)
  | deref m e ih =>
      refine ⟨fun depth n code n' h => ?_, fun depth n code n' h => ih.1 _ _ _ _ h⟩
      simp only [expr, bind_eq_ok, pure_eq_ok] at h
      obtain ⟨code, _, he, rfl, rfl⟩ := h
      simpa [Allotted] using ih.1 _ _ _ _ he
  | addrOf m e ih =>
      exact ⟨fun depth n code n' h => ih.2 _ _ _ _ h, fun _ _ _ _ h => absurd h (address_ne_ok rfl)⟩
  | unary m op e ih =>
      refine ⟨fun depth n code n' h => ?_, fun _ _ _ _ h => absurd h (address_ne_ok rfl)⟩
      simp only [expr, bind_eq_ok, pure_eq_ok] at h
      obtain ⟨code, _, he, rfl, rfl⟩ := h
      simpa [Allotted, unaryOp] using ih.1 _ _ _ _ he
  | binary m op l r ihl ihr =>
      refine ⟨fun depth n code n' h => ?_, fun _ _ _ _ h => absurd h (address_ne_ok rfl)⟩
      simp only [expr, bind_eq_ok, pure_eq_ok] at h
      obtain ⟨left, _, hl, right, _, hr, compute, _, hc, rfl, rfl⟩ := h
      obtain ⟨none, rfl⟩ := operation_allotted hc
      simpa [Allotted, operands, none] using (ihl.1 _ _ _ _ hl).append (ihr.1 _ _ _ _ hr)
  | compare m op l r ihl ihr =>
      refine ⟨fun depth n code n' h => ?_, fun _ _ _ _ h => absurd h (address_ne_ok rfl)⟩
      simp only [expr, bind_eq_ok, pure_eq_ok] at h
      obtain ⟨left, _, hl, right, _, hr, rfl, rfl⟩ := h
      simpa [Allotted, operands, comparison] using (ihl.1 _ _ _ _ hl).append (ihr.1 _ _ _ _ hr)
  | logic m op l r ihl ihr =>
      refine ⟨fun depth n code n' h => ?_, fun _ _ _ _ h => absurd h (address_ne_ok rfl)⟩
      simp only [expr, bind_eq_ok, pure_eq_ok, newLabel_eq_ok] at h
      obtain ⟨_, _, ⟨rfl, rfl⟩, left, _, hl, right, _, hr, rfl, rfl⟩ := h
      refine ((ihl.1 _ _ _ _ hl).append (ihr.1 _ _ _ _ hr)).insert fun l => ?_
      simp [branch, List.count_cons, Nat.add_assoc]
  | assign m target value iht ihv =>
      refine ⟨fun depth n code n' h => ?_, fun _ _ _ _ h => absurd h (address_ne_ok rfl)⟩
      by_cases hvar : ∃ k id, target = .var k id
      · obtain ⟨k, id, rfl⟩ := hvar
        simp only [expr, bind_eq_ok, variableAddress_eq_ok, pure_eq_ok] at h
        obtain ⟨value, _, hv, _, _, ⟨_, _, rfl, rfl⟩, store, _, hs, rfl, rfl⟩ := h
        obtain ⟨none, rfl⟩ := labels_storeValue hs
        simpa [Allotted, none] using ihv.1 _ _ _ _ hv
      · rw [expr_assign fun k id e => hvar ⟨k, id, e⟩] at h
        simp only [bind_eq_ok, pure_eq_ok] at h
        obtain ⟨place, _, hp, value, _, hv, store, _, hs, rfl, rfl⟩ := h
        obtain ⟨none, rfl⟩ := labels_storeValue hs
        simpa [Allotted, none] using (iht.2 _ _ _ _ hp).append (ihv.1 _ _ _ _ hv)
  | opAssign m op ty target value iht ihv =>
      refine ⟨fun depth n code n' h => ?_, fun _ _ _ _ h => absurd h (address_ne_ok rfl)⟩
      simp only [expr, bind_eq_ok] at h
      obtain ⟨place, _, hp, value, _, hv, h⟩ := h
      exact compound_allotted (iht.2 _ _ _ _ hp) (ihv.1 _ _ _ _ hv) h
  | step m delta before target iht =>
      refine ⟨fun depth n code n' h => ?_, fun _ _ _ _ h => absurd h (address_ne_ok rfl)⟩
      simp only [expr, bind_eq_ok, pure_eq_ok] at h
      obtain ⟨place, _, hp, code, _, hc, rfl, rfl⟩ := h
      obtain ⟨none, rfl⟩ := stepping_allotted hc
      simpa [Allotted, none] using iht.2 _ _ _ _ hp
  | cond m c t f ihc iht ihf =>
      refine ⟨fun depth n code n' h => ?_, fun _ _ _ _ h => absurd h (address_ne_ok rfl)⟩
      simp only [expr, bind_eq_ok, pure_eq_ok, newLabel_eq_ok] at h
      obtain ⟨_, _, ⟨rfl, rfl⟩, _, _, ⟨rfl, rfl⟩, test, _, hc, yes, _, ht, no, _, hf, rfl, rfl⟩ := h
      have parts := ((ihc.1 _ _ _ _ hc).append (iht.1 _ _ _ _ ht)).append (ihf.1 _ _ _ _ hf)
      have inner : Allotted (n + 1) (test ++ yes ++ no ++ [.label (n + 1)]) _ :=
        parts.insert fun l => by simp [List.count_cons, Nat.add_assoc]
      refine inner.insert fun l => ?_
      simp [branch, List.count_cons]
      omega
  | cast m e ih =>
      refine ⟨fun depth n code n' h => ?_, fun _ _ _ _ h => absurd h (address_ne_ok rfl)⟩
      simp only [expr, bind_eq_ok, pure_eq_ok] at h
      obtain ⟨code, _, he, convert, _, hc, rfl, rfl⟩ := h
      exact (ih.1 _ _ _ _ he).append (conversion_allotted hc)
  | call m name s args ih =>
      refine ⟨fun depth n code n' h => ?_, fun _ _ _ _ h => absurd h (address_ne_ok rfl)⟩
      simp only [expr, bind_eq_ok, pure_eq_ok] at h
      obtain ⟨pushed, _, hp, code, _, hc, rfl, rfl⟩ := h
      obtain ⟨none, rfl⟩ := calling_allotted (labels_callNamed c name) hc
      simpa [Allotted, none] using arguments_allotted (fun e he => (ih e he).1) hp
  | callPointer m s callee args ihc ih =>
      refine ⟨fun depth n code n' h => ?_, fun _ _ _ _ h => absurd h (address_ne_ok rfl)⟩
      simp only [expr, bind_eq_ok, pure_eq_ok] at h
      obtain ⟨pushed, _, hp, pointer, _, hf, code, _, hc, rfl, rfl⟩ := h
      obtain ⟨none, rfl⟩ := calling_allotted (Code.labels_block _) hc
      have parts := (arguments_allotted (fun e he => (ih e he).1) hp).append (ihc.1 _ _ _ _ hf)
      simpa [Allotted, none] using parts
  | comma m l r ihl ihr =>
      refine ⟨fun depth n code n' h => ?_, fun _ _ _ _ h => absurd h (address_ne_ok rfl)⟩
      simp only [expr, bind_eq_ok, pure_eq_ok] at h
      obtain ⟨left, _, hl, right, _, hr, rfl, rfl⟩ := h
      exact (ihl.1 _ _ _ _ hl).append (ihr.1 _ _ _ _ hr)

end Lowering
end LiveC
