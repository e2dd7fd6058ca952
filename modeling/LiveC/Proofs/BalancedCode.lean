import LiveC.Lowering.Statement
import LiveC.Proofs.Labels
import LiveC.Proofs.LoweringTotal
import LiveC.Proofs.StatementLabels

/-!
How many words code has pushed at each of its places, as seen without running it: every
instruction changes their number by what it says, and a jump finds as many at its label as
it leaves with. Code is orderly if it keeps to this, calls only at even numbers, and leaves
the registers of its callers alone.

The code of expressions and statements takes off the stack what it pushes, jumps only between
places of the same height, and calls at even heights. The depth that the lowering of an
expression is given is the height at which its code is run.
-/

namespace LiveC

/-- The registers that a function has to leave as they were. -/
def Gp.isPreserved : Gp → Bool
  | .rbx | .rsp | .rbp | .r12 | .r13 | .r14 | .r15 => true
  | _ => false

namespace Instruction

variable {τ : Type}

/-- The general registers that an instruction writes. -/
def written : Instruction τ → List Gp
  | mov d _ | movToGp d _ | clear d | movImm d _ | movImm32 d _ | load d _ _ _ | lea d _
  | leaSum d _ _ | extend d _ _ | alu _ d _ | aluImm _ d _ | shift _ d | shiftImm _ d _ | neg d
  | not d | flipBit d _ | set _ d | doubleToInt d _ => [d]
  | signExtend => [.rdx]
  | divide _ _ => [.rax, .rdx]
  | fill => [.rdi, .rcx]
  | push _ | ret => [.rsp]
  | pop r => [.rsp, r]
  | leave => [.rsp, .rbp]
  | _ => []

/-- Whether an instruction hands control to the next one and changes neither the stack nor a
preserved register. A division may not take its divisor from where the dividend is. -/
def isPlain : Instruction τ → Bool
  | jmp _ | jcc _ _ | call _ | callRegister _ | jmpStored _ | trap => false
  | divide r _ => r != .rax && r != .rdx
  | i => i.written.all (!·.isPreserved)

/-- The number of pushed words behind an instruction. -/
def pushed (h : Nat) : Instruction τ → Nat
  | push _ => h + 1
  | pop _ => h - 1
  | aluImm .sub .rsp _ => h + 1
  | aluImm .add .rsp _ => h - 1
  | _ => h

end Instruction

/-- Where jumps and calls may go: labels with the number of pushed words there, and the
entries of functions. -/
structure Landmarks where
  height? : Label → Option Nat
  IsEntry : Label → Prop

namespace Instruction

/-- What an instruction may do with `h` words pushed, of which the first `floor` are not to be
popped. -/
def Orderly (M : Landmarks) (floor h : Nat) : Instruction Label → Prop
  | push r => r.isPreserved = false
  | pop r => floor < h ∧ r.isPreserved = false
  | aluImm .sub .rsp v => v = 8
  | aluImm .add .rsp v => v = 8 ∧ floor < h
  | jmp l | jcc _ l => M.height? l = some h
  | call l => h % 2 = 0 ∧ M.IsEntry l
  | callRegister _ => h % 2 = 0
  | i => i.isPlain = true

end Instruction

namespace Piece

variable {ρ : Type}

def pushed (h : Nat) : Piece ρ → Nat
  | instr i => i.pushed h
  | label _ | linked _ _ => h

@[simp] theorem pushed_label (h : Nat) (l : Label) : (label l : Piece ρ).pushed h = h := rfl

/-- The label of a piece with the number of pushed words at it. -/
def marks (h : Nat) : Piece ρ → List (Label × Nat)
  | label l => [(l, h)]
  | instr _ | linked _ _ => []

def Orderly (M : Landmarks) (floor h : Nat) : Piece Reference → Prop
  | label l => M.height? l = some h
  | instr i => i.Orderly M floor h
  | linked f r =>
      (∀ l, r.target = .entry l → M.IsEntry l) ∧
        match f with
        | .call => h % 2 = 0
        | .address d => d.isPreserved = false

def isPlain : Piece Reference → Bool
  | instr i => i.isPlain
  | linked .. | label _ => false

end Piece

theorem Piece.orderly_weaken {M : Landmarks} {floor floor' h : Nat} {p : Piece Reference}
    (orderly : p.Orderly M floor h) (le : floor' ≤ floor) : p.Orderly M floor' h := by
  cases p with
  | label => exact orderly
  | linked => exact orderly
  | instr i =>
      cases i with
      | pop r => exact ⟨Nat.lt_of_le_of_lt le orderly.1, orderly.2⟩
      | aluImm op d v =>
          cases op <;> cases d
          case add.rsp => exact ⟨orderly.1, Nat.lt_of_le_of_lt le orderly.2⟩
          all_goals exact orderly
      | _ => exact orderly

namespace Code

variable {ρ : Type}

/-- The number of pushed words behind code. -/
def pushed (h : Nat) (c : Code ρ) : Nat := c.foldl Piece.pushed h

/-- The labels of code with the number of pushed words at each. -/
def marks (h : Nat) : Code ρ → List (Label × Nat)
  | [] => []
  | p :: rest => p.marks h ++ marks (p.pushed h) rest

/-- Every piece may do what it does. -/
def Orderly (M : Landmarks) (floor h : Nat) : UnitCode → Prop
  | [] => True
  | p :: rest => p.Orderly M floor h ∧ Orderly M floor (p.pushed h) rest

variable {h : Nat} {c d : Code ρ}

@[simp] theorem pushed_nil : pushed h ([] : Code ρ) = h := rfl

@[simp] theorem pushed_append : pushed h (c ++ d) = d.pushed (c.pushed h) := List.foldl_append

@[simp] theorem pushed_cons (p : Piece ρ) : pushed h (p :: c) = c.pushed (p.pushed h) := rfl

@[simp] theorem marks_nil : marks h ([] : Code ρ) = [] := rfl

@[simp] theorem marks_label (l : Label) :
    marks h ((.label l : Piece ρ) :: c) = (l, h) :: c.marks h := rfl

theorem marks_append : marks h (c ++ d) = c.marks h ++ d.marks (c.pushed h) := by
  induction c generalizing h with
  | nil => rfl
  | cons p c ih => simp only [List.cons_append, marks, ih, pushed_cons, List.append_assoc]

theorem map_fst_marks (h : Nat) (c : Code ρ) : (c.marks h).map Prod.fst = c.labels := by
  rw [labels, labels_eq_filterMap]
  induction c generalizing h with
  | nil => rfl
  | cons p c ih =>
      cases p with
      | label l => exact congrArg _ (ih h)
      | instr | linked => exact ih _

theorem orderly_append {M : Landmarks} {floor : Nat} {c d : UnitCode} :
    Orderly M floor h (c ++ d) ↔ c.Orderly M floor h ∧ d.Orderly M floor (c.pushed h) := by
  induction c generalizing h with
  | nil => simp [Orderly]
  | cons p c ih => simp only [List.cons_append, Orderly, pushed_cons, ih, and_assoc]

end Code

/-- Landmarks that show labels with their heights. -/
def Landmarks.Shows (M : Landmarks) (marks : List (Label × Nat)) : Prop :=
  ∀ m ∈ marks, M.height? m.1 = some m.2

namespace Lowering

/-- Code goes from one height to another: it is orderly wherever its labels are shown. -/
def Moves (M : Landmarks) (floor h : Nat) (code : UnitCode) (h' : Nat) : Prop :=
  code.pushed h = h' ∧ (M.Shows (code.marks h) → code.Orderly M floor h)

/-- Code that takes off what it pushes, and no more. -/
abbrev Balanced (M : Landmarks) (h : Nat) (code : UnitCode) : Prop := Moves M h h code h

namespace Moves

variable {M : Landmarks} {floor floor' h h' k : Nat} {code others : UnitCode}

theorem pushed (m : Moves M floor h code h') : code.pushed h = h' := m.1

theorem append (m : Moves M floor h code k) (mo : Moves M floor k others h') :
    Moves M floor h (code ++ others) h' := by
  refine ⟨by rw [Code.pushed_append, m.1, mo.1], fun shown => ?_⟩
  rw [Code.marks_append, m.1] at shown
  rw [Code.orderly_append, m.1]
  exact ⟨m.2 fun l member => shown l (List.mem_append_left _ member),
    mo.2 fun l member => shown l (List.mem_append_right _ member)⟩

/-- The landmarks show the label that a part is about to use. -/
theorem showing {l : Label} (pushed : code.pushed h = h') (mark : (l, k) ∈ code.marks h)
    (m : M.height? l = some k → Moves M floor h code h') : Moves M floor h code h' :=
  ⟨pushed, fun shown => (m (shown _ mark)).2 shown⟩

theorem nil : Moves M floor h [] h := ⟨rfl, fun _ => trivial⟩

theorem label (l : Label) : Moves M floor h [.label l] h :=
  ⟨rfl, fun shown => ⟨shown _ (.head _), trivial⟩⟩

theorem instr {i : Instruction Label} (orderly : i.Orderly M floor h) :
    Moves M floor h (block [i]) (i.pushed h) := ⟨rfl, fun _ => ⟨orderly, trivial⟩⟩

theorem cons {i : Instruction Label} {is : List (Instruction Label)}
    (orderly : i.Orderly M floor h) (m : Moves M floor (i.pushed h) (block is) h') :
    Moves M floor h (block (i :: is)) h' := (instr orderly).append m

theorem push {r : Gp} (free : r.isPreserved = false) : Moves M floor h (block [.push r]) (h + 1) :=
  instr free

theorem pop {r : Gp} (own : floor ≤ h) (free : r.isPreserved = false) :
    Moves M floor (h + 1) (block [.pop r]) h := instr ⟨Nat.lt_succ_of_le own, free⟩

/-- A jump to a label that is shown. -/
theorem jump {l : Label} (shown : M.height? l = some h) :
    Moves M floor h (block [.jmp l]) h := instr shown

theorem orderly_of_isPlain {p : Piece Reference} (plain : p.isPlain = true) :
    p.Orderly M floor h ∧ p.pushed h = h := by
  cases p with
  | label => cases plain
  | linked => cases plain
  | instr i =>
      cases i with
      | aluImm op d v => cases op <;> cases d <;> first | exact ⟨plain, rfl⟩ | cases plain
      | push | pop | jmp | jcc | call | callRegister | jmpStored | trap | leave | ret => cases plain
      | _ => exact ⟨plain, rfl⟩

/-- Plain code changes no height, wherever it is. -/
theorem plain (plain : code.all Piece.isPlain = true) : Moves M floor h code h := by
  induction code with
  | nil => exact nil
  | cons p code ih =>
      rw [List.all_cons, Bool.and_eq_true] at plain
      obtain ⟨orderly, pushed⟩ := orderly_of_isPlain (M := M) (h := h) plain.1
      refine ⟨by rw [Code.pushed_cons, pushed, (ih plain.2).1], fun shown => ⟨orderly, ?_⟩⟩
      rw [pushed]
      refine (ih plain.2).2 fun l member => shown l (List.mem_append_right _ ?_)
      rwa [pushed]

theorem block {is : List (Instruction Label)} (plain : is.all Instruction.isPlain = true) :
    Moves M floor h (block is) h :=
  .plain (by simpa [Lowering.block, Function.comp_def, Piece.isPlain] using plain)

/-- What does not pop below one height does not pop below a lower one. -/
theorem weaken (m : Moves M floor h code h') (le : floor' ≤ floor) : Moves M floor' h code h' := by
  refine ⟨m.1, fun shown => ?_⟩
  have orderly := m.2 shown
  clear m shown
  induction code generalizing h with
  | nil => trivial
  | cons p code ih => exact ⟨Piece.orderly_weaken orderly.1 le, ih orderly.2⟩

end Moves

end Lowering
end LiveC

/-! ### Expressions and statements -/

namespace LiveC
namespace Lowering

theorem all_block (is : List (Instruction Label)) :
    (block is).all Piece.isPlain = is.all Instruction.isPlain := by
  simp [block, Function.comp_def, Piece.isPlain]

variable {M : Landmarks} {floor h n n' : Nat} {code : UnitCode}

/-! ### Plain pieces -/

theorem plain_extension {r : Gp} (free : r.isPreserved = false) (t : IntType) :
    (extension r t).all Instruction.isPlain = true := by
  unfold extension
  split
  · rfl
  · simp [Instruction.isPlain, Instruction.written, free]

theorem plain_loadValue (ty : CType) (a : Address) :
    (loadValue ty a).all Piece.isPlain = true := by
  cases ty with
  | array | function =>
      simp only [loadValue]
      split <;> rfl
  | void | int | double | pointer => rfl

theorem plain_storeValue {ty : CType} {a : Address} (run : storeValue ty a n = .ok (code, n')) :
    code.all Piece.isPlain = true := by
  cases ty with
  | int | pointer | double =>
      obtain ⟨rfl, -⟩ := pure_eq_ok.mp run
      rfl
  | void | array | function => exact absurd run throw_ne_ok

theorem plain_settingWord {r : Gp} (free : r.isPreserved = false) (v : Word) :
    (Assembling.settingWord r v).isPlain = true := by
  unfold Assembling.settingWord
  split <;> simp [Instruction.isPlain, Instruction.written, free]

theorem plain_literal (v : Word) : (literal v).all Piece.isPlain = true := by
  simp [literal, all_block, plain_settingWord (r := .rax) rfl]

theorem plain_operation {op : BinaryOp} {ty : CType} (run : operation op ty n = .ok (code, n')) :
    code.all Piece.isPlain = true := by
  unfold operation at run
  split at run
  · cases op with
    | add | sub | mul | div =>
        obtain ⟨rfl, -⟩ := pure_eq_ok.mp run
        rfl
    | rem | shl | shr | bitAnd | bitOr | bitXor => exact absurd run throw_ne_ok
  · obtain ⟨rfl, -⟩ := pure_eq_ok.mp run
    rw [integerOp, all_block, List.all_append, plain_extension rfl, Bool.and_true]
    cases op <;> cases (machineInt ty).signed <;> rfl

theorem plain_comparison (op : CompareOp) (ty : CType) :
    (comparison op ty).all Piece.isPlain = true := by
  rw [comparison, all_block]
  split
  · cases op <;> rfl
  · rfl

theorem plain_unaryOp (op : UnaryOp) (ty : CType) : (unaryOp op ty).all Piece.isPlain = true := by
  have extended := plain_extension (r := .rax) rfl (machineInt ty)
  unfold unaryOp
  rw [all_block]
  cases op with
  | neg =>
      dsimp only
      split
      · rfl
      · exact extended
  | bitNot => exact extended

theorem plain_stepping {ty : CType} {delta : Word} {before : Bool}
    (run : stepping ty delta before n = .ok (code, n')) : code.all Piece.isPlain = true := by
  have load := plain_loadValue ty ⟨.rdx, 0⟩
  unfold stepping at run
  split at run
  case isTrue =>
    obtain ⟨rfl, -⟩ := pure_eq_ok.mp run
    simp only [List.all_append, all_block, load, List.all_cons, plain_settingWord (r := .rcx) rfl]
    cases before <;> rfl
  case isFalse =>
    dsimp only at run
    split at run
    case isTrue =>
      obtain ⟨_, _, refused, _⟩ := bind_eq_ok.mp run
      exact absurd refused throw_ne_ok
    case isFalse =>
      obtain ⟨rfl, -⟩ := pure_eq_ok.mp run
      simp only [List.all_append, all_block, load, plain_extension (r := .rax) rfl]
      cases before <;> rfl

/-! ### Pushed operands -/

theorem pushValue_moves (ty : CType) : Moves M floor h (pushValue ty) (h + 1) := by
  unfold pushValue
  split
  · exact .cons rfl (.push rfl)
  · exact .push rfl

theorem doubleOfUnsigned_moves (big done : Label) :
    Moves M floor h (doubleOfUnsigned big done) h := by
  refine .showing (l := big) (k := h) rfl (.head _) fun shownBig =>
    .showing (l := done) (k := h) rfl (.tail _ (.head _)) fun shownDone => ?_
  have halve : Moves M floor h (block [.mov .rcx .rax, .shiftImm .shr .rcx 1, .aluImm .and .rax 1,
      .alu .or .rcx .rax, .intToDouble .xmm0 .rcx, .sse .add .xmm0 .xmm0]) h := .block rfl
  have test : Moves M floor h (block [.test .rax .rax, .jcc .sign big, .intToDouble .xmm0 .rax,
      .jmp done]) h := .cons rfl (.cons shownBig (.cons rfl (.jump shownDone)))
  exact ((test.append (.label big)).append halve).append (.label done)

theorem conversion_moves {source target : CType}
    (run : conversion source target n = .ok (code, n')) : Moves M floor h code h := by
  unfold conversion at run
  split at run
  case isTrue =>
    obtain ⟨rfl, -⟩ := pure_eq_ok.mp run
    exact .nil
  case isFalse =>
    cases hs : source.isDouble <;> cases ht : target.isDouble <;> simp only [hs, ht] at run
    case false.true =>
      split at run
      · simp only [bind_eq_ok, newLabel_eq_ok, pure_eq_ok] at run
        obtain ⟨big, _, -, done, _, -, rfl, -⟩ := run
        exact doubleOfUnsigned_moves big done
      · obtain ⟨rfl, -⟩ := pure_eq_ok.mp run
        exact .plain rfl
    case false.false =>
      obtain ⟨rfl, -⟩ := pure_eq_ok.mp run
      exact .plain (by rw [all_block, plain_extension rfl])
    case true.false =>
      obtain ⟨rfl, -⟩ := pure_eq_ok.mp run
      exact .plain (by rw [all_block, List.all_cons, plain_extension rfl]; rfl)
    case true.true =>
      obtain ⟨rfl, -⟩ := pure_eq_ok.mp run
      exact .nil

theorem operands_moves {l r : UnitCode} {lTy rTy : CType} (hl : Balanced M h l)
    (hr : Balanced M (h + 1) r) : Balanced M h (operands l r lTy rTy) := by
  refine ((hl.append (pushValue_moves lTy)).append (hr.weaken (Nat.le_succ h))).append ?_
  split
  · exact .cons rfl (.cons ⟨Nat.lt_succ_self h, rfl⟩ (.cons rfl .nil))
  · exact .cons rfl (.cons ⟨Nat.lt_succ_self h, rfl⟩ .nil)

theorem compound_moves {op : BinaryOp} {opTy targetTy valueTy : CType} {target value : UnitCode}
    (ht : Balanced M h target) (hv : Balanced M (h + 1) value)
    (run : compound op opTy targetTy valueTy target value n = .ok (code, n')) :
    Balanced M h code := by
  simp only [compound, bind_eq_ok, pure_eq_ok] at run
  obtain ⟨widen, _, hw, compute, _, hc, narrow, _, hn, store, _, hs, rfl, -⟩ := run
  have saved : Moves M h (h + 2) (block [.load .rdx ⟨.rsp, 8⟩ .w64 false]) (h + 2) := .block rfl
  have operand : Moves M h (h + 2)
      (block (.pop .rcx :: if opTy.isDouble then [.movToXmm .xmm1 .rcx] else [])) (h + 1) := by
    split
    · exact .cons ⟨by omega, rfl⟩ (.cons rfl .nil)
    · exact .cons ⟨by omega, rfl⟩ .nil
  have finish := (Moves.pop (M := M) (r := .rdx) (Nat.le_refl h) rfl).append
    (.plain (plain_storeValue hs))
  have change := ((conversion_moves hw).append operand).append
    (((Moves.plain (plain_operation hc)).append (conversion_moves hn)).append finish)
  have values := (ht.append (.push (r := .rax) rfl)).append
    ((hv.weaken (Nat.le_succ h)).append (pushValue_moves valueTy))
  have whole := (values.append (saved.append (.plain (plain_loadValue targetTy ⟨.rdx, 0⟩)))).append change
  simpa only [List.append_assoc] using whole

/-! ### Calls -/

/-- A register that an argument may be popped into. -/
def Register.isFree : Register → Bool
  | .gp r => !r.isPreserved
  | .xmm _ => true

theorem isFree_of_assign? {taken taken' : ArgumentRegisters} {b : Bank} {r : Register}
    (h : taken.assign? b = some (r, taken')) : Register.isFree r = true := by
  cases b with
  | general =>
      obtain ⟨g, found, e⟩ := Option.map_eq_some_iff.mp h
      cases e
      have member := List.mem_of_getElem? found
      have all : ∀ g ∈ ArgumentRegisters.generalRegisters, Register.isFree (.gp g) = true := by decide
      exact all g member
  | vector =>
      obtain ⟨x, -, e⟩ := Option.map_eq_some_iff.mp h
      cases e
      rfl

/-- There is a register for each argument, none of them preserved. -/
theorem assignAll?_free {banks : List Bank} {taken : ArgumentRegisters} {rs : List Register}
    {last : ArgumentRegisters} (h : ArgumentRegisters.assignAll? taken banks = some (rs, last)) :
    rs.length = banks.length ∧ ∀ r ∈ rs, Register.isFree r = true := by
  induction banks generalizing taken rs with
  | nil =>
      cases h
      exact ⟨rfl, nofun⟩
  | cons b banks ih =>
      simp only [ArgumentRegisters.assignAll?, Option.bind_eq_bind, Option.bind_eq_some_iff,
        Option.pure_def, Option.some.injEq, Prod.exists, Prod.mk.injEq] at h
      obtain ⟨r, taken', first, rs, last, others, rfl, rfl⟩ := h
      obtain ⟨same, free⟩ := ih others
      exact ⟨congrArg Nat.succ same, List.forall_mem_cons.mpr ⟨isFree_of_assign? first, free⟩⟩

/-- Popping arguments takes off a word for each. -/
theorem popArguments_moves {rs : List Register} (free : ∀ r ∈ rs, Register.isFree r = true) :
    Moves M h (h + rs.length) (block (rs.flatMap popArgument)) h := by
  induction rs with
  | nil => exact .nil
  | cons r rs ih =>
      obtain ⟨first, others⟩ := List.forall_mem_cons.mp free
      rw [List.flatMap_cons, block_append, List.length_cons, ← Nat.add_assoc]
      refine .append (k := h + rs.length) ?_ (ih others)
      cases r with
      | gp r => exact .pop (Nat.le_add_right h _) ((Bool.not_eq_true' _).mp first)
      | xmm x => exact .cons ⟨by omega, rfl⟩ (.cons rfl .nil)

/-- A call is made at an even depth, and its result is extended. -/
theorem aligned_moves {depth : Nat} {call : UnitCode} {extend : List (Instruction Label)}
    (atEven : ∀ k, depth ≤ k → k % 2 = 0 → Balanced M k call)
    (plain : extend.all (·.isPlain) = true) :
    Moves M depth depth (block (if depth % 2 = 1 then [.aluImm .sub .rsp 8] else []) ++
      (call ++ (block (if depth % 2 = 1 then [.aluImm .add .rsp 8] else []) ++ block extend)))
      depth := by
  have extended : Balanced M depth (block extend) := .block plain
  by_cases odd : depth % 2 = 1
  case pos =>
    have padded := atEven (depth + 1) (Nat.le_succ depth) (by omega)
    have open' : Moves M depth depth (block [.aluImm .sub .rsp 8]) (depth + 1) := .instr rfl
    have close : Moves M depth (depth + 1) (block [.aluImm .add .rsp 8]) depth :=
      .instr ⟨rfl, Nat.lt_succ_self depth⟩
    simp only [odd, if_true]
    exact open'.append ((padded.weaken (Nat.le_succ depth)).append (close.append extended))
  case neg =>
    simp only [odd, if_false]
    exact Moves.nil.append ((atEven depth (Nat.le_refl depth) (by omega)).append
      (Moves.nil.append extended))

theorem calling_moves {depth : Nat} {signature : Signature} {tys : List CType} {call : UnitCode}
    (atEven : ∀ k, depth ≤ k → k % 2 = 0 → Balanced M k call)
    (run : calling depth signature tys call n = .ok (code, n')) :
    Moves M depth (depth + tys.length) code depth := by
  unfold calling at run
  cases assigned : ArgumentRegisters.assignAll? {} (tys.map bankOf) with
  | none =>
      rw [assigned] at run
      exact absurd run throw_ne_ok
  | some r =>
      rw [assigned] at run
      obtain ⟨rfl, -⟩ := pure_eq_ok.mp run
      obtain ⟨same, free⟩ := assignAll?_free assigned
      have pops : Moves M depth (depth + tys.length) (block (r.1.reverse.flatMap popArgument))
          depth := by
        rw [← List.length_map (f := bankOf), ← same, ← List.length_reverse]
        exact popArguments_moves fun x member => free x (List.mem_reverse.mp member)
      have count : Balanced M depth (block (if signature.variadic || signature.unspecified then
          [Instruction.movImm32 .rax (BitVec.ofNat 32 r.2.vector)] else [])) :=
        .block (by split <;> rfl)
      simp only [block_append, List.append_assoc]
      refine pops.append (count.append (aligned_moves atEven ?_))
      cases signature.ret <;> first | rfl | exact plain_extension rfl _

/-- Every name of the unit that has code has its entry among the landmarks. -/
def Landmarks.Enter (M : Landmarks) (layout : UnitLayout) : Prop :=
  ∀ e ∈ layout.entries, M.IsEntry e.2

/-- Linked addresses are those of entries or of data. -/
theorem linkedAddress_balanced {target : CodeTarget} {expected : Option SymbolKind}
    (entry : ∀ l, target = .entry l → M.IsEntry l) :
    Balanced M h (linkedAddress target expected) :=
  ⟨rfl, fun _ => ⟨⟨entry, rfl⟩, trivial⟩⟩

theorem globalAddress_balanced {c : Context} (enter : Landmarks.Enter M c.layout) (name : String)
    (ty : CType) : Balanced M h (c.globalAddress name ty) := by
  refine linkedAddress_balanced fun l target => ?_
  unfold UnitLayout.target at target
  split at target
  case h_1 found =>
    cases target
    exact enter _ (mem_of_lookup found)
  case h_2 | h_3 => cases target

theorem stringAddress_balanced {c : Context} {id : Nat}
    (run : c.stringAddress id n = .ok (code, n')) : Balanced M h code := by
  obtain ⟨_, _, rfl, -⟩ := stringAddress_eq_ok.mp run
  exact linkedAddress_balanced nofun

theorem callNamed_balanced {c : Context} (enter : Landmarks.Enter M c.layout) (name : String)
    (even : h % 2 = 0) : Balanced M h (c.callNamed name) := by
  unfold Context.callNamed
  split
  case h_1 l found => exact .instr ⟨even, enter _ (mem_of_lookup found)⟩
  case h_2 => exact ⟨rfl, fun _ => ⟨⟨nofun, even⟩, trivial⟩⟩

/-! ### Expressions -/

@[simp] theorem pushed_jump (l : Label) : Code.pushed h (block [.jmp l]) = h := rfl

@[simp] theorem pushed_goto (l : Label) : Code.pushed h (goto l) = h := rfl

@[simp] theorem pushed_branch (condition : Condition) (l : Label) :
    Code.pushed h (branch condition l) = h := rfl

theorem branch_moves {condition : Condition} {l : Label} (shown : M.height? l = some h) :
    Balanced M h (branch condition l) := .cons rfl (.instr shown)

theorem arguments_moves {c : Context} {args : List Expr}
    (each : ∀ e ∈ args, ∀ depth n code n', expr c depth e n = .ok (code, n') →
      Balanced M depth code) {depth : Nat} {n n' : Label} {code : UnitCode}
    (run : arguments c depth args n = .ok (code, n')) :
    Moves M depth depth code (depth + args.length) := by
  induction args generalizing depth n n' code with
  | nil =>
      obtain ⟨rfl, -⟩ := pure_eq_ok.mp run
      exact .nil
  | cons e es ih =>
      simp only [arguments, bind_eq_ok, pure_eq_ok] at run
      obtain ⟨first, _, hf, others, _, ho, rfl, -⟩ := run
      obtain ⟨balanced, each⟩ := List.forall_mem_cons.mp each
      have rest := (ih each ho).weaken (Nat.le_succ depth)
      rw [List.length_cons, Nat.add_comm es.length, ← Nat.add_assoc]
      exact ((balanced _ _ _ _ hf).append (pushValue_moves e.ty)).append rest

/-- The code of an expression, and that of its address, takes off the stack what it pushes. -/
theorem expr_address_balanced {c : Context} (enter : Landmarks.Enter M c.layout) (e : Expr) :
    (∀ depth n code n', expr c depth e n = .ok (code, n') → Balanced M depth code) ∧
    (∀ depth n code n', address c depth e n = .ok (code, n') → Balanced M depth code) := by
  induction e with
  | int n v =>
      refine ⟨fun depth n code n' run => ?_, fun _ _ _ _ run => absurd run (address_ne_ok rfl)⟩
      obtain ⟨rfl, -⟩ := pure_eq_ok.mp run
      exact .plain (plain_literal v)
  | float n v =>
      refine ⟨fun depth n code n' run => ?_, fun _ _ _ _ run => absurd run (address_ne_ok rfl)⟩
      obtain ⟨rfl, -⟩ := pure_eq_ok.mp run
      exact (Moves.plain (plain_literal _)).append (.block rfl)
  | str m id => exact ⟨fun _ _ _ _ => stringAddress_balanced, fun _ _ _ _ => stringAddress_balanced⟩
  | var m id =>
      refine ⟨fun depth n code n' run => ?_, fun depth n code n' run => ?_⟩
      · simp only [expr, bind_eq_ok, variableAddress_eq_ok, pure_eq_ok] at run
        obtain ⟨_, _, -, rfl, -⟩ := run
        exact .plain (plain_loadValue _ _)
      · simp only [address, bind_eq_ok, variableAddress_eq_ok, pure_eq_ok] at run
        obtain ⟨_, _, -, rfl, -⟩ := run
        exact .block rfl
  | global m name =>
      refine ⟨fun depth n code n' run => ?_, fun depth n code n' run => ?_⟩
      · obtain ⟨rfl, -⟩ := pure_eq_ok.mp run
        exact (globalAddress_balanced enter _ _).append (.plain (plain_loadValue _ _))
      · obtain ⟨rfl, -⟩ := pure_eq_ok.mp run
        exact globalAddress_balanced enter _ _
  | deref m e ih =>
      refine ⟨fun depth n code n' run => ?_, fun depth n code n' run => ih.1 _ _ _ _ run⟩
      simp only [expr, bind_eq_ok, pure_eq_ok] at run
      obtain ⟨code, _, he, rfl, -⟩ := run
      exact (ih.1 _ _ _ _ he).append (.plain (plain_loadValue _ _))
  | addrOf m e ih =>
      exact ⟨fun depth n code n' run => ih.2 _ _ _ _ run,
        fun _ _ _ _ run => absurd run (address_ne_ok rfl)⟩
  | unary m op e ih =>
      refine ⟨fun depth n code n' run => ?_, fun _ _ _ _ run => absurd run (address_ne_ok rfl)⟩
      simp only [expr, bind_eq_ok, pure_eq_ok] at run
      obtain ⟨code, _, he, rfl, -⟩ := run
      exact (ih.1 _ _ _ _ he).append (.plain (plain_unaryOp _ _))
  | binary m op l r ihl ihr =>
      refine ⟨fun depth n code n' run => ?_, fun _ _ _ _ run => absurd run (address_ne_ok rfl)⟩
      simp only [expr, bind_eq_ok, pure_eq_ok] at run
      obtain ⟨left, _, hl, right, _, hr, compute, _, hc, rfl, -⟩ := run
      exact (operands_moves (ihl.1 _ _ _ _ hl) (ihr.1 _ _ _ _ hr)).append
        (.plain (plain_operation hc))
  | compare m op l r ihl ihr =>
      refine ⟨fun depth n code n' run => ?_, fun _ _ _ _ run => absurd run (address_ne_ok rfl)⟩
      simp only [expr, bind_eq_ok, pure_eq_ok] at run
      obtain ⟨left, _, hl, right, _, hr, rfl, -⟩ := run
      exact (operands_moves (ihl.1 _ _ _ _ hl) (ihr.1 _ _ _ _ hr)).append
        (.plain (plain_comparison _ _))
  | logic m op l r ihl ihr =>
      refine ⟨fun depth n code n' run => ?_, fun _ _ _ _ run => absurd run (address_ne_ok rfl)⟩
      simp only [expr, bind_eq_ok, pure_eq_ok] at run
      obtain ⟨stop, _, -, left, _, hl, right, _, hr, rfl, -⟩ := run
      have hl := ihl.1 _ _ _ _ hl
      have hr := ihr.1 _ _ _ _ hr
      refine .showing (l := stop) (k := depth) ?_ ?_ fun shown =>
        ((hl.append (branch_moves shown)).append hr).append (.label stop)
      · simp [hl.pushed, hr.pushed]
      · simp [Code.marks_append, hl.pushed, hr.pushed]
  | assign m target value iht ihv =>
      refine ⟨fun depth n code n' run => ?_, fun _ _ _ _ run => absurd run (address_ne_ok rfl)⟩
      by_cases hvar : ∃ k id, target = .var k id
      · obtain ⟨k, id, rfl⟩ := hvar
        simp only [expr, bind_eq_ok, pure_eq_ok] at run
        obtain ⟨value, _, hv, _, _, -, store, _, hs, rfl, -⟩ := run
        exact (ihv.1 _ _ _ _ hv).append (.plain (plain_storeValue hs))
      · rw [expr_assign fun k id e => hvar ⟨k, id, e⟩] at run
        simp only [bind_eq_ok, pure_eq_ok] at run
        obtain ⟨place, _, hp, value, _, hv, store, _, hs, rfl, -⟩ := run
        have values := ((iht.2 _ _ _ _ hp).append (.push (r := .rax) rfl)).append
          ((ihv.1 _ _ _ _ hv).weaken (Nat.le_succ depth))
        exact (values.append (.pop (Nat.le_refl depth) rfl)).append (.plain (plain_storeValue hs))
  | opAssign m op ty target value iht ihv =>
      refine ⟨fun depth n code n' run => ?_, fun _ _ _ _ run => absurd run (address_ne_ok rfl)⟩
      simp only [expr, bind_eq_ok] at run
      obtain ⟨place, _, hp, value, _, hv, run⟩ := run
      exact compound_moves (iht.2 _ _ _ _ hp) (ihv.1 _ _ _ _ hv) run
  | step m delta before target iht =>
      refine ⟨fun depth n code n' run => ?_, fun _ _ _ _ run => absurd run (address_ne_ok rfl)⟩
      simp only [expr, bind_eq_ok, pure_eq_ok] at run
      obtain ⟨place, _, hp, code, _, hc, rfl, -⟩ := run
      exact (iht.2 _ _ _ _ hp).append (.plain (plain_stepping hc))
  | cond m c t f ihc iht ihf =>
      refine ⟨fun depth n code n' run => ?_, fun _ _ _ _ run => absurd run (address_ne_ok rfl)⟩
      simp only [expr, bind_eq_ok, pure_eq_ok] at run
      obtain ⟨other, _, -, stop, _, -, test, _, hc, yes, _, ht, no, _, hf, rfl, -⟩ := run
      have hc := ihc.1 _ _ _ _ hc
      have ht := iht.1 _ _ _ _ ht
      have hf := ihf.1 _ _ _ _ hf
      refine .showing (l := other) (k := depth) ?_ ?_ fun shownOther =>
        .showing (l := stop) (k := depth) ?_ ?_ fun shownStop => ?_
      rotate_right
      · have skip : Balanced M depth (branch .equal other) := branch_moves shownOther
        have taken := ((hc.append skip).append ht).append (.jump shownStop)
        exact ((taken.append (.label other)).append hf).append (.label stop)
      all_goals simp [Code.marks_append, hc.pushed, ht.pushed, hf.pushed]
  | cast m e ih =>
      refine ⟨fun depth n code n' run => ?_, fun _ _ _ _ run => absurd run (address_ne_ok rfl)⟩
      simp only [expr, bind_eq_ok, pure_eq_ok] at run
      obtain ⟨code, _, he, convert, _, hc, rfl, -⟩ := run
      exact (ih.1 _ _ _ _ he).append (conversion_moves hc)
  | call m name s args ih =>
      refine ⟨fun depth n code n' run => ?_, fun _ _ _ _ run => absurd run (address_ne_ok rfl)⟩
      simp only [expr, bind_eq_ok, pure_eq_ok] at run
      obtain ⟨pushed, _, hp, code, _, hc, rfl, -⟩ := run
      have call' := calling_moves (fun k _ even => callNamed_balanced enter name even) hc
      rw [List.length_map] at call'
      exact (arguments_moves (fun e he => (ih e he).1) hp).append call'
  | callPointer m s callee args ihc ih =>
      refine ⟨fun depth n code n' run => ?_, fun _ _ _ _ run => absurd run (address_ne_ok rfl)⟩
      simp only [expr, bind_eq_ok, pure_eq_ok] at run
      obtain ⟨pushed, _, hp, pointer, _, hf, code, _, hc, rfl, -⟩ := run
      have call' := calling_moves (fun k _ even => Moves.instr (M := M) (i := .callRegister .r11) even) hc
      rw [List.length_map] at call'
      have values := (arguments_moves (fun e he => (ih e he).1) hp).append
        ((ihc.1 _ _ _ _ hf).weaken (Nat.le_add_right depth _))
      exact (values.append (.block rfl)).append call'
  | comma m l r ihl ihr =>
      refine ⟨fun depth n code n' run => ?_, fun _ _ _ _ run => absurd run (address_ne_ok rfl)⟩
      simp only [expr, bind_eq_ok, pure_eq_ok] at run
      obtain ⟨left, _, hl, right, _, hr, rfl, -⟩ := run
      exact (ihl.1 _ _ _ _ hl).append (ihr.1 _ _ _ _ hr)

theorem expr_balanced {c : Context} (enter : Landmarks.Enter M c.layout) {e : Expr} {depth : Nat}
    (run : expr c depth e n = .ok (code, n')) : Balanced M depth code :=
  (expr_address_balanced enter e).1 _ _ _ _ run

/-! ### Statements -/

theorem plain_zeroing (a : Address) (size : Nat) :
    (zeroing a size).all Piece.isPlain = true := by
  simp only [zeroing, all_block, List.all_cons, plain_settingWord (r := .rcx) rfl,
    plain_settingWord (r := .rax) rfl]
  rfl

theorem initStores_balanced {c : Context} (enter : Landmarks.Enter M c.layout)
    {offset : BitVec 32} {stores : List InitStore}
    (run : initStores c offset stores n = .ok (code, n')) : Balanced M 0 code := by
  induction stores generalizing n code with
  | nil =>
      obtain ⟨rfl, -⟩ := pure_eq_ok.mp run
      exact .nil
  | cons s stores ih =>
      simp only [initStores, bind_eq_ok, pure_eq_ok] at run
      obtain ⟨value, _, hv, store, _, hs, others, _, ho, rfl, rfl⟩ := run
      exact ((expr_balanced enter hv).append (.plain (plain_storeValue hs))).append (ih ho)

theorem optional_balanced {c : Context} (enter : Landmarks.Enter M c.layout) {e : Option Expr}
    (run : optional c e n = .ok (code, n')) : Balanced M 0 code := by
  cases e with
  | some e => exact expr_balanced enter run
  | none =>
      obtain ⟨rfl, -⟩ := pure_eq_ok.mp run
      exact .nil

/-- Code that is balanced once labels elsewhere are shown at height zero. -/
def Settled (M : Landmarks) (exits : List Label) (code : UnitCode) : Prop :=
  code.pushed 0 = 0 ∧ ((∀ l ∈ exits, M.height? l = some 0) → Balanced M 0 code)

namespace Settled

variable {exits exits' : List Label} {l : Label} {code others : UnitCode}

theorem of_balanced (balanced : Balanced M 0 code) : Settled M exits code :=
  ⟨balanced.pushed, fun _ => balanced⟩

theorem label : Settled M exits [.label l] := .of_balanced (.label l)

theorem goto (member : l ∈ exits) : Settled M exits (goto l) :=
  ⟨rfl, fun shown => .jump (shown l member)⟩

theorem branch (condition : Condition) (member : l ∈ exits) :
    Settled M exits (branch condition l) :=
  ⟨rfl, fun shown => branch_moves (shown l member)⟩

theorem append (hc : Settled M exits code) (ho : Settled M exits others) :
    Settled M exits (code ++ others) :=
  ⟨by rw [Code.pushed_append, hc.1, ho.1], fun shown => (hc.2 shown).append (ho.2 shown)⟩

theorem mono (h : Settled M exits code) (sub : exits ⊆ exits') : Settled M exits' code :=
  ⟨h.1, fun shown => h.2 fun l member => shown l (sub member)⟩

/-- A label that the code itself places is none that it leaves for. -/
theorem close (h : Settled M (l :: exits) code) (mark : (l, 0) ∈ code.marks 0) :
    Settled M exits code :=
  ⟨h.1, fun shown => .showing h.1 mark fun here => h.2 (List.forall_mem_cons.mpr ⟨here, shown⟩)⟩

end Settled

theorem settled_skipping {c : Context} (enter : Landmarks.Enter M c.layout) {e : Expr} {l : Label}
    (run : skipping c e l n = .ok (code, n')) : Settled M [l] code := by
  simp only [skipping, bind_eq_ok, pure_eq_ok] at run
  obtain ⟨test, _, he, rfl, -⟩ := run
  exact (Settled.of_balanced (expr_balanced enter he)).append (.branch _ (.head _))

theorem settled_skippingOptional {c : Context} (enter : Landmarks.Enter M c.layout)
    {e : Option Expr} {l : Label} (run : skippingOptional c l e n = .ok (code, n')) :
    Settled M [l] code := by
  cases e with
  | some e => exact settled_skipping enter run
  | none =>
      obtain ⟨rfl, -⟩ := pure_eq_ok.mp run
      exact .of_balanced .nil

/-- Where the statements of a function may leave for. -/
def exits (c : FunctionContext) : Option LoopLabels → List Label
  | some l => [l.next, l.stop, c.finish]
  | none => [c.finish]

variable {c : FunctionContext} {loop : Option LoopLabels}

theorem finish_mem_exits : c.finish ∈ exits c loop := by
  cases loop <;> simp [exits]

/-- The exits of a loop's body are those of the loop and its labels. -/
theorem exits_subset {l : LoopLabels} (loop : Option LoopLabels) (labels : List Label)
    (next : l.next ∈ labels) (stop : l.stop ∈ labels) : exits c (some l) ⊆ labels ++ exits c loop := by
  intro k member
  simp only [exits, List.mem_cons, List.not_mem_nil, or_false] at member
  rcases member with rfl | rfl | rfl
  · exact List.mem_append_left _ next
  · exact List.mem_append_left _ stop
  · exact List.mem_append_right _ finish_mem_exits

theorem stmts_settled {body : List Stmt}
    (each : ∀ s ∈ body, ∀ {loop n n' code}, stmt c loop s n = .ok (code, n') →
      Settled M (exits c loop) code)
    (run : stmts c loop body n = .ok (code, n')) : Settled M (exits c loop) code := by
  induction body generalizing n code with
  | nil =>
      obtain ⟨rfl, -⟩ := pure_eq_ok.mp run
      exact .of_balanced .nil
  | cons s body ih =>
      obtain ⟨first, _, others, hs, ho, rfl⟩ := stmts_cons_eq_ok.mp run
      exact (each s List.mem_cons_self hs).append
        (ih (fun s member => each s (List.mem_cons_of_mem _ member)) ho)

theorem optionalStmt_settled {s : Option Stmt}
    (each : ∀ t ∈ s, ∀ {loop n n' code}, stmt c loop t n = .ok (code, n') →
      Settled M (exits c loop) code)
    (run : optionalStmt c loop s n = .ok (code, n')) : Settled M (exits c loop) code := by
  cases s with
  | some s => exact each s rfl run
  | none =>
      obtain ⟨rfl, -⟩ := pure_eq_ok.mp run
      exact .of_balanced .nil

/-- Nothing is pushed behind a statement, nor at the labels of loops. -/
theorem stmt_settled (enter : Landmarks.Enter M c.layout) {s : Stmt}
    (run : stmt c loop s n = .ok (code, n')) : Settled M (exits c loop) code := by
  induction s generalizing loop n n' code with
  | expr e => exact .of_balanced (expr_balanced enter run)
  | init id zero stores =>
      obtain ⟨_, others, -, ho, rfl⟩ := composed_of_stmt run
      refine .of_balanced (.append ?_ (initStores_balanced enter ho))
      split
      · exact .plain (plain_zeroing _ _)
      · exact .nil
  | block body ih => exact stmts_settled (fun s member {_ _ _ _} => ih s member) run
  | ite e t f iht ihf =>
      cases f with
      | none =>
          obtain ⟨test, _, yes, hs, hy, rfl⟩ := composed_of_stmt run
          have test := settled_skipping (M := M) enter hs
          have yes := iht hy
          refine .close (l := n) ?_ ?_
          · exact ((test.mono (by simp)).append (yes.mono (by simp))).append .label
          · simp [Code.marks_append, test.1, yes.1]
      | some f =>
          obtain ⟨test, _, yes, stop, no, hs, hy, hn, rfl⟩ := composed_of_stmt run
          have test := settled_skipping (M := M) enter hs
          have yes := iht hy
          have no := ihf f rfl hn
          refine .close (l := stop) (.close (l := n) ?_ ?_) ?_
          · have taken : Settled M (n :: stop :: exits c loop) (_ ++ _ ++ goto stop) :=
              ((test.mono (by simp)).append (yes.mono (by simp))).append (.goto (by simp))
            exact ((taken.append .label).append (no.mono (by simp))).append .label
          all_goals simp [Code.marks_append, test.1, yes.1, no.1]
  | whileLoop e body ih =>
      obtain ⟨test, _, code, hs, hb, rfl⟩ := composed_of_stmt run
      have test := settled_skipping (M := M) enter hs
      have body := ih hb
      refine .close (l := n) (.close (l := n + 1) ?_ ?_) ?_
      · have inside := body.mono (exits_subset loop [n + 1, n] (by simp) (by simp))
        exact (((Settled.label.append (test.mono (by simp))).append inside).append
          (.goto (by simp))).append .label
      all_goals simp [Code.marks_append, test.1, body.1]
  | doWhileLoop body e ih =>
      obtain ⟨code, _, test, hb, ht, rfl⟩ := composed_of_stmt run
      have test := expr_balanced (M := M) enter ht
      have body := ih hb
      refine .close (l := n) (.close (l := n + 1) (.close (l := n + 1 + 1) ?_ ?_) ?_) ?_
      · have inside := body.mono (exits_subset loop [n + 1 + 1, n + 1, n] (by simp) (by simp))
        exact ((((Settled.label.append inside).append .label).append (.of_balanced test)).append
          (.branch _ (by simp))).append .label
      all_goals simp [Code.marks_append, test.pushed, body.1]
  | forLoop start e step body ihs ihb =>
      obtain ⟨first, top, test, _, code, _, last, hs, ht, hb, hl, rfl⟩ := composed_of_stmt run
      have first := optionalStmt_settled (fun s member {_ _ _ _} => ihs s member) hs
      have test := settled_skippingOptional (M := M) enter ht
      have body := ihb hb
      have last := optional_balanced (M := M) enter hl
      refine .close (l := top) (.close (l := top + 1) (.close (l := top + 1 + 1) ?_ ?_) ?_) ?_
      · have inside := body.mono (exits_subset loop [top + 1 + 1, top + 1, top] (by simp) (by simp))
        have begun : Settled M ([top + 1 + 1, top + 1, top] ++ exits c loop)
            (_ ++ [.label top] ++ _) :=
          ((first.mono fun _ => by simp +contextual).append .label).append (test.mono (by simp))
        have pass := begun.append inside
        exact (((pass.append .label).append (.of_balanced last)).append (.goto (by simp))).append
          .label
      all_goals simp [Code.marks_append, first.1, test.1, body.1, last.pushed]
  | breakLoop =>
      obtain ⟨-, l, rfl, rfl⟩ := composed_of_stmt run
      exact .goto (.tail _ (.head _))
  | continueLoop =>
      obtain ⟨-, l, rfl, rfl⟩ := composed_of_stmt run
      exact .goto (.head _)
  | returnValue value =>
      obtain ⟨code, ho, rfl⟩ := composed_of_stmt run
      exact (Settled.of_balanced (optional_balanced enter ho)).append (.goto finish_mem_exits)
  | empty =>
      obtain ⟨-, rfl⟩ := composed_of_stmt run
      exact .of_balanced .nil

end Lowering
end LiveC
