import LiveC.Proofs.Segments
import LiveC.Proofs.GeneratedCode
import LiveC.Proofs.TrackedDepth
import Mathlib.Logic.Relation

/-!
The registers and the stack along every path through the code of a function. A path may take
either way at a branch, and goes on behind a call with the registers that a callee has to
preserve.
-/

namespace LiveC

theorem Machine.gp_mk (m : Machine) (vector : Vector Double 16) (flags : Flags) (memory : Memory)
    (r : Gp) : (⟨m.general, vector, flags, memory⟩ : Machine).gp r = m.gp r := rfl

namespace Machine

variable {m m' : Machine} {v : Word} {r : Gp}

theorem gp_divideSigned (h : m.divideSigned v = .ok m') (free : r ∉ [Gp.rax, Gp.rdx]) :
    m'.gp r = m.gp r := by
  simp only [List.mem_cons, List.not_mem_nil, or_false, not_or] at free
  simp only [divideSigned] at h
  split at h
  · cases h
  · cases h
    simp [gp_setGp, free]

theorem gp_divideUnsigned (h : m.divideUnsigned v = .ok m') (free : r ∉ [Gp.rax, Gp.rdx]) :
    m'.gp r = m.gp r := by
  simp only [List.mem_cons, List.not_mem_nil, or_false, not_or] at free
  simp only [divideUnsigned] at h
  split at h
  · cases h
  · cases h
    simp [gp_setGp, free]

end Machine

namespace Instruction

variable {τ : Type}

/-- A register that an instruction does not write keeps its value. -/
theorem gp_of_not_written {i : Instruction τ} {m m' : Machine} {flow : Flow τ} {r : Gp}
    (h : i.effect m = .ok (m', flow)) (free : r ∉ i.written) : m'.gp r = m.gp r := by
  cases i with
  | divide d signed =>
      cases signed with
      | true =>
          cases divided : m.divideSigned (m.gp d) <;> simp only [effect, divided] at h <;> cases h
          exact Machine.gp_divideSigned divided free
      | false =>
          cases divided : m.divideUnsigned (m.gp d) <;> simp only [effect, divided] at h <;> cases h
          exact Machine.gp_divideUnsigned divided free
  | trap => cases h
  | _ =>
      simp only [effect, Except.ok.injEq, Prod.mk.injEq] at h
      obtain ⟨rfl, -⟩ := h
      simp_all [written, Machine.gp_setGp, Machine.gp_push, Machine.gp_pop, Machine.alu, Machine.gp_mk]

/-- Only jumps hand control to a label, and they change nothing. -/
theorem branch_cases {i : Instruction Label} {m m' : Machine} {l : Label}
    (h : i.effect m = .ok (m', .branch l)) : m' = m ∧ (i = .jmp l ∨ ∃ c, i = .jcc c l) := by
  cases i with
  | jmp k =>
      cases h
      exact ⟨rfl, .inl rfl⟩
  | jcc c k =>
      simp only [effect] at h
      split at h <;> cases h
      exact ⟨rfl, .inr ⟨c, rfl⟩⟩
  | divide d signed =>
      cases signed with
      | true => cases divided : m.divideSigned (m.gp d) <;> simp only [effect, divided] at h <;> cases h
      | false =>
          cases divided : m.divideUnsigned (m.gp d) <;> simp only [effect, divided] at h <;> cases h
  | _ => cases h

theorem not_written_of_isPlain {i : Instruction Label} (plain : i.isPlain = true) {r : Gp}
    (preserved : r.isPreserved = true) : r ∉ i.written := by
  intro member
  cases i with
  | divide d signed =>
      simp only [written, List.mem_cons, List.not_mem_nil, or_false] at member
      rcases member with rfl | rfl <;> cases preserved
  | jmp | jcc | call | callRegister | jmpStored | trap => cases plain
  | _ =>
      have free := List.all_eq_true.mp plain r member
      rw [preserved] at free
      cases free

end Instruction

/-- The general registers that a piece writes. -/
def Piece.written : Piece Reference → List Gp
  | .instr i => i.written
  | .linked (.address d) _ => [d]
  | .label _ | .linked .call _ => []

/-- A piece that calls. -/
def Piece.calls : Piece Reference → Bool
  | .instr (.call _) | .instr (.callRegister _) | .linked .call _ => true
  | _ => false

theorem Piece.pushed_of_calls {p : Piece Reference} (calls : p.calls = true) (h : Nat) :
    p.pushed h = h := by
  cases p with
  | label => rfl
  | linked => rfl
  | instr i =>
      cases i with
      | call | callRegister => rfl
      | _ => cases calls

/-- Calls are made at even heights. -/
theorem Piece.even_of_calls {M : Landmarks} {floor h : Nat} {p : Piece Reference}
    (orderly : p.Orderly M floor h) (calls : p.calls = true) : h % 2 = 0 := by
  cases p with
  | label => cases calls
  | linked f =>
      cases f with
      | call => exact orderly.2
      | address => cases calls
  | instr i =>
      cases i with
      | call => exact orderly.1
      | callRegister => exact orderly
      | _ => cases calls

namespace Lowering

variable {link : CodeTarget → Word} {program : UnitCode} {m m₀ m' : Machine} {size h : Nat}

/-- A step along a path. A branch may go either way, and a call comes back with the preserved
registers unchanged. Nothing but the push that opens a frame writes the word at `saved`, in
which the frame pointer of the caller is kept. -/
inductive Advance (link : CodeTarget → Word) (saved : Word) (program : UnitCode) :
    Point (Piece Reference) → Point (Piece Reference) → Prop where
  | next {p : Piece Reference} {rest : UnitCode} {m m' : Machine}
      (effect : (unitCode link).effect p m = .ok (m', .next))
      (spares : p ≠ .instr (.push .rbp) → m'.memory.load saved 8 = m.memory.load saved 8) :
      Advance link saved program ⟨p :: rest, m⟩ ⟨rest, m'⟩
  | jump {l : Label} {rest code : UnitCode} {m : Machine}
      (found : (unitCode link).seek? l program = some code) :
      Advance link saved program ⟨.instr (.jmp l) :: rest, m⟩ ⟨code, m⟩
  | branch {c : Condition} {l : Label} {rest code : UnitCode} {m : Machine}
      (found : (unitCode link).seek? l program = some code) :
      Advance link saved program ⟨.instr (.jcc c l) :: rest, m⟩ ⟨code, m⟩
  | fall {c : Condition} {l : Label} {rest : UnitCode} {m : Machine} :
      Advance link saved program ⟨.instr (.jcc c l) :: rest, m⟩ ⟨rest, m⟩
  | back {p : Piece Reference} {rest : UnitCode} {m m' : Machine} (calls : p.calls = true)
      (preserved : ∀ r : Gp, r.isPreserved = true → m'.gp r = m.gp r)
      (spares : m'.memory.load saved 8 = m.memory.load saved 8) :
      Advance link saved program ⟨p :: rest, m⟩ ⟨rest, m'⟩

/-- Every step that the code can take is one along a path. -/
theorem advance_of_step {saved : Word} {p q : Point (Piece Reference)}
    (step : (unitCode link).step program p = .ok q)
    (spares : p.code.head? ≠ some (.instr (.push .rbp)) →
      q.machine.memory.load saved 8 = p.machine.memory.load saved 8) :
    Advance link saved program p q := by
  obtain ⟨code, m⟩ := p
  cases code with
  | nil => cases step
  | cons p rest =>
      rcases Language.step_cases step with ⟨m', effect, rfl⟩ | ⟨m', l, code, effect, found, rfl⟩
      · exact .next effect fun other => spares fun e => other (Option.some.inj e)
      · cases p with
        | label => cases effect
        | linked f => cases f <;> cases effect
        | instr i =>
            obtain ⟨rfl, rfl | ⟨c, rfl⟩⟩ := Instruction.branch_cases effect
            · exact .jump found
            · exact .branch found

/-- The machine inside of a function that was entered on `m₀`, its frame of a size open, with so
many words pushed. -/
structure InFrame (m₀ : Machine) (size h : Nat) (m : Machine) : Prop where
  rsp : m.gp .rsp = m₀.gp .rsp - 8 - BitVec.ofNat 64 size - BitVec.ofNat 64 (8 * h)
  rbp : m.gp .rbp = m₀.gp .rsp - 8
  kept : ∀ r : Gp, r.isPreserved = true → r ≠ .rsp → r ≠ .rbp → m.gp r = m₀.gp r
  saved : m.memory.load (m₀.gp .rsp - 8) 8 = m₀.gp .rbp

namespace InFrame

/-- What leaves the preserved registers alone keeps to the frame. -/
theorem of_preserved (inside : InFrame m₀ size h m)
    (preserved : ∀ r : Gp, r.isPreserved = true → m'.gp r = m.gp r)
    (spares : m'.memory.load (m₀.gp .rsp - 8) 8 = m.memory.load (m₀.gp .rsp - 8) 8) :
    InFrame m₀ size h m' where
  rsp := (preserved .rsp rfl).trans inside.rsp
  rbp := (preserved .rbp rfl).trans inside.rbp
  kept r hr h1 h2 := (preserved r hr).trans (inside.kept r hr h1 h2)
  saved := spares.trans inside.saved

/-- What changes the stack pointer by what it pushes or pops keeps to the frame. -/
theorem of_moved {k : Nat} (inside : InFrame m₀ size h m)
    (moved : m'.gp .rsp = m.gp .rsp + BitVec.ofNat 64 (8 * h) - BitVec.ofNat 64 (8 * k))
    (preserved : ∀ r : Gp, r.isPreserved = true → r ≠ .rsp → m'.gp r = m.gp r)
    (spares : m'.memory.load (m₀.gp .rsp - 8) 8 = m.memory.load (m₀.gp .rsp - 8) 8) :
    InFrame m₀ size k m' where
  rsp := by
    rw [moved, inside.rsp]
    bv_omega
  rbp := (preserved .rbp rfl nofun).trans inside.rbp
  kept r hr h1 h2 := (preserved r hr h1).trans (inside.kept r hr h1 h2)
  saved := spares.trans inside.saved

end InFrame

/-- An orderly piece that hands control to the next one keeps to the frame. -/
theorem inFrame_next {M : Landmarks} {floor : Nat} {p : Piece Reference}
    (inside : InFrame m₀ size h m) (orderly : p.Orderly M floor h)
    (effect : (unitCode link).effect p m = .ok (m', .next))
    (spares : p ≠ .instr (.push .rbp) →
      m'.memory.load (m₀.gp .rsp - 8) 8 = m.memory.load (m₀.gp .rsp - 8) 8) :
    InFrame m₀ size (p.pushed h) m' := by
  cases p with
  | label l =>
      cases effect
      exact inside
  | linked f r =>
      cases f with
      | call => cases effect
      | address d =>
          cases effect
          refine inside.of_preserved (fun s hs => ?_) rfl
          have other : s ≠ d := by
            rintro rfl
            cases orderly.2.symm.trans hs
          rw [Machine.gp_setGp, if_neg other]
  | instr i =>
      by_cases plain : i.isPlain = true
      · obtain ⟨-, same⟩ : Piece.Orderly M floor h (.instr i) ∧
            (Piece.instr i : Piece Reference).pushed h = h := Moves.orderly_of_isPlain plain
        rw [same]
        refine inside.of_preserved (fun r hr => ?_) (spares ?_)
        · exact Instruction.gp_of_not_written effect (Instruction.not_written_of_isPlain plain hr)
        · rintro ⟨⟩
          cases plain
      · cases i with
        | push r =>
            cases effect
            refine inside.of_moved ?_ (fun s _ other => ?_) (spares ?_)
            · rw [Machine.gp_push, if_pos rfl]
              simp only [Piece.pushed, Instruction.pushed]
              bv_omega
            · rw [Machine.gp_push, if_neg other]
            · rintro ⟨⟩
              cases orderly
        | pop r =>
            cases effect
            obtain ⟨own, free⟩ := orderly
            have different (s : Gp) (hs : s.isPreserved = true) : s ≠ r := by
              rintro rfl
              cases free.symm.trans hs
            refine inside.of_moved ?_ (fun s hs other => ?_) (spares (by simp))
            · rw [Machine.gp_setGp, if_neg (different .rsp rfl), Machine.gp_setGp, if_pos rfl]
              obtain ⟨k, rfl⟩ := Nat.exists_eq_add_of_lt own
              simp only [Piece.pushed, Instruction.pushed, Nat.add_sub_cancel]
              bv_omega
            · rw [Machine.gp_setGp, if_neg (different s hs), Machine.gp_setGp, if_neg other]
        | aluImm op d v =>
            have others (s : Gp) (other : s ≠ d) : m'.gp s = m.gp s :=
              Instruction.gp_of_not_written (i := .aluImm op d v) effect
                (by simpa [Instruction.written] using other)
            have eight : (8 : BitVec 32).signExtend 64 = 8 := rfl
            cases op <;> cases d <;> first | exact absurd orderly plain | cases effect
            case neg.aluImm.sub.rsp =>
              cases orderly
              refine inside.of_moved ?_ (fun s _ other => others s other) (spares (by simp))
              rw [Machine.gp_alu, Machine.gp_setGp, if_pos rfl, eight]
              simp only [Piece.pushed, Instruction.pushed, AluOp.apply]
              bv_omega
            case neg.aluImm.add.rsp =>
              obtain ⟨rfl, own⟩ := orderly
              refine inside.of_moved ?_ (fun s _ other => others s other) (spares (by simp))
              rw [Machine.gp_alu, Machine.gp_setGp, if_pos rfl, eight]
              obtain ⟨k, rfl⟩ := Nat.exists_eq_add_of_lt own
              simp only [Piece.pushed, Instruction.pushed, AluOp.apply, Nat.add_sub_cancel]
              bv_omega
        | jmp | call | callRegister => cases effect
        | jcc c l =>
            simp only [unitCode, Instruction.effect] at effect
            split at effect <;> cases effect
            exact inside
        | _ => exact absurd orderly plain

/-! ### Paths through a function -/

variable {saved : Word} {entries : Label → Prop} {entry l : Label} {inner after rest : UnitCode}
  {p q : Point (Piece Reference)}

/-- What gives the stack pointer room for the variables of a frame. -/
def enlarging (size : Nat) : List (Instruction Label) :=
  if size = 0 then [] else [.aluImm .sub .rsp (BitVec.ofNat 32 size)]

/-- Where a path through a function may be that was entered on `m₀`: at its opening, between
pieces of its code, with as many words pushed as there are in front of the place, or at the
return. -/
inductive Stage (m₀ : Machine) (entry : Label) (size : Nat) (inner after : UnitCode) :
    Point (Piece Reference) → Prop where
  | entered : Stage m₀ entry size inner after
      ⟨.label entry :: (prologue size ++ (inner ++ (epilogue ++ after))), m₀⟩
  | opening : Stage m₀ entry size inner after
      ⟨prologue size ++ (inner ++ (epilogue ++ after)), m₀⟩
  | pushed : Stage m₀ entry size inner after
      ⟨.instr (.mov .rbp .rsp) :: (block (enlarging size) ++ (inner ++ (epilogue ++ after))),
        m₀.push (m₀.gp .rbp)⟩
  | based {m : Machine} (inside : InFrame m₀ 0 0 m) : Stage m₀ entry size inner after
      ⟨block (enlarging size) ++ (inner ++ (epilogue ++ after)), m⟩
  | inside {before rest : UnitCode} {m : Machine} (split : inner = before ++ rest)
      (inside : InFrame m₀ size (before.pushed 0) m) : Stage m₀ entry size inner after
      ⟨rest ++ (epilogue ++ after), m⟩
  | leaving {m : Machine} (rsp : m.gp .rsp = m₀.gp .rsp)
      (others : ∀ r : Gp, r.isPreserved = true → r ≠ .rsp → m.gp r = m₀.gp r) :
      Stage m₀ entry size inner after ⟨.instr .ret :: after, m⟩

/-- A piece that does not jump or call hands control on. -/
theorem Advance.eq_of_next {p : Piece Reference} (step : Advance link saved program ⟨p :: rest, m⟩ q)
    (effect : (unitCode link).effect p m = .ok (m', .next)) (calls : p.calls = false)
    (branch : ∀ c l, p ≠ .instr (.jcc c l)) :
    q = ⟨rest, m'⟩ ∧
      (p ≠ .instr (.push .rbp) → m'.memory.load saved 8 = m.memory.load saved 8) := by
  cases step with
  | next effect' spares =>
      cases effect.symm.trans effect'
      exact ⟨rfl, spares⟩
  | jump => cases effect
  | branch | fall => exact absurd rfl (branch _ _)
  | back calls' => cases calls.symm.trans calls'

/-- A label with the number of words pushed at it stands behind code that pushes so many. -/
theorem split_of_mem_marks {c : UnitCode} {k : Nat} (member : (l, k) ∈ c.marks h) :
    ∃ before rest : UnitCode, c = before ++ .label l :: rest ∧ before.pushed h = k := by
  induction c generalizing h with
  | nil => cases member
  | cons p c ih =>
      rcases List.mem_append.mp member with here | further
      · cases p with
        | label =>
            cases List.mem_singleton.mp here
            exact ⟨[], c, rfl, rfl⟩
        | instr | linked => cases here
      · obtain ⟨before, rest, rfl, pushed⟩ := ih further
        exact ⟨p :: before, rest, rfl, pushed⟩

/-- Jumps inside of a function lead to places with as many words pushed. -/
theorem stage_of_jump {before part : UnitCode}
    (distinct : ((unitCode link).labels (before ++ (inner ++ part))).Nodup)
    (height : (Landmarks.of entries inner).height? l = some h) {code : UnitCode}
    (found : (unitCode link).seek? l (before ++ (inner ++ part)) = some code) :
    ∃ front rest : UnitCode, inner = front ++ rest ∧ code = rest ++ part ∧ front.pushed 0 = h := by
  have shown : (inner.marks 0).lookup l = some h := height
  obtain ⟨front, rest, rfl, pushed⟩ := split_of_mem_marks (mem_of_lookup shown)
  refine ⟨front, .label l :: rest, rfl, ?_, pushed⟩
  have placed := Language.placed_of_program_nodup distinct
  rw [Language.placed_append] at placed
  exact Option.some.inj (found.symm.trans (placed.2.1 l rfl))

/-- A step inside of a function leads to a place of its with as many words pushed, or to the
return. -/
theorem stage_of_inside {opening before : UnitCode} (orderly : inner.Orderly (.of entries inner) 0 0)
    (balanced : inner.pushed 0 = 0)
    (distinct : ((unitCode link).labels (opening ++ (inner ++ (epilogue ++ after)))).Nodup)
    (split : inner = before ++ rest) (inside : InFrame m₀ size (before.pushed 0) m)
    (step : Advance link (m₀.gp .rsp - 8) (opening ++ (inner ++ (epilogue ++ after)))
      ⟨rest ++ (epilogue ++ after), m⟩ q) : Stage m₀ entry size inner after q := by
  cases rest with
  | nil =>
      rw [List.append_nil] at split
      rw [← split, balanced] at inside
      obtain ⟨rfl, spares⟩ := step.eq_of_next (p := .instr .leave) rfl rfl nofun
      have word := inside.saved
      rw [← inside.rbp] at word
      refine .leaving ?_ fun r hr other => ?_
      · simp only [Machine.gp_setGp, if_pos, reduceCtorEq, if_false]
        rw [inside.rbp]
        bv_omega
      · by_cases base : r = .rbp
        · subst base
          simpa [Machine.gp_setGp, Machine.pop] using word
        · simpa [Machine.gp_setGp, Machine.pop, base, other] using inside.kept r hr other base
  | cons p rest =>
      have here : p.Orderly (.of entries inner) 0 (before.pushed 0) := by
        have all := orderly
        rw [show Code.Orderly (.of entries inner) 0 0 inner =
          Code.Orderly (.of entries inner) 0 0 (before ++ p :: rest) by rw [← split],
          Code.orderly_append] at all
        exact all.2.1
      have further : inner = (before ++ [p]) ++ rest := by rw [split, List.append_assoc]; rfl
      have behind {m' : Machine} (frame : InFrame m₀ size (p.pushed (before.pushed 0)) m') :
          Stage m₀ entry size inner after ⟨rest ++ (epilogue ++ after), m'⟩ := by
        refine .inside further ?_
        rwa [Code.pushed_append, Code.pushed_cons, Code.pushed_nil]
      have elsewhere {l : Label} {code : UnitCode}
          (height : (Landmarks.of entries inner).height? l = some (before.pushed 0))
          (found : (unitCode link).seek? l (opening ++ (inner ++ (epilogue ++ after))) = some code) :
          Stage m₀ entry size inner after ⟨code, m⟩ := by
        obtain ⟨front, others, split, rfl, pushed⟩ := stage_of_jump distinct height found
        exact .inside split (pushed ▸ inside)
      cases step with
      | next effect spares => exact behind (inFrame_next inside here effect spares)
      | jump found => exact elsewhere here found
      | branch found => exact elsewhere here found
      | fall => exact behind inside
      | back calls preserved spares =>
          refine behind ?_
          rw [Piece.pushed_of_calls calls]
          exact inside.of_preserved preserved spares

theorem inFrame_based : InFrame m₀ 0 0 ((m₀.push (m₀.gp .rbp)).setGp .rbp (m₀.gp .rsp - 8)) where
  rsp := by simp [Machine.gp_setGp, Machine.gp_push]
  rbp := by simp [Machine.gp_setGp]
  kept r _ h1 h2 := by simp [Machine.gp_setGp, Machine.gp_push, h1, h2]
  saved := by rw [Machine.memory_setGp, Machine.memory_push, Memory.load_store]

theorem inFrame_enlarged (inside : InFrame m₀ 0 0 m) (small : size ≤ Frame.maxSize)
    (spares : m'.memory.load (m₀.gp .rsp - 8) 8 = m.memory.load (m₀.gp .rsp - 8) 8)
    (enlarged : ∀ r, m'.gp r =
      (m.setGp .rsp (m.gp .rsp - (BitVec.ofNat 32 size).signExtend 64)).gp r) :
    InFrame m₀ size 0 m' where
  rsp := by
    have extended : (BitVec.ofNat 32 size).signExtend 64 = BitVec.ofNat 64 size := by
      unfold Frame.maxSize at small
      rw [BitVec.signExtend_eq_setWidth_of_msb_false]
      · apply BitVec.eq_of_toNat_eq
        simp
        omega
      · rw [BitVec.msb_eq_false_iff_two_mul_lt]
        simp
        omega
    rw [enlarged, Machine.gp_setGp, if_pos rfl, inside.rsp, extended]
    simp
  rbp := by
    rw [enlarged, Machine.gp_setGp, if_neg nofun]
    exact inside.rbp
  kept r hr h1 h2 := by
    rw [enlarged, Machine.gp_setGp, if_neg h1]
    exact inside.kept r hr h1 h2
  saved := spares.trans inside.saved

/-- A step along a path stays in the function. -/
theorem stage_of_advance {before : UnitCode} (orderly : inner.Orderly (.of entries inner) 0 0)
    (balanced : inner.pushed 0 = 0) (small : size ≤ Frame.maxSize)
    (distinct : ((unitCode link).labels (before ++ (inner ++ (epilogue ++ after)))).Nodup)
    (stage : Stage m₀ entry size inner after p)
    (step : Advance link (m₀.gp .rsp - 8) (before ++ (inner ++ (epilogue ++ after))) p q) :
    Stage m₀ entry size inner after q := by
  cases stage with
  | entered =>
      obtain ⟨rfl, -⟩ := step.eq_of_next rfl rfl nofun
      exact .opening
  | opening =>
      obtain ⟨rfl, -⟩ := step.eq_of_next (p := .instr (.push .rbp)) rfl rfl nofun
      exact .pushed
  | pushed =>
      obtain ⟨rfl, -⟩ := step.eq_of_next (p := .instr (.mov .rbp .rsp)) rfl rfl nofun
      refine .based ?_
      rw [Machine.gp_push, if_pos rfl]
      exact inFrame_based
  | based inside =>
      unfold enlarging at step
      split at step
      case isTrue zero =>
        subst zero
        exact stage_of_inside orderly balanced distinct (show inner = [] ++ inner from rfl) inside step
      case isFalse =>
        obtain ⟨rfl, spares⟩ := step.eq_of_next
          (p := .instr (.aluImm .sub .rsp (BitVec.ofNat 32 size))) rfl rfl nofun
        exact .inside (show inner = [] ++ inner from rfl)
          (inFrame_enlarged inside small (spares nofun) fun _ => rfl)
  | inside split inside => exact stage_of_inside orderly balanced distinct split inside step
  | leaving =>
      cases step with
      | next effect => cases effect
      | back calls => cases calls

/-- The registers of the caller that are not used. -/
def untouched : List Gp := [.rbx, .r12, .r13, .r14, .r15]

/-- What holds on every path through the code of a function that was entered on `m₀`. -/
structure Disciplined (m₀ : Machine) (size : Nat) (inner after : UnitCode)
    (q : Point (Piece Reference)) : Prop where
  /-- Registers of the caller other than those of the stack keep their values. -/
  kept : ∀ r ∈ untouched, q.machine.gp r = m₀.gp r
  /-- The stack pointer counts the words that are pushed by the code in front. -/
  height : ∀ front rest : UnitCode, inner = front ++ rest → q.code = rest ++ (epilogue ++ after) →
    q.machine.gp .rbp = m₀.gp .rsp - 8 ∧
      q.machine.gp .rsp = q.machine.gp .rbp - BitVec.ofNat 64 (size + 8 * front.pushed 0)
  /-- Calls are made with the stack aligned. -/
  aligned : (m₀.gp .rsp).toNat % 16 = 8 → ∀ p rest, q.code = p :: rest → p.calls = true →
    (q.machine.gp .rsp).toNat % 16 = 0
  /-- A return finds the stack as it was on entry. -/
  returns : ∀ rest, q.code = .instr .ret :: rest →
    q.machine.gp .rsp = m₀.gp .rsp ∧ q.machine.gp .rbp = m₀.gp .rbp

theorem orderly_of_split {before : UnitCode} {p : Piece Reference}
    (orderly : inner.Orderly (.of entries inner) 0 0) (split : inner = before ++ p :: rest) :
    p.Orderly (.of entries inner) 0 (before.pushed 0) := by
  have all : Code.Orderly (.of entries inner) 0 0 (before ++ p :: rest) := split ▸ orderly
  exact (Code.orderly_append.mp all).2.1

/-- A piece that is no part of the code between is none that calls or returns. -/
theorem disciplined_of_opening {p : Piece Reference} (calls : p.calls = false)
    (other : p ≠ .instr .ret) (long : (inner ++ (epilogue ++ after)).length ≤ rest.length)
    (kept : ∀ r ∈ untouched, m.gp r = m₀.gp r) :
    Disciplined m₀ size inner after ⟨p :: rest, m⟩ where
  kept := kept
  height front others split code := by
    have lengths := congrArg List.length code
    rw [split] at long
    simp only [List.length_cons, List.length_append] at lengths long
    omega
  aligned _ p' _ code calls' := by
    cases code
    cases calls.symm.trans calls'
  returns _ code := by
    cases code
    exact absurd rfl other

theorem disciplined_of_inside {before : UnitCode} (orderly : inner.Orderly (.of entries inner) 0 0)
    (units : size % 16 = 0) (split : inner = before ++ rest)
    (inside : InFrame m₀ size (before.pushed 0) m) :
    Disciplined m₀ size inner after ⟨rest ++ (epilogue ++ after), m⟩ where
  kept r member := by
    simp only [untouched, List.mem_cons, List.not_mem_nil, or_false] at member
    rcases member with rfl | rfl | rfl | rfl | rfl <;> exact inside.kept _ rfl nofun nofun
  height front others split' code := by
    obtain rfl := List.append_cancel_right code
    obtain rfl := List.append_cancel_right (split.symm.trans split')
    refine ⟨inside.rbp, ?_⟩
    rw [inside.rbp, inside.rsp]
    bv_omega
  aligned entry p others code calls := by
    cases rest with
    | nil =>
        cases code
        cases calls
    | cons p rest =>
        cases code
        have even := Piece.even_of_calls (orderly_of_split orderly split) calls
        rw [inside.rsp]
        bv_omega
  returns others code := by
    cases rest with
    | nil => cases code
    | cons p rest =>
        cases code
        cases orderly_of_split orderly split

theorem disciplined_of_stage (orderly : inner.Orderly (.of entries inner) 0 0)
    (units : size % 16 = 0) (stage : Stage m₀ entry size inner after q) :
    Disciplined m₀ size inner after q := by
  have preserved : ∀ r ∈ untouched, r.isPreserved = true ∧ r ≠ .rsp ∧ r ≠ .rbp := by decide
  cases stage with
  | entered => exact disciplined_of_opening rfl nofun (by simp) fun _ _ => rfl
  | opening =>
      refine disciplined_of_opening (p := .instr (.push .rbp)) rfl nofun ?_ fun _ _ => rfl
      simp
      omega
  | pushed =>
      refine disciplined_of_opening rfl nofun (by simp) fun r member => ?_
      rw [Machine.gp_push, if_neg (preserved r member).2.1]
  | based inside =>
      unfold enlarging
      split
      case isTrue zero =>
        subst zero
        exact disciplined_of_inside orderly units (show inner = [] ++ inner from rfl) inside
      case isFalse =>
        refine disciplined_of_opening (p := .instr (.aluImm .sub .rsp (BitVec.ofNat 32 size))) rfl
          nofun (by simp) fun r member => ?_
        obtain ⟨hr, h1, h2⟩ := preserved r member
        exact inside.kept r hr h1 h2
  | inside split inside => exact disciplined_of_inside orderly units split inside
  | leaving rsp others =>
      refine ⟨fun r member => ?_, fun front rest split code => ?_, fun _ p rest code calls => ?_,
        fun _ _ => ⟨rsp, others .rbp rfl nofun⟩⟩
      · obtain ⟨hr, h1, -⟩ := preserved r member
        exact others r hr h1
      · have lengths := congrArg List.length code
        simp [epilogue, block] at lengths
        omega
      · cases code
        cases calls

/-! ### Labels with instructions of their own -/

/-- A place in code with instructions between labels, and the same place without. -/
def Spaced (q q' : Point (Piece Reference)) : Prop :=
  q'.machine = q.machine ∧ (q'.code = Code.separate q.code ∨
    q'.code = .instr .nop :: Code.separate q.code ∨ q'.code = [.instr .trap])

/-- A path through code with instructions between labels is one through the code. -/
theorem advance_of_spaced {q' r' : Point (Piece Reference)} (spaced : Spaced q q')
    (step : Advance link saved program.separate q' r') :
    ∃ r, Relation.ReflTransGen (Advance link saved program) q r ∧ Spaced r r' := by
  obtain ⟨code, m⟩ := q
  obtain ⟨code', m'⟩ := q'
  obtain ⟨same, spaced⟩ := spaced
  dsimp only at same spaced
  subst same
  rcases spaced with rfl | rfl | rfl
  case inr.inl =>
    obtain ⟨rfl, -⟩ := step.eq_of_next rfl rfl nofun
    exact ⟨_, .refl, rfl, .inl rfl⟩
  case inr.inr =>
    cases step with
    | next effect => cases effect
    | back calls => cases calls
  case inl =>
    cases code with
    | nil => cases step
    | cons p rest =>
        obtain ⟨between, e, kind⟩ := separate_cons p rest
        have behind (m' : Machine) : Spaced ⟨rest, m'⟩ ⟨block between ++ Code.separate rest, m'⟩ := by
          refine ⟨rfl, ?_⟩
          rcases kind with rfl | ⟨-, rfl | ⟨rfl, rfl⟩⟩
          · exact .inl rfl
          · exact .inr (.inl rfl)
          · exact .inr (.inr rfl)
        have elsewhere {l : Label} {code' : UnitCode}
            (found : (unitCode link).seek? l program.separate = some code') :
            ∃ target, (unitCode link).seek? l program = some target ∧ code' = Code.separate target := by
          rw [seek_separate] at found
          obtain ⟨target, here, rfl⟩ := Option.map_eq_some_iff.mp found
          exact ⟨target, here, rfl⟩
        simp only [e] at step
        cases step with
        | next effect spares => exact ⟨_, .single (.next effect spares), behind _⟩
        | jump found =>
            obtain ⟨target, here, rfl⟩ := elsewhere found
            exact ⟨_, .single (.jump here), rfl, .inl rfl⟩
        | branch found =>
            obtain ⟨target, here, rfl⟩ := elsewhere found
            exact ⟨_, .single (.branch here), rfl, .inl rfl⟩
        | fall => exact ⟨_, .single .fall, behind _⟩
        | back calls preserved spares => exact ⟨_, .single (.back calls preserved spares), behind _⟩

/-! ### Functions of a unit -/

theorem not_written_of_orderly {M : Landmarks} {floor : Nat} {p : Piece Reference}
    (orderly : p.Orderly M floor h) : ∀ r ∈ untouched, r ∉ p.written := by
  intro r hr
  have preserved : r.isPreserved = true ∧ r ≠ .rsp := by
    revert r
    decide
  cases p with
  | label => exact List.not_mem_nil
  | linked f =>
      cases f with
      | call => exact List.not_mem_nil
      | address d =>
          intro member
          obtain rfl := List.mem_singleton.mp member
          cases orderly.2.symm.trans preserved.1
  | instr i =>
      by_cases plain : i.isPlain = true
      · exact Instruction.not_written_of_isPlain plain preserved.1
      · cases i with
        | push => simpa [Piece.written, Instruction.written] using preserved.2
        | pop d =>
            have other : r ≠ d := by
              rintro rfl
              cases orderly.2.symm.trans preserved.1
            simpa [Piece.written, Instruction.written, other] using preserved.2
        | aluImm op d v =>
            cases op <;> cases d <;> first
              | exact absurd orderly plain
              | simpa [Piece.written, Instruction.written] using preserved.2
        | jmp | jcc | call | callRegister => exact List.not_mem_nil
        | _ => exact absurd orderly plain

/-- The pieces of a function do not write the registers of the caller that are not used. -/
theorem Framed.not_written {frame : Frame} {f : Function} {code : UnitCode}
    (framed : Framed entries entry f frame inner code) {p : Piece Reference}
    (member : p ∈ code) : ∀ r ∈ untouched, r ∉ p.written := by
  obtain rfl := framed.code_eq
  have opening : ∀ r ∈ untouched, r ∉ [Gp.rsp] ∧ r ∉ [Gp.rbp] ∧ r ∉ [Gp.rsp, Gp.rbp] := by decide
  rw [List.mem_append, List.mem_append] at member
  rcases member with member | member | member
  · intro r hr
    obtain ⟨stack, base, -⟩ := opening r hr
    unfold prologue at member
    rcases List.mem_cons.mp member with rfl | member
    · exact List.not_mem_nil
    split at member
    · simp only [block, List.append_nil, List.map_cons, List.map_nil, List.mem_cons,
        List.not_mem_nil, or_false] at member
      rcases member with rfl | rfl
      · exact stack
      · exact base
    · simp only [block, List.cons_append, List.nil_append, List.map_cons, List.map_nil,
        List.mem_cons, List.not_mem_nil, or_false] at member
      rcases member with rfl | rfl | rfl
      · exact stack
      · exact base
      · exact stack
  · obtain ⟨front, rest, split⟩ := List.append_of_mem member
    exact not_written_of_orderly (orderly_of_split framed.orderly split)
  · intro r hr
    simp only [epilogue, block, List.map_cons, List.map_nil, List.mem_cons, List.not_mem_nil,
      or_false] at member
    rcases member with rfl | rfl
    · exact (opening r hr).2.2
    · exact (opening r hr).1

/-- The function `int f() { return 1 + f(); }`, which calls with a word pushed. -/
def callingInside : Function :=
  let n : Note := ⟨.int .int, .start⟩
  let signature : Signature := ⟨.int .int, [], false, false⟩
  { name := "f", signature, locals := [],
    body := [.return (some (.binary n .add (.int n 1) (.call n "f" signature [])))],
    isStatic := false, loc := .start }

end Lowering

end LiveC
