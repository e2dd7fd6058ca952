import LiveC.Proofs.ConstantSyntax
import LiveC.Proofs.ParserProgress

/-!
Precedence climbing. One loop takes every operator of some levels and has the operands on the right
of it read with the levels below its own. It reads what a loop for each level reads: where the loop
for some levels stops, only an operator of a looser level can follow.
-/

namespace LiveC

theorem Operator.level_pos (op : Operator) : 0 < op.level := by
  rcases op with op | op | op <;> cases op <;> decide

theorem Operator.level_le (op : Operator) : op.level ≤ maxLevel := by
  rcases op with op | op | op <;> cases op <;> decide

/-- The punctuator at the front. -/
def ParserState.punct? (s : ParserState) : Option Punct :=
  match s.front.kind with
  | .punct p => some p
  | _ => none

/-- The binary operator at the front. -/
def ParserState.operator? (s : ParserState) : Option Operator := s.punct?.bind Operator.ofPunct?

/-- No operator of some levels is at the front. -/
def ParserState.Blocked (n : Nat) (s : ParserState) : Prop := ∀ op ∈ s.operator?, n < op.level

namespace Parser

variable {g : Productions} {s t : ParserState} {l e : Expr} {n : Nat} {op : Operator}

theorem exists_operator (h : ¬s.Blocked n) : ∃ op, s.operator? = some op ∧ op.level ≤ n := by
  simpa [ParserState.Blocked] using h

theorem peekPunct?_run (s : ParserState) : peekPunct? s = .ok s.punct? s := by
  rw [peekPunct?, peek_run, ParserState.punct?]
  cases s.front.kind <;> rfl

theorem front_of_operator? (h : s.operator? = some op) : ∃ p, s.front.kind = .punct p := by
  obtain ⟨p, found, -⟩ := Option.bind_eq_some_iff.mp h
  unfold ParserState.punct? at found
  split at found
  case h_1 kind => exact ⟨_, kind⟩
  case h_2 => cases found

/-- A step that is repeated, as a parser. -/
def loop {β : Type} (step : β → Parser (ForInStep β)) (b : β) : Parser β := iterate step b

/-- What a loop does behind a step. -/
def again {β : Type} (step : β → Parser (ForInStep β)) : ForInStep β → Parser β
  | .done b => return b
  | .yield b => loop step b

/-- A loop whose step consumes tokens where it goes on. -/
theorem loop_eq_step {β : Type} {step : β → Parser (ForInStep β)} {b : β}
    (spends : Spends GoesOn (step b) s) : loop step b s = (step b >>= again step) s := by
  rw [bind_run, loop, iterate]
  cases run : step b s with
  | error e t => rfl
  | ok r t =>
      cases r with
      | done b' => rfl
      | yield b' => exact if_pos (spends _ _ run trivial)

/-! ### Right operands -/

/-- Passes an operator, and reads its right operand. -/
def joined (op : Operator) (right : Parser Expr) (l : Expr) : Parser Expr := do
  let loc := (← next).loc
  let r ← right
  bounded (← typed (op.apply l r loc))

/-- The loop goes on behind the right operand. -/
def yielded (p : Parser Expr) : Parser (ForInStep Expr) := do return .yield (← p)

theorem joined_spends {right : Parser Expr} (forward : Forward right) (h : s.operator? = some op) :
    Spends (fun _ => True) (joined op right l) s := by
  obtain ⟨p, kind⟩ := front_of_operator? h
  refine .next kind nofun fun t => forward.skip fun r => (typed_moves _).skip fun e => ?_
  exact bounded_moves e

theorem bounded_eq_ok {e' : Expr} (run : bounded e s = .ok e' t) : e' = e ∧ t = s := by
  unfold bounded at run
  split at run
  · cases run
  · cases run
    exact ⟨rfl, rfl⟩

/-- Behind an operator the right operand ends where the whole does. -/
theorem joined_blocked {right : Parser Expr}
    (stops : ∀ {s t e}, right s = .ok e t → t.Blocked n) (run : joined op right l s = .ok e t) :
    t.Blocked n := by
  obtain ⟨_, _, _, run⟩ := bind_eq_ok run
  obtain ⟨_, u, read, run⟩ := bind_eq_ok run
  obtain ⟨_, v, typing, low⟩ := bind_eq_ok run
  obtain ⟨-, rfl⟩ := bounded_eq_ok low
  unfold typed at typing
  split at typing
  · cases typing
    have behind : u.Blocked n := stops read
    exact behind
  · cases typing

/-- A loop goes on behind what a step has read, if that has consumed tokens. -/
theorem loop_yielded {step : Expr → Parser (ForInStep Expr)} {p : Parser Expr}
    (run : step l s = yielded p t)
    (spent : ∀ e u, p t = .ok e u → u.rest.length < s.rest.length) :
    loop step l s = (p >>= loop step) t := by
  rw [loop, iterate, run, yielded, bind_run, bind_run]
  cases read : p t with
  | error x u => rfl
  | ok e u => exact if_pos (spent e u read)

theorem loop_joined {step : Expr → Parser (ForInStep Expr)} {right : Parser Expr}
    (forward : Forward right) (h : s.operator? = some op)
    (run : step l s = yielded (joined op right l) s) :
    loop step l s = (joined op right l >>= loop step) s :=
  loop_yielded run fun e t read => joined_spends forward h e t read trivial

/-! ### Steps -/

/-- One more operator of some levels with its right operand. -/
def climbStep (n : Nat) (right : (op : Operator) → op.level ≤ n → Parser Expr) (l : Expr) :
    Parser (ForInStep Expr) := do
  match (← peekPunct?).bind Operator.ofPunct? with
  | some op => if low : op.level ≤ n then yielded (joined op (right op low) l) else return .done l
  | none => return .done l

/-- Operands joined by the operators of some levels. An operator's right operand is read up to the
next operator that binds no tighter. -/
def climb (g : Productions) (n : Nat) : Parser Expr :=
  g.cast >>= bounded >>= loop (climbStep n fun op _ => climb g (op.level - 1))
termination_by n
decreasing_by
  have positive := op.level_pos
  omega

section

variable {right : (op : Operator) → op.level ≤ n → Parser Expr}

theorem climbStep_operator (h : s.operator? = some op) (low : op.level ≤ n) :
    climbStep n right l s = yielded (joined op (right op low) l) s := by
  refine (bind_ok (peekPunct?_run s)).trans ?_
  change (match s.operator? with | some op => _ | none => _ : Parser _) s = _
  rw [h]
  exact congrFun (dif_pos low) s

theorem climbStep_blocked (h : s.Blocked n) : climbStep n right l s = .ok (.done l) s := by
  refine (bind_ok (peekPunct?_run s)).trans ?_
  change (match s.operator? with | some op => _ | none => _ : Parser _) s = _
  cases seen : s.operator? with
  | none => rfl
  | some op => exact congrFun (dif_neg (Nat.not_le.mpr (h op seen))) s

end

theorem binaryStep_operator (h : s.operator? = some op) (level : op.level = n + 1) :
    binaryStep g n l s = yielded (joined op (binary g n) l) s := by
  refine (bind_ok (peekPunct?_run s)).trans ?_
  change (match s.operator? with | some op => _ | none => _ : Parser _) s = _
  rw [h]
  refine (congrFun (if_pos level) s).trans ?_
  rw [yielded, joined]
  simp only [bind_assoc]

theorem binaryStep_other (h : ∀ op ∈ s.operator?, op.level ≠ n + 1) :
    binaryStep g n l s = .ok (.done l) s := by
  refine (bind_ok (peekPunct?_run s)).trans ?_
  change (match s.operator? with | some op => _ | none => _ : Parser _) s = _
  cases seen : s.operator? with
  | none => rfl
  | some op => exact congrFun (if_neg (h op seen)) s

/-! ### Loops -/

/-- The operators of some levels behind an operand, their right operands read with a loop for each
level. -/
def operators (g : Productions) (n : Nat) : Expr → Parser Expr :=
  loop (climbStep n fun op _ => binary g (op.level - 1))

/-- The operators of a level behind an operand. -/
def chain (g : Productions) (n : Nat) : Expr → Parser Expr := loop (binaryStep g n)

theorem operators_blocked (h : s.Blocked n) : operators g n l s = .ok l s :=
  iterate_done (climbStep_blocked h)

theorem chain_other (h : ∀ op ∈ s.operator?, op.level ≠ n + 1) : chain g n l s = .ok l s :=
  iterate_done (binaryStep_other h)

theorem binary_succ (g : Productions) (n : Nat) :
    binary g (n + 1) = (binary g n >>= chain g n) := rfl

section

variable (moving : g.Moving anywhere.toTransition)
include moving

theorem operators_operator (h : s.operator? = some op) (low : op.level ≤ n) (l : Expr) :
    operators g n l s = (joined op (binary g (op.level - 1)) l >>= operators g n) s :=
  loop_joined (binary_moves moving _) h (climbStep_operator h low)

theorem chain_operator (h : s.operator? = some op) (level : op.level = n + 1) (l : Expr) :
    chain g n l s = (joined op (binary g n) l >>= chain g n) s :=
  loop_joined (binary_moves moving n) h (binaryStep_operator h level)

/-- Where the loop for some levels stops. -/
theorem operators_stop {s t : ParserState} {l e : Expr} (run : operators g n l s = .ok e t) :
    t.Blocked n := by
  by_cases blocked : s.Blocked n
  · cases (operators_blocked blocked).symm.trans run
    exact blocked
  · obtain ⟨op, seen, low⟩ := exists_operator blocked
    rw [operators_operator moving seen low] at run
    obtain ⟨e', u, read, run⟩ := bind_eq_ok run
    have spent := joined_spends (binary_moves moving _) seen e' u read trivial
    exact operators_stop run
termination_by s.rest.length

/-- The loop for one level more takes what the chain of that level takes behind the loop below. -/
theorem operators_succ (stops : ∀ {s t e}, binary g n s = .ok e t → t.Blocked n) (l : Expr)
    (s : ParserState) :
    operators g (n + 1) l s = (operators g n l >>= chain g n) s := by
  by_cases blocked : s.Blocked (n + 1)
  · have below : s.Blocked n := fun op seen => Nat.lt_of_succ_lt (blocked op seen)
    have other : ∀ op ∈ s.operator?, op.level ≠ n + 1 := fun op seen =>
      (Nat.ne_of_lt (blocked op seen)).symm
    rw [bind_ok (operators_blocked below), chain_other other, operators_blocked blocked]
  · obtain ⟨op, seen, low⟩ := exists_operator blocked
    rw [operators_operator moving seen low]
    by_cases tight : op.level ≤ n
    · rw [bind_run (operators g n l), operators_operator moving seen tight, ← bind_run, bind_assoc,
        bind_run, bind_run]
      cases read : joined op (binary g (op.level - 1)) l s with
      | error x t => rfl
      | ok e t =>
          have spent := joined_spends (binary_moves moving _) seen e t read trivial
          exact operators_succ stops e t
    · -- the loop below stops in front of the operator, and again behind its operand
      have level : op.level = n + 1 := by omega
      have below : s.Blocked n := fun op' seen' => by
        cases seen.symm.trans seen'
        exact Nat.not_le.mp tight
      rw [bind_ok (operators_blocked below), chain_operator moving seen level, level,
        Nat.add_sub_cancel, bind_run, bind_run]
      cases read : joined op (binary g n) l s with
      | error x t => rfl
      | ok e t =>
          have spent := joined_spends (binary_moves moving _) seen e t read trivial
          exact (operators_succ stops e t).trans
            (bind_ok (operators_blocked (joined_blocked stops read)))
termination_by s.rest.length

/-- All levels up to one are read by one loop. -/
theorem binary_eq (n : Nat) : binary g n = (g.cast >>= bounded >>= operators g n) := by
  induction n with
  | zero =>
      have none : operators g 0 = pure :=
        funext fun l => funext fun s => operators_blocked fun op _ => op.level_pos
      rw [none, bind_pure, binary]
  | succ n ih =>
      have stops {s t : ParserState} {e : Expr} (run : binary g n s = .ok e t) : t.Blocked n := by
        rw [ih] at run
        obtain ⟨_, _, _, run⟩ := bind_eq_ok run
        exact operators_stop moving run
      have loop : operators g (n + 1) = fun l => operators g n l >>= chain g n :=
        funext fun l => funext (operators_succ moving stops l)
      rw [binary_succ, ih, loop, bind_assoc]

/-- Precedence climbing reads what the levels one by one read. -/
theorem climb_eq_binary (n : Nat) : climb g n = binary g n := by
  induction n using Nat.strongRecOn with
  | ind n ih =>
      have right (op : Operator) (low : op.level ≤ n) :
          climb g (op.level - 1) = binary g (op.level - 1) := by
        have positive := op.level_pos
        exact ih (op.level - 1) (by omega)
      have step : climbStep n (fun op _ => climb g (op.level - 1)) =
          climbStep n fun op _ => binary g (op.level - 1) :=
        congrArg (climbStep n) (funext fun op => funext fun low => right op low)
      rw [climb, step, binary_eq moving]
      rfl

end

end Parser

end LiveC
