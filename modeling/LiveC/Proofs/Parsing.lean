import LiveC.Parser.Basic

/-!
What parsers keep. The states of a run of a parser extend each other, also where it fails,
and stay valid; what it gives has a property. Properties may refer to what the last state of
a longer run holds, so they are only claimed of states that lead there.
-/

namespace LiveC

/-! ### Typing steps -/

namespace Typing

variable {α β : Type} {t : Typing α} {f : α → Typing β} {P Q : α → Prop} {R : β → Prop}

/-- What a typing step gives, if it gives anything, has a property. -/
def Yields (t : Typing α) (Q : α → Prop) : Prop := ∀ ws a ws', t ws = .ok (a, ws') → Q a

namespace Yields

theorem pure {a : α} (h : Q a) : Yields (Pure.pure a : Typing α) Q := by
  rintro ws b ws' ⟨⟩
  exact h

theorem fail {loc : Location} {e : SemanticError} : Yields (Typing.fail loc e) Q := nofun

theorem bind (h : Yields t P) (hf : ∀ a, P a → Yields (f a) R) : Yields (t >>= f) R := by
  intro ws b ws' run
  cases ht : t ws with
  | error e => simp only [Bind.bind, StateT.bind, ht, Except.bind, reduceCtorEq] at run
  | ok r =>
      simp only [Bind.bind, StateT.bind, ht, Except.bind] at run
      exact hf r.1 (h ws r.1 r.2 ht) r.2 b ws' run

/-- A step for its warnings or errors only. -/
theorem skip (hf : ∀ a, Yields (f a) R) : Yields (t >>= f) R :=
  bind (P := fun _ => True) (fun _ _ _ _ => trivial) fun a _ => hf a

theorem mono (h : Yields t P) (hq : ∀ a, P a → Q a) : Yields t Q :=
  fun ws a ws' run => hq a (h ws a ws' run)

theorem and (h : Yields t P) (hq : Yields t Q) : Yields t fun a => P a ∧ Q a :=
  fun ws a ws' run => ⟨h ws a ws' run, hq ws a ws' run⟩

theorem ite {c : Prop} [Decidable c] {t f : Typing α} (ht : c → Yields t Q)
    (hf : ¬c → Yields f Q) : Yields (if c then t else f) Q := by
  split
  case isTrue hc => exact ht hc
  case isFalse hc => exact hf hc

/-- What is behind a test that refuses. -/
theorem guard {c : Prop} [Decidable c] {loc : Location} {e : SemanticError} {k : Typing β}
    {f : Unit → Typing β} (h : ¬c → Yields k R) :
    Yields (if c then Typing.fail loc e >>= f else k) R := by
  split
  · exact bind (P := fun _ => False) nofun nofun
  case isFalse hc => exact h hc

end Yields
end Typing

namespace Parser

/-- How the states of a run go on, which states are of interest, and what holds of them. -/
structure Course where
  le : ParserState → ParserState → Prop
  refl (s : ParserState) : le s s
  trans {s t u : ParserState} : le s t → le t u → le s u
  within : ParserState → Prop
  within_of_le {s t : ParserState} : le s t → within t → within s
  valid : ParserState → Prop

/-- The course behind a state. -/
def Course.above (C : Course) (s : ParserState) : Course :=
  { C with valid := fun t => C.valid t ∧ C.le s t }

/-- How a run from a state may end: the states in between keep the course. -/
def Ends {α : Type} (C : Course) (H : Prop) (Q : α → Prop) (s : ParserState) :
    EStateM.Result SourceFault ParserState α → Prop
  | .ok a t => C.le s t ∧ (C.within t → H → C.valid s → C.valid t ∧ Q a)
  | .error _ t => C.le s t ∧ (C.within t → H → C.valid s → C.valid t)

/-- Where `H` holds, a parser keeps a course and gives what has a property. -/
def Keeps {α : Type} (C : Course) (H : Prop) (p : Parser α) (Q : α → Prop) : Prop :=
  ∀ s, Ends C H Q s (p s)

variable {α β : Type} {C : Course} {H G : Prop} {p : Parser α} {f : α → Parser β} {P Q : α → Prop}
  {R : β → Prop}

/-- A run in two steps that succeeds. -/
theorem bind_eq_ok {s u : ParserState} {b : β} (h : (p >>= f) s = .ok b u) :
    ∃ a t, p s = .ok a t ∧ f a t = .ok b u := by
  simp only [Bind.bind, EStateM.bind] at h
  cases hp : p s with
  | ok a t =>
      rw [hp] at h
      exact ⟨a, t, rfl, h⟩
  | error e t =>
      rw [hp] at h
      cases h

/-- A run that goes on from a state that keeps the course. -/
theorem Ends.after {s t : ParserState} {r : EStateM.Result SourceFault ParserState β}
    (le : C.le s t) (step : C.within t → H → C.valid s → C.valid t ∧ G)
    (h : Ends C (H ∧ G) R t r) : Ends C H R s r := by
  cases r with
  | ok b u =>
      refine ⟨C.trans le h.1, fun within pre valid => ?_⟩
      have mid := step (C.within_of_le h.1 within) pre valid
      exact h.2 within ⟨pre, mid.2⟩ mid.1
  | error e u =>
      refine ⟨C.trans le h.1, fun within pre valid => ?_⟩
      have mid := step (C.within_of_le h.1 within) pre valid
      exact h.2 within ⟨pre, mid.2⟩ mid.1

theorem Ends.mono {s : ParserState} {r : EStateM.Result SourceFault ParserState α}
    (h : Ends C G P s r) (pre : H → G) (post : ∀ a, H → P a → Q a) : Ends C H Q s r := by
  cases r with
  | ok a t =>
      refine ⟨h.1, fun within hH valid => ?_⟩
      have mid := h.2 within (pre hH) valid
      exact ⟨mid.1, post a hH mid.2⟩
  | error e t => exact ⟨h.1, fun within hH valid => h.2 within (pre hH) valid⟩

theorem Ends.bind {s : ParserState} (h : Ends C H P s (p s))
    (hf : ∀ a, Keeps C (H ∧ P a) (f a) R) : Ends C H R s ((p >>= f) s) := by
  have run : (p >>= f) s = match p s with
      | .ok a t => f a t
      | .error e t => .error e t := by
    simp only [Bind.bind, EStateM.bind]
    cases p s <;> rfl
  rw [run]
  cases hp : p s with
  | error e t =>
      rw [hp] at h
      exact h
  | ok a t =>
      rw [hp] at h
      exact .after h.1 h.2 (hf a t)

theorem Ends.ite {c : Prop} [Decidable c] {p q : Parser α} {s : ParserState}
    (hp : c → Ends C H Q s (p s)) (hq : ¬c → Ends C H Q s (q s)) :
    Ends C H Q s ((if c then p else q) s) := by
  by_cases hc : c
  · rw [if_pos hc]
    exact hp hc
  · rw [if_neg hc]
    exact hq hc

/-- What is behind a test that refuses. -/
theorem Ends.guard {c : Prop} [Decidable c] {loc : Location} {e : SemanticError} {k : Parser β}
    {f : α → Parser β} {s : ParserState} (h : ¬c → Ends C H R s (k s)) :
    Ends C H R s ((if c then refuse loc e >>= f else k) s) :=
  .ite (fun _ => ⟨C.refl s, fun _ _ valid => valid⟩) h

/-- Nothing is claimed of a run from a state that is not valid. -/
theorem Ends.assume {s : ParserState} {r : EStateM.Result SourceFault ParserState α}
    (h : Ends C (H ∧ C.valid s) Q s r) : Ends C H Q s r := by
  cases r with
  | ok a t => exact ⟨h.1, fun within pre valid => h.2 within ⟨pre, valid⟩ valid⟩
  | error e t => exact ⟨h.1, fun within pre valid => h.2 within ⟨pre, valid⟩ valid⟩

/-- A first step on another course, which a state enters. What is behind it may refer to what is
valid there. -/
theorem Ends.along {D : Course} {s s' : ParserState} (h : Ends D H P s' (p s'))
    (le : ∀ t, D.le s' t → C.le s t) (within : ∀ t, C.within t → D.within t)
    (enter : C.valid s → H → D.valid s') (leave : ∀ t, D.valid t → C.valid t)
    (hf : ∀ a t, D.le s' t → Ends C (H ∧ D.valid t ∧ P a) R t (f a t)) :
    Ends C H R s ((p >>= f) s') := by
  have run : (p >>= f) s' = match p s' with
      | .ok a t => f a t
      | .error e t => .error e t := by
    simp only [Bind.bind, EStateM.bind]
    cases p s' <;> rfl
  rw [run]
  cases hp : p s' with
  | error e t =>
      rw [hp] at h
      exact ⟨le t h.1, fun end' pre valid => leave t (h.2 (within t end') pre (enter valid pre))⟩
  | ok a t =>
      rw [hp] at h
      refine .after (le t h.1) (fun end' pre valid => ?_) (hf a t h.1)
      have kept := h.2 (within t end') pre (enter valid pre)
      exact ⟨leave t kept.1, kept⟩

/-- What every round keeps holds behind the last one. -/
theorem iterate_invariant {step : β → Parser (ForInStep β)} {I : β → ParserState → Prop}
    (h : ∀ b s r t, I b s → step b s = .ok r t → I r.value t) (b : β) (s : ParserState) {c : β}
    {t : ParserState} (start : I b s) (run : iterate step b s = .ok c t) : I c t := by
  fun_induction iterate step b s with
  | case1 => cases run
  | case2 b s c' t' round =>
      cases run
      exact h b s _ _ start round
  | case3 b s c' t' round _ ih => exact ih (h b s _ _ start round) run
  | case4 b s c' t' round =>
      cases run
      exact h b s _ _ start round

namespace Keeps

theorem pure {a : α} (h : H → Q a) : Keeps C H (Pure.pure a) Q :=
  fun s => ⟨C.refl s, fun _ pre valid => ⟨valid, h pre⟩⟩

theorem throw {e : SourceFault} : Keeps C H (MonadExcept.throw e : Parser α) Q :=
  fun s => ⟨C.refl s, fun _ _ valid => valid⟩

theorem throw_bind {e : SourceFault} : Keeps C H ((MonadExcept.throw e : Parser α) >>= f) R :=
  fun s => ⟨C.refl s, fun _ _ valid => valid⟩

theorem bind (h : Keeps C H p P) (hf : ∀ a, Keeps C (H ∧ P a) (f a) R) :
    Keeps C H (p >>= f) R :=
  fun s => (h s).bind hf

theorem mono (h : Keeps C G p P) (pre : H → G) (post : ∀ a, H → P a → Q a) : Keeps C H p Q :=
  fun s => (h s).mono pre post

theorem pre (h : Keeps C G p Q) (hH : H → G) : Keeps C H p Q := h.mono hH fun _ _ post => post

theorem post (h : Keeps C H p P) (hq : ∀ a, H → P a → Q a) : Keeps C H p Q := h.mono id hq

/-- What every run from a valid state gives has one more property. -/
theorem and_run {P : α → Prop} (h : Keeps C H p Q)
    (each : ∀ s a t, H → C.valid s → p s = .ok a t → P a) : Keeps C H p fun a => P a ∧ Q a := by
  intro s
  have run := h s
  cases hp : p s with
  | ok a t =>
      rw [hp] at run
      refine ⟨run.1, fun within pre valid => ?_⟩
      obtain ⟨kept, post⟩ := run.2 within pre valid
      exact ⟨kept, each s a t pre valid hp, post⟩
  | error e t =>
      rw [hp] at run
      exact run

/-- A parser of whose result nothing is needed. -/
theorem skip (h : Keeps C H p P) (hf : ∀ a, Keeps C H (f a) R) : Keeps C H (p >>= f) R :=
  h.bind fun a => (hf a).pre And.left

theorem map {g : α → β} (h : Keeps C H p P) (hg : ∀ a, H → P a → R (g a)) :
    Keeps C H (g <$> p) R :=
  h.bind fun a => pure fun ⟨pre, post⟩ => hg a pre post

/-- What is behind a test that refuses. -/
theorem guard {c : Prop} [Decidable c] {loc : Location} {e : SemanticError} {k : Parser β}
    {f : α → Parser β} (h : ¬c → Keeps C H k R) :
    Keeps C H (if c then refuse loc e >>= f else k) R := by
  split
  · exact throw_bind
  case isFalse hc => exact h hc

theorem ite {c : Prop} [Decidable c] {p q : Parser α} (hp : c → Keeps C H p Q)
    (hq : ¬c → Keeps C H q Q) : Keeps C H (if c then p else q) Q := by
  split
  case isTrue hc => exact hp hc
  case isFalse hc => exact hq hc

/-- A parser that gives nothing of note. -/
theorem done {a : α} : Keeps C H (Pure.pure a) fun _ => True := pure fun _ => trivial

theorem or {p q : Parser Bool} (hp : Keeps C H p fun _ => True) (hq : Keeps C H q fun _ => True) :
    Keeps C H (p <||> q) fun _ => True := by
  refine hp.skip fun first => ?_
  cases first with
  | true => exact done
  | false => exact hq

theorem get : Keeps C H (MonadState.get : Parser ParserState) fun s => C.within s ∧ C.valid s :=
  fun s => ⟨C.refl s, fun within _ valid => ⟨valid, within, valid⟩⟩

theorem modify {g : ParserState → ParserState} (le : ∀ s, C.le s (g s))
    (valid : ∀ s, C.within (g s) → H → C.valid s → C.valid (g s)) :
    Keeps C H (modify g) fun _ => True :=
  fun s => ⟨le s, fun within pre h => ⟨valid s within pre h, trivial⟩⟩

/-- On the way that a course takes behind a state. -/
theorem above (h : Keeps C H p Q) (s : ParserState) : Keeps (C.above s) H p Q := by
  intro t
  have run := h t
  cases hp : p t with
  | ok a u =>
      rw [hp] at run
      refine ⟨run.1, fun within pre valid => ?_⟩
      obtain ⟨kept, post⟩ := run.2 within pre valid.1
      exact ⟨⟨kept, C.trans valid.2 run.1⟩, post⟩
  | error e u =>
      rw [hp] at run
      exact ⟨run.1, fun within pre valid => ⟨run.2 within pre valid.1, C.trans valid.2 run.1⟩⟩

/-- What is behind a look at the state may refer to it. -/
theorem get_bind {f : ParserState → Parser β}
    (h : ∀ s, Keeps (C.above s) (H ∧ C.within s ∧ C.valid s) (f s) R) :
    Keeps C H (MonadState.get >>= f) R := by
  intro s
  have run := h s s
  change Ends C H R s (f s s)
  cases hf : f s s with
  | ok b t =>
      rw [hf] at run
      refine ⟨run.1, fun within pre valid => ?_⟩
      have kept := run.2 within ⟨pre, C.within_of_le run.1 within, valid⟩ ⟨valid, C.refl s⟩
      exact ⟨kept.1.1, kept.2⟩
  | error e t =>
      rw [hf] at run
      refine ⟨run.1, fun within pre valid => ?_⟩
      exact (run.2 within ⟨pre, C.within_of_le run.1 within, valid⟩ ⟨valid, C.refl s⟩).1

/-- Every step keeps an invariant. -/
theorem iterate {I : α → Prop} {step : α → Parser (ForInStep α)}
    (h : ∀ a, Keeps C (H ∧ I a) (step a) fun r => I r.value) (a : α) :
    Keeps C (H ∧ I a) (iterate step a) I := by
  intro s
  fun_induction Parser.iterate step a s with
  | case1 a s e t run =>
      have once := h a s
      rw [run] at once
      exact once
  | case2 a s b t run =>
      have once := h a s
      rw [run] at once
      exact once
  | case3 a s b t run lt ih =>
      have once := h a s
      rw [run] at once
      exact .after once.1 once.2 (ih.mono (fun pre => ⟨pre.1.1, pre.2⟩) fun _ _ post => post)
  | case4 a s b t run lt =>
      have once := h a s
      rw [run] at once
      exact once

/-- Runs on another course between two changes of the state. -/
theorem between {D : Course} {enter leave : ParserState → ParserState} (h : Keeps D H p Q)
    (le : ∀ s t, D.le s t → C.le s t) (within : ∀ t, C.within t → D.within t)
    (enterLe : ∀ s, C.le s (enter s)) (leaveLe : ∀ s, C.le s (leave s))
    (enterValid : ∀ s, C.valid s → D.valid (enter s))
    (leaveValid : ∀ s, D.valid s → C.valid (leave s)) :
    Keeps C H (between enter leave p) Q := by
  intro s
  have run := h (enter s)
  unfold Parser.between
  cases hp : p (enter s) with
  | ok a t =>
      rw [hp] at run
      refine ⟨C.trans (C.trans (enterLe s) (le _ _ run.1)) (leaveLe t), fun end' pre valid => ?_⟩
      have inside := run.2 (within t (C.within_of_le (leaveLe t) end')) pre (enterValid s valid)
      exact ⟨leaveValid t inside.1, inside.2⟩
  | error e t =>
      rw [hp] at run
      refine ⟨C.trans (C.trans (enterLe s) (le _ _ run.1)) (leaveLe t), fun end' pre valid => ?_⟩
      have inside := run.2 (within t (C.within_of_le (leaveLe t) end')) pre (enterValid s valid)
      exact leaveValid t inside

theorem tryCatch {handler : SourceFault → Parser α} (h : Keeps C H p Q)
    (hh : ∀ e, Keeps C H (handler e) Q) : Keeps C H (tryCatch p handler) Q := by
  intro s
  have run := h s
  change Ends C H Q s (EStateM.tryCatch p handler s)
  delta EStateM.tryCatch
  cases hp : p s with
  | ok a t =>
      rw [hp] at run
      exact run
  | error e t =>
      rw [hp] at run
      have caught := (hh e).pre (H := H ∧ True) And.left t
      exact .after run.1 (fun within pre valid => ⟨run.2 within pre valid, trivial⟩) caught

end Keeps
end Parser
end LiveC
