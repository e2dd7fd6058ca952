import Mathlib.Data.List.Forall2

/-!
Computations with a state that may fail, taken apart at their steps, and lists that are related
element by element.
-/

namespace LiveC

variable {σ ε α β : Type} {s s' : σ}

/-- A sequence gives a result if both of its parts do. -/
theorem bind_eq_ok {x : StateT σ (Except ε) α} {f : α → StateT σ (Except ε) β} {b : β} :
    (x >>= f) s = .ok (b, s') ↔ ∃ a t, x s = .ok (a, t) ∧ f a t = .ok (b, s') := by
  simp only [bind, StateT.bind, Except.bind]
  cases x s with
  | error e => simp
  | ok r =>
      obtain ⟨a, t⟩ := r
      constructor
      · exact fun h => ⟨a, t, rfl, h⟩
      · rintro ⟨_, _, ⟨rfl, rfl⟩, h⟩
        exact h

theorem bind_of_ok {x : StateT σ (Except ε) α} {f : α → StateT σ (Except ε) β} {a : α}
    (h : x s = .ok (a, s')) : (x >>= f) s = f a s' := by
  simp only [bind, StateT.bind, h, Except.bind]

theorem pure_eq_ok {a b : α} :
    (pure a : StateT σ (Except ε) α) s = .ok (b, s') ↔ a = b ∧ s = s' := by
  change (Except.ok (a, s) : Except ε (α × σ)) = .ok (b, s') ↔ _
  rw [Except.ok.injEq, Prod.mk.injEq]

theorem throw_ne_ok {e : ε} {b : α} :
    ¬(throw e : StateT σ (Except ε) α) s = .ok (b, s') := nofun

theorem lift_eq_ok {x : Except ε α} {b : α} :
    (liftM x : StateT σ (Except ε) α) s = .ok (b, s') ↔ x = .ok b ∧ s = s' := by
  cases x with
  | error e => exact ⟨nofun, nofun⟩
  | ok a => exact pure_eq_ok.trans (and_congr_left' ⟨congrArg _, Except.ok.inj⟩)

theorem mapError_ok {ε' : Type} (f : ε → ε') (a : α) :
    (Except.ok a : Except ε α).mapError f = .ok a := rfl

/-! ### Without a state -/

theorem ok_of_bind {x : Except ε α} {f : α → Except ε β} {b : β} (h : (x >>= f) = .ok b) :
    ∃ a, x = .ok a ∧ f a = .ok b := by
  cases x with
  | error e => cases h
  | ok a => exact ⟨a, rfl, h⟩

theorem ok_of_toOption {x : Except ε α} {a : α} (h : x.toOption = some a) : x = .ok a := by
  cases x with
  | error e => cases h
  | ok b => exact congrArg Except.ok (Option.some.inj h)

/-- What a result is found to be, it is of a result that there is. -/
theorem exists_of_toOption_any {x : Except ε α} {p : α → Bool} (h : x.toOption.any p = true) :
    ∃ a, x = .ok a ∧ p a = true := by
  obtain ⟨a, result, holds⟩ := (Option.any_eq_true ..).mp h
  exact ⟨a, ok_of_toOption result, holds⟩

theorem except_bind_of_ok {x : Except ε α} {f : α → Except ε β} {a : α} (h : x = .ok a) :
    (x >>= f) = f a := by
  rw [h]
  rfl

theorem except_bind_of_error {x : Except ε α} {f : α → Except ε β} {e : ε} (h : x = .error e) :
    (x >>= f) = .error e := by
  rw [h]
  rfl

/-- A check in front of a computation. -/
theorem guard_eq_ok {c : Prop} [Decidable c] {e : ε} {f : PUnit → Except ε β} {x : Except ε β}
    {b : β} : (if c then throw e >>= f else x) = .ok b ↔ ¬c ∧ x = .ok b := by
  by_cases h : c
  · rw [if_pos h]
    constructor
    · intro failed
      cases failed
    · exact fun both => absurd h both.1
  · rw [if_neg h]
    exact ⟨fun ok => ⟨h, ok⟩, And.right⟩

theorem forM_eq_ok {f : α → Except ε PUnit} {l : List α} :
    l.forM f = .ok () ↔ ∀ a ∈ l, f a = .ok () := by
  induction l with
  | nil => exact ⟨fun _ => List.forall_mem_nil _, fun _ => rfl⟩
  | cons a l ih =>
      rw [List.forall_mem_cons, ← ih]
      constructor
      · intro h
        obtain ⟨_, ha, hl⟩ := ok_of_bind h
        exact ⟨ha, hl⟩
      · rintro ⟨ha, hl⟩
        exact (congrArg (· >>= fun _ => l.forM f) ha).trans hl

theorem mapM_eq_ok {f : α → Except ε β} {l : List α} {bs : List β} :
    l.mapM f = .ok bs ↔ List.Forall₂ (fun a b => f a = .ok b) l bs := by
  induction l generalizing bs with
  | nil =>
      rw [List.mapM_nil, List.forall₂_nil_left_iff]
      exact ⟨fun h => (Except.ok.inj h).symm, fun h => h ▸ rfl⟩
  | cons a l ih =>
      rw [List.mapM_cons]
      constructor
      · intro h
        obtain ⟨b, ha, h⟩ := ok_of_bind h
        obtain ⟨others, hl, h⟩ := ok_of_bind h
        cases h
        exact .cons ha (ih.mp hl)
      · rintro (_ | ⟨ha, hl⟩)
        rw [ha, ih.mpr hl]
        rfl

theorem mapM_succeeds {f : α → Except ε β} {l : List α} (h : ∀ a ∈ l, ∃ b, f a = .ok b) :
    ∃ bs, l.mapM f = .ok bs := by
  induction l with
  | nil => exact ⟨[], mapM_eq_ok.mpr .nil⟩
  | cons a l ih =>
      obtain ⟨⟨b, ha⟩, others⟩ := List.forall_mem_cons.mp h
      obtain ⟨bs, hl⟩ := ih others
      exact ⟨b :: bs, mapM_eq_ok.mpr (.cons ha (mapM_eq_ok.mp hl))⟩

/-- What is related to the elements of a list is related to one of them each. -/
theorem exists_of_forall₂ {R : α → β → Prop} {as : List α} {bs : List β} {b : β}
    (h : List.Forall₂ R as bs) (member : b ∈ bs) : ∃ a ∈ as, R a b := by
  induction h with
  | nil => cases member
  | cons first rest ih =>
      rcases List.mem_cons.mp member with rfl | member
      · exact ⟨_, .head _, first⟩
      · obtain ⟨a, known, related⟩ := ih member
        exact ⟨a, .tail _ known, related⟩

theorem forall₂_mem {R : α → β → Prop} {as : List α} {bs : List β} (h : List.Forall₂ R as bs) :
    List.Forall₂ (fun a b => a ∈ as ∧ b ∈ bs ∧ R a b) as bs := by
  induction h with
  | nil => exact .nil
  | cons first rest ih =>
      exact .cons ⟨.head _, .head _, first⟩
        (ih.imp fun _ _ h => ⟨.tail _ h.1, .tail _ h.2.1, h.2.2⟩)

end LiveC
