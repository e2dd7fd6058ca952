import LiveC.Lowering.Statement
import LiveC.Proofs.Labels

/-!
What the code of a statement is put together from: the code of its parts, and the labels that
are made for it. Of the labels of the code of statements, functions and units each that is made
occurs once.
-/

namespace LiveC
namespace Lowering

variable {c : FunctionContext} {loop : Option LoopLabels} {n n' : Label} {code : UnitCode}

/-- The code of a statement, by the code of its parts. Labels from `n` are free before it, and
labels from `n'` behind it. -/
def Composed (c : FunctionContext) (loop : Option LoopLabels) (n : Label) (code : UnitCode)
    (n' : Label) : Stmt → Prop
  | .expr e => expr c.toContext 0 e n = .ok (code, n')
  | .init id zero stores => ∃ offset others, c.offsets[id]? = some offset ∧
      initStores c.toContext offset stores n = .ok (others, n') ∧
      code = (if zero then
        zeroing ⟨.rbp, offset⟩ ((c.locals[id]?.map fun v => v.ty.size).getD 0) else []) ++ others
  | .block body => stmts c loop body n = .ok (code, n')
  | .ite e t none => ∃ test k yes, skipping c.toContext e n (n + 1) = .ok (test, k) ∧
      stmt c loop t k = .ok (yes, n') ∧ code = test ++ yes ++ [.label n]
  | .ite e t (some f) => ∃ test k yes stop no,
      skipping c.toContext e n (n + 1) = .ok (test, k) ∧ stmt c loop t k = .ok (yes, stop) ∧
      stmt c loop f (stop + 1) = .ok (no, n') ∧
      code = test ++ yes ++ goto stop ++ [.label n] ++ no ++ [.label stop]
  | .while e body => ∃ test k inner,
      skipping c.toContext e (n + 1) (n + 1 + 1) = .ok (test, k) ∧
      stmt c (some ⟨n, n + 1⟩) body k = .ok (inner, n') ∧
      code = .label n :: test ++ inner ++ goto n ++ [.label (n + 1)]
  | .doWhile body e => ∃ inner k test,
      stmt c (some ⟨n + 1, n + 1 + 1⟩) body (n + 1 + 1 + 1) = .ok (inner, k) ∧
      expr c.toContext 0 e k = .ok (test, n') ∧
      code = .label n :: inner ++ [.label (n + 1)] ++ test ++ branch .notEqual n ++
        [.label (n + 1 + 1)]
  | .for start e step body => ∃ first top test k inner j last,
      optionalStmt c loop start n = .ok (first, top) ∧
      skippingOptional c.toContext (top + 1 + 1) e (top + 1 + 1 + 1) = .ok (test, k) ∧
      stmt c (some ⟨top + 1, top + 1 + 1⟩) body k = .ok (inner, j) ∧
      optional c.toContext step j = .ok (last, n') ∧
      code = first ++ [.label top] ++ test ++ inner ++ [.label (top + 1)] ++ last ++ goto top ++
        [.label (top + 1 + 1)]
  | .break => n = n' ∧ ∃ l, loop = some l ∧ code = goto l.stop
  | .continue => n = n' ∧ ∃ l, loop = some l ∧ code = goto l.next
  | .return value => ∃ given, optional c.toContext value n = .ok (given, n') ∧
      code = given ++ goto c.finish
  | .empty => n = n' ∧ code = []

theorem composed_of_stmt {s : Stmt} (h : stmt c loop s n = .ok (code, n')) :
    Composed c loop n code n' s := by
  cases s with
  | expr e => exact h
  | init id zero stores =>
      simp only [stmt, bind_eq_ok, variableAddress_eq_ok, pure_eq_ok] at h
      obtain ⟨_, _, ⟨offset, found, rfl, rfl⟩, others, _, ho, rfl, rfl⟩ := h
      exact ⟨offset, others, found, ho, rfl⟩
  | block body => exact h
  | ite e t f =>
      cases f with
      | none =>
          simp only [stmt, bind_eq_ok, pure_eq_ok, newLabel_eq_ok] at h
          obtain ⟨_, _, ⟨rfl, rfl⟩, test, k, hs, yes, _, hy, rfl, rfl⟩ := h
          exact ⟨test, k, yes, hs, hy, rfl⟩
      | some f =>
          simp only [stmt, bind_eq_ok, pure_eq_ok, newLabel_eq_ok] at h
          obtain ⟨_, _, ⟨rfl, rfl⟩, test, k, hs, yes, stop, hy, _, _, ⟨rfl, rfl⟩, no, _, hn, rfl,
            rfl⟩ := h
          exact ⟨test, k, yes, stop, no, hs, hy, hn, rfl⟩
  | «while» e body =>
      simp only [stmt, bind_eq_ok, pure_eq_ok, newLabel_eq_ok] at h
      obtain ⟨_, _, ⟨rfl, rfl⟩, _, _, ⟨rfl, rfl⟩, test, k, hs, inner, _, hb, rfl, rfl⟩ := h
      exact ⟨test, k, inner, hs, hb, rfl⟩
  | doWhile body e =>
      simp only [stmt, bind_eq_ok, pure_eq_ok, newLabel_eq_ok] at h
      obtain ⟨_, _, ⟨rfl, rfl⟩, _, _, ⟨rfl, rfl⟩, _, _, ⟨rfl, rfl⟩, inner, k, hb, test, _, ht, rfl,
        rfl⟩ := h
      exact ⟨inner, k, test, hb, ht, rfl⟩
  | «for» start e step body =>
      simp only [stmt, bind_eq_ok, pure_eq_ok, newLabel_eq_ok] at h
      obtain ⟨first, top, hs, _, _, ⟨rfl, rfl⟩, _, _, ⟨rfl, rfl⟩, _, _, ⟨rfl, rfl⟩, test, k, ht,
        inner, j, hb, last, _, hl, rfl, rfl⟩ := h
      exact ⟨first, top, test, k, inner, j, last, hs, ht, hb, hl, rfl⟩
  | «break» | «continue» =>
      cases loop with
      | none => exact absurd h throw_ne_ok
      | some l =>
          obtain ⟨rfl, rfl⟩ := pure_eq_ok.mp h
          exact ⟨rfl, l, rfl, rfl⟩
  | «return» value =>
      simp only [stmt, bind_eq_ok, pure_eq_ok] at h
      obtain ⟨given, _, ho, rfl, rfl⟩ := h
      exact ⟨given, ho, rfl⟩
  | empty =>
      obtain ⟨rfl, rfl⟩ := pure_eq_ok.mp h
      exact ⟨rfl, rfl⟩

theorem stmts_cons_eq_ok {s : Stmt} {body : List Stmt} :
    stmts c loop (s :: body) n = .ok (code, n') ↔ ∃ first k others,
      stmt c loop s n = .ok (first, k) ∧ stmts c loop body k = .ok (others, n') ∧
      first ++ others = code := by
  simp only [stmts, bind_eq_ok, pure_eq_ok]
  constructor
  · rintro ⟨first, k, hs, others, _, ho, rfl, rfl⟩
    exact ⟨first, k, others, hs, ho, rfl⟩
  · rintro ⟨first, k, others, hs, ho, rfl⟩
    exact ⟨first, k, hs, others, n', ho, rfl, rfl⟩

end Lowering

/-! ### Labels -/

namespace Lowering

theorem count_nil (l : Nat) : (Code.labels ([] : UnitCode)).count l = 0 := rfl

theorem count_append (l : Nat) (code others : UnitCode) :
    (code ++ others).labels.count l = code.labels.count l + others.labels.count l := by
  rw [Code.labels_append, List.count_append]

theorem count_label (l k : Nat) (code : UnitCode) :
    (Code.labels (.label k :: code)).count l = code.labels.count l + if k = l then 1 else 0 := by
  simp [List.count_cons]

theorem count_block (l : Nat) (is : List (Instruction Label)) :
    (Code.labels (block is)).count l = 0 := by
  simp

variable {c : FunctionContext} {n n' : Label} {code : UnitCode}

theorem initStores_allotted {c : Context} {offset : BitVec 32} {stores : List InitStore}
    (h : initStores c offset stores n = .ok (code, n')) : Allotted n code n' := by
  induction stores generalizing n code with
  | nil =>
      obtain ⟨rfl, rfl⟩ := pure_eq_ok.mp h
      exact allotted_of_labels_eq_nil _ rfl
  | cons s stores ih =>
      simp only [initStores, bind_eq_ok, pure_eq_ok] at h
      obtain ⟨value, _, hv, store, _, hs, others, _, ho, rfl, rfl⟩ := h
      obtain ⟨none, rfl⟩ := labels_storeValue hs
      have parts := ((expr_address_allotted c s.value).1 _ _ _ _ hv).append (ih ho)
      simpa [Allotted, none] using parts

theorem skipping_allotted {c : Context} {e : Expr} {l : Label}
    (h : skipping c e l n = .ok (code, n')) : Allotted n code n' := by
  simp only [skipping, bind_eq_ok, pure_eq_ok] at h
  obtain ⟨code, _, he, rfl, rfl⟩ := h
  simpa [Allotted, branch] using (expr_address_allotted c e).1 _ _ _ _ he

theorem skippingOptional_allotted {c : Context} {e : Option Expr} {l : Label}
    (h : skippingOptional c l e n = .ok (code, n')) : Allotted n code n' := by
  cases e with
  | some e => exact skipping_allotted h
  | none =>
      obtain ⟨rfl, rfl⟩ := pure_eq_ok.mp h
      exact allotted_of_labels_eq_nil _ rfl

theorem optional_allotted {c : Context} {e : Option Expr}
    (h : optional c e n = .ok (code, n')) : Allotted n code n' := by
  cases e with
  | some e => exact (expr_address_allotted c e).1 _ _ _ _ h
  | none =>
      obtain ⟨rfl, rfl⟩ := pure_eq_ok.mp h
      exact allotted_of_labels_eq_nil _ rfl

theorem stmts_allotted {body : List Stmt} {loop : Option LoopLabels}
    (hb : ∀ s ∈ body, ∀ {loop n n' code}, stmt c loop s n = .ok (code, n') → Allotted n code n')
    (h : stmts c loop body n = .ok (code, n')) : Allotted n code n' := by
  induction body generalizing n code with
  | nil =>
      obtain ⟨rfl, rfl⟩ := pure_eq_ok.mp h
      exact allotted_of_labels_eq_nil _ rfl
  | cons s body ih =>
      obtain ⟨first, _, others, hs, ho, rfl⟩ := stmts_cons_eq_ok.mp h
      exact (hb s List.mem_cons_self hs).append (ih (fun s hs => hb s (List.mem_cons_of_mem _ hs)) ho)

theorem optionalStmt_allotted {s : Option Stmt} {loop : Option LoopLabels}
    (hs : ∀ t ∈ s, ∀ {loop n n' code}, stmt c loop t n = .ok (code, n') → Allotted n code n')
    (h : optionalStmt c loop s n = .ok (code, n')) : Allotted n code n' := by
  cases s with
  | some s => exact hs s rfl h
  | none =>
      obtain ⟨rfl, rfl⟩ := pure_eq_ok.mp h
      exact allotted_of_labels_eq_nil _ rfl

theorem stmt_allotted {s : Stmt} {loop : Option LoopLabels}
    (h : stmt c loop s n = .ok (code, n')) : Allotted n code n' := by
  induction s generalizing loop n n' code with
  | expr e => exact (expr_address_allotted c.toContext e).1 _ _ _ _ h
  | init id zero stores =>
      obtain ⟨offset, others, -, ho, rfl⟩ := composed_of_stmt h
      cases zero with
      | true => simpa [Allotted, zeroing] using initStores_allotted ho
      | false => exact initStores_allotted ho
  | block body ih => exact stmts_allotted (fun s hs {_ _ _ _} => ih s hs) h
  | ite e t f iht ihf =>
      cases f with
      | none =>
          obtain ⟨test, _, yes, hs, hy, rfl⟩ := composed_of_stmt h
          refine ((skipping_allotted hs).append (iht hy)).insert fun l => ?_
          simp [List.count_cons, Nat.add_assoc]
      | some f =>
          obtain ⟨test, _, yes, stop, no, hs, hy, hn, rfl⟩ := composed_of_stmt h
          have others : Allotted stop (no ++ [.label stop]) _ :=
            (ihf f rfl hn).insert fun l => by simp [List.count_cons]
          refine (((skipping_allotted hs).append (iht hy)).append others).insert fun l => ?_
          simp [goto, List.count_cons]
          omega
  | whileLoop e body ih =>
      obtain ⟨test, _, code, hs, hb, rfl⟩ := composed_of_stmt h
      have inner : Allotted (n + 1) (test ++ code ++ [.label (n + 1)]) _ :=
        .insert ((skipping_allotted hs).append (ih hb)) fun l => by
          simp only [count_append, count_label, count_nil]
          omega
      refine inner.insert fun l => ?_
      simp only [count_append, count_label, count_block, count_nil, goto]
      omega
  | doWhileLoop body e ih =>
      obtain ⟨code, _, test, hb, ht, rfl⟩ := composed_of_stmt h
      have parts := (ih hb).append ((expr_address_allotted c.toContext e).1 _ _ _ _ ht)
      have inner : Allotted (n + 1 + 1) (code ++ test ++ [.label (n + 1 + 1)]) _ :=
        .insert parts fun l => by
          simp only [count_append, count_label, count_nil]
          omega
      have both : Allotted (n + 1) (code ++ test ++ [.label (n + 1 + 1), .label (n + 1)]) _ :=
        .insert inner fun l => by
          simp only [count_append, count_label, count_nil]
          omega
      refine both.insert fun l => ?_
      simp only [count_append, count_label, count_block, count_nil, branch]
      omega
  | forLoop start e step body ihs ihb =>
      obtain ⟨first, top, test, _, code, _, last, hs, ht, hb, hl, rfl⟩ := composed_of_stmt h
      have parts := ((skippingOptional_allotted ht).append (ihb hb)).append (optional_allotted hl)
      have inner : Allotted (top + 1 + 1) (test ++ code ++ last ++ [.label (top + 1 + 1)]) _ :=
        .insert parts fun l => by
          simp only [count_append, count_label, count_nil]
          omega
      have both : Allotted (top + 1)
          (test ++ code ++ last ++ [.label (top + 1 + 1), .label (top + 1)]) _ :=
        .insert inner fun l => by
          simp only [count_append, count_label, count_nil]
          omega
      have loop : Allotted top
          ([.label top] ++ test ++ code ++ [.label (top + 1)] ++ last ++ goto top ++
            [.label (top + 1 + 1)]) _ :=
        .insert both fun l => by
          simp only [count_append, count_label, count_block, count_nil, goto]
          omega
      have whole := (optionalStmt_allotted (fun s hs {_ _ _ _} => ihs s hs) hs).append loop
      simpa only [List.append_assoc] using whole
  | breakLoop | continueLoop =>
      obtain ⟨rfl, l, -, rfl⟩ := composed_of_stmt h
      exact allotted_of_labels_eq_nil _ (Code.labels_block _)
  | returnValue value =>
      obtain ⟨code, ho, rfl⟩ := composed_of_stmt h
      simpa [Allotted, goto] using optional_allotted ho
  | empty =>
      obtain ⟨rfl, rfl⟩ := composed_of_stmt h
      exact allotted_of_labels_eq_nil _ rfl

/-! ### Functions -/

theorem spillParameters_labels {c : Context} {i : Nat} {taken : ArgumentRegisters}
    {tys : List CType} (h : spillParameters c i taken tys n = .ok (code, n')) :
    code.labels = [] ∧ n' = n := by
  induction tys generalizing i taken n code with
  | nil =>
      obtain ⟨rfl, rfl⟩ := pure_eq_ok.mp h
      exact ⟨rfl, rfl⟩
  | cons ty tys ih =>
      simp only [spillParameters] at h
      cases hr : taken.assign? (bankOf ty) with
      | none =>
          rw [hr] at h
          exact absurd h throw_ne_ok
      | some r =>
          rw [hr] at h
          simp only [bind_eq_ok, variableAddress_eq_ok, pure_eq_ok] at h
          obtain ⟨_, _, ⟨_, _, rfl, rfl⟩, others, _, ho, rfl, rfl⟩ := h
          obtain ⟨none, rfl⟩ := ih ho
          exact ⟨by rw [Code.labels_append, none, Code.labels_block]; rfl, rfl⟩

/-- The parts of the code of a function. -/
theorem function_eq_ok {layout : UnitLayout} {entry : Label} {f : Function}
    (h : function layout entry f n = .ok (code, n')) :
    ∃ c : FunctionContext, ∃ size spills body, c.layout = layout ∧ c.locals = f.locals ∧
      c.finish = n ∧ Code.labels spills = [] ∧ stmts c none f.body (n + 1) = .ok (body, n') ∧
      code = (.label entry :: prologue size) ++ (spills ++ (body ++ (literal 0 ++
        ([.label n] ++ epilogue)))) := by
  simp only [function, bind_eq_ok, newLabel_eq_ok, lift_eq_ok, pure_eq_ok] at h
  obtain ⟨_, _, ⟨rfl, rfl⟩, frame, _, ⟨_, rfl⟩, spills, _, hs, body, _, hb, rfl, rfl⟩ := h
  obtain ⟨none, rfl⟩ := spillParameters_labels hs
  exact ⟨_, frame.size, spills, body, rfl, rfl, rfl, none, hb, by simp only [List.append_assoc]⟩

theorem count_function {layout : UnitLayout} {entry n n' : Nat} {f : Function}
    (h : function layout entry f n = .ok (code, n')) (l : Nat) :
    n ≤ n' ∧ code.labels.count l =
      (if entry = l then 1 else 0) + if n ≤ l ∧ l < n' then 1 else 0 := by
  obtain ⟨c, size, spills, body, -, -, -, none, hb, rfl⟩ := function_eq_ok h
  have inner := stmts_allotted (fun _ _ {_ _ _ _} => stmt_allotted) hb
  have whole : Allotted n (body ++ [.label n]) n' := inner.insert fun l => by
    simp only [count_append, count_label, count_nil]
    omega
  have bound := whole.2 l
  refine ⟨whole.1, ?_⟩
  simp only [List.cons_append, count_append, count_label, count_nil, none, prologue, literal,
    epilogue, count_block, List.count_nil] at bound ⊢
  omega

/-! ### Units -/

theorem functions_cons_eq_ok {layout : UnitLayout} {entry : Label} {f : Function}
    {fs : List Function} (h : functions layout entry (f :: fs) n = .ok (code, n')) :
    ∃ first k others, function layout entry f n = .ok (first, k) ∧
      functions layout (entry + 1) fs k = .ok (others, n') ∧ code = first ++ others := by
  unfold functions at h
  cases hf : function layout entry f n with
  | error e =>
      simp only [StateT.run, hf] at h
      cases h
  | ok r =>
      obtain ⟨first, k⟩ := r
      simp only [StateT.run, hf] at h
      replace h : (functions layout (entry + 1) fs k >>= fun r => pure (first ++ r.1, r.2)) =
          .ok (code, n') := h
      cases ho : functions layout (entry + 1) fs k with
      | error e =>
          simp only [Bind.bind, Except.bind, ho] at h
          cases h
      | ok r =>
          simp only [Bind.bind, Except.bind, ho] at h
          cases h
          exact ⟨first, k, r.1, rfl, ho, rfl⟩

/-- The functions of a unit start at labels of their own, and all other labels are made. -/
theorem count_functions {layout : UnitLayout} {entry n n' : Nat} {fs : List Function}
    (h : functions layout entry fs n = .ok (code, n')) (entries : entry + fs.length ≤ n) (l : Nat) :
    n ≤ n' ∧ code.labels.count l = (if entry ≤ l ∧ l < entry + fs.length then 1 else 0) +
      if n ≤ l ∧ l < n' then 1 else 0 := by
  induction fs generalizing entry n code with
  | nil =>
      cases h
      refine ⟨Nat.le_refl _, ?_⟩
      rw [if_neg (by simp), if_neg (by omega)]
      rfl
  | cons f fs ih =>
      obtain ⟨first, k, others, hf, ho, rfl⟩ := functions_cons_eq_ok h
      obtain ⟨le, here⟩ := count_function hf l
      rw [List.length_cons] at entries
      obtain ⟨le', rest⟩ := ih ho (by omega)
      refine ⟨Nat.le_trans le le', ?_⟩
      rw [count_append, List.length_cons]
      split at here <;> split at here <;> split at rest <;> split at rest <;> split <;> split <;>
        omega

theorem functions_nodup {layout : UnitLayout} {entry n n' : Nat} {fs : List Function}
    (h : functions layout entry fs n = .ok (code, n')) (entries : entry + fs.length ≤ n) :
    code.labels.Nodup := by
  rw [List.nodup_iff_count]
  intro l
  have bound := (count_functions h entries l).2
  split at bound <;> split at bound <;> omega

/-- The code of each function is a part of the code of its unit. -/
theorem functions_split {layout : UnitLayout} {entry : Label} {fs : List Function} {f : Function}
    (h : functions layout entry fs n = .ok (code, n')) (member : f ∈ fs) :
    ∃ before part after e k k', code = before ++ (part ++ after) ∧
      function layout e f k = .ok (part, k') := by
  induction fs generalizing entry n code with
  | nil => cases member
  | cons g fs ih =>
      obtain ⟨first, k, others, hf, ho, rfl⟩ := functions_cons_eq_ok h
      rcases List.mem_cons.mp member with rfl | member
      · exact ⟨[], first, others, entry, n, k, rfl, hf⟩
      · obtain ⟨before, part, after, e, k, k', rfl, hp⟩ := ih ho member
        exact ⟨first ++ before, part, after, e, k, k', (List.append_assoc ..).symm, hp⟩

end Lowering
end LiveC
