import LiveC.Proofs.GeneratedCode

/-!
What generated code refers to. Only calls of named functions, names and string literals refer to
anything, and the code of a function has a reference for each that its statements mention, in the
order of their evaluation.
-/

namespace LiveC

/-- What code refers to: the label of a function that it calls, or the contents of a linked field. -/
inductive CodeRef (ρ : Type) where
  | call (l : Label)
  | linked (f : Field) (ref : ρ)

def Instruction.callee? {τ : Type} : Instruction τ → Option τ
  | call l => some l
  | _ => none

def Piece.reference? {ρ : Type} : Piece ρ → Option (CodeRef ρ)
  | label _ => none
  | instr i => i.callee?.map .call
  | linked f ref => some (.linked f ref)

/-- Linked fields of code hold what they may. -/
def Code.Links (L : Field → Reference → Prop) (c : UnitCode) : Prop :=
  ∀ f r, .linked f r ∈ c → L f r

namespace Code

variable {ρ : Type} {c d : Code ρ}

def references (c : Code ρ) : List (CodeRef ρ) := c.filterMap Piece.reference?

@[simp] theorem references_nil : references ([] : Code ρ) = [] := rfl

@[simp] theorem references_append : (c ++ d).references = c.references ++ d.references :=
  List.filterMap_append

@[simp] theorem references_label (l : Label) : references (.label l :: c) = c.references := rfl

@[simp] theorem references_instr (i : Instruction Label) :
    references (.instr i :: c) = (i.callee?.map .call).toList ++ c.references := by
  cases called : i.callee? <;> simp [references, Piece.reference?, called]

@[simp] theorem references_linked (f : Field) (ref : ρ) :
    references (.linked f ref :: c) = .linked f ref :: c.references := rfl

theorem mem_references {f : Field} {ref : ρ} : .linked f ref ∈ c.references ↔ .linked f ref ∈ c := by
  induction c with
  | nil => simp
  | cons p c ih =>
      cases p with
      | label | linked => simp [ih]
      | instr i => cases called : i.callee? <;> simp [called, ih]

@[simp] theorem references_block (is : List (Instruction Label)) :
    (Lowering.block is).references = (is.filterMap Instruction.callee?).map .call := by
  induction is with
  | nil => rfl
  | cons i is ih =>
      change references (.instr i :: Lowering.block is) = _
      cases called : i.callee? <;> simp [called, ih]

theorem references_of_plain {c : UnitCode} (plain : c.all Piece.isPlain = true) :
    c.references = [] := by
  refine List.filterMap_eq_nil_iff.mpr fun p member => ?_
  have here := List.all_eq_true.mp plain p member
  cases p with
  | label => rfl
  | linked => cases here
  | instr i =>
      cases i with
      | call => cases here
      | _ => rfl

end Code

/-! ### Mentions -/

/-- What a program refers to: a function that is called, a name whose address or value is taken,
and whether as that of a function, or a string literal of the unit. -/
inductive Mention where
  | call (name : String)
  | address (name : String) (isFunction : Bool)
  | string (id : Nat)
  deriving DecidableEq, Repr

mutual

/-- What an expression mentions, in the order in which it is evaluated. -/
def Expr.mentions : Expr → List Mention
  | .int .. | .float .. | .var .. => []
  | .str _ id => [.string id]
  | .global n name => [.address name n.ty.isFunction]
  | .unary _ _ e | .step _ _ _ e | .cast _ e | .deref _ e | .addrOf _ e => e.mentions
  | .binary _ _ l r | .compare _ _ l r | .logic _ _ l r | .assign _ l r | .opAssign _ _ _ l r
  | .comma _ l r => l.mentions ++ r.mentions
  | .cond _ c t f => c.mentions ++ t.mentions ++ f.mentions
  | .call _ name _ args => Expr.mentionsAll args ++ [.call name]
  | .callPointer _ _ callee args => Expr.mentionsAll args ++ callee.mentions

def Expr.mentionsAll : List Expr → List Mention
  | [] => []
  | e :: es => e.mentions ++ Expr.mentionsAll es

end

mutual

/-- What a statement mentions, in the order of its code. -/
def Stmt.mentions : Stmt → List Mention
  | .expr e => e.mentions
  | .init _ _ stores => Expr.mentionsAll (stores.map InitStore.value)
  | .block body => Stmt.mentionsAll body
  | .ite e t f => e.mentions ++ t.mentions ++ Stmt.mentionsOptional f
  | .while e body => e.mentions ++ body.mentions
  | .doWhile body e => body.mentions ++ e.mentions
  | .for start e step body => Stmt.mentionsOptional start ++ Expr.mentionsAll e.toList ++
      body.mentions ++ Expr.mentionsAll step.toList
  | .return value => Expr.mentionsAll value.toList
  | .break | .continue | .empty => []

def Stmt.mentionsAll : List Stmt → List Mention
  | [] => []
  | s :: rest => s.mentions ++ Stmt.mentionsAll rest

def Stmt.mentionsOptional : Option Stmt → List Mention
  | none => []
  | some s => s.mentions

end

def Function.mentions (f : Function) : List Mention := Stmt.mentionsAll f.body

theorem Expr.mentionsAll_eq (es : List Expr) : Expr.mentionsAll es = es.flatMap Expr.mentions := by
  induction es with
  | nil => rfl
  | cons e es ih => rw [mentionsAll, ih, List.flatMap_cons]

namespace Stmt

theorem mentionsAll_eq (body : List Stmt) : Stmt.mentionsAll body = body.flatMap Stmt.mentions := by
  induction body with
  | nil => rfl
  | cons s body ih => rw [mentionsAll, ih, List.flatMap_cons]

theorem mentionsOptional_eq (s : Option Stmt) :
    Stmt.mentionsOptional s = s.toList.flatMap Stmt.mentions := by
  cases s with
  | none => rfl
  | some s => exact (List.flatMap_singleton ..).symm

/-- What a statement mentions is mentioned by an expression of it or by a part of it. -/
theorem mem_mentions {s : Stmt} {m : Mention} (h : m ∈ s.mentions) :
    (∃ e ∈ s.exprs, m ∈ e.mentions) ∨ ∃ t ∈ s.subs, m ∈ t.mentions := by
  cases s <;> simp only [Stmt.mentions, Expr.mentionsAll_eq, mentionsAll_eq, mentionsOptional_eq,
    List.mem_append, List.mem_flatMap] at h <;> simp only [exprs, subs] <;> grind

end Stmt

namespace UnitLayout

theorem target_of_imported {layout : UnitLayout} {name other : String}
    (h : layout.target name = .imported other) :
    layout.entries.lookup name = none ∧ layout.data.lookup name = none ∧ name = other := by
  unfold target at h
  split at h
  case h_3 noEntry noPlace =>
    cases h
    exact ⟨noEntry, noPlace, rfl⟩
  case h_1 | h_2 => cases h

theorem entry_of_target {layout : UnitLayout} {name : String} {l : Label}
    (h : layout.target name = .entry l) : layout.entries.lookup name = some l := by
  unfold target at h
  split at h
  case h_1 own =>
    cases h
    exact own
  case h_2 | h_3 => cases h

theorem place_of_target {layout : UnitLayout} {name : String} {id offset : Nat}
    (h : layout.target name = .place id offset) : layout.data.lookup name = some (id, offset) := by
  unfold target at h
  split at h
  case h_2 own =>
    cases h
    exact own
  case h_1 | h_3 => cases h

/-- What a mention is as a reference of code. -/
inductive Resolves (layout : UnitLayout) : Mention → CodeRef Reference → Prop
  | call {name : String} {l : Label} (own : layout.entries.lookup name = some l) :
      Resolves layout (.call name) (.call l)
  | callImported {name : String} (noEntry : layout.entries.lookup name = none) :
      Resolves layout (.call name) (.linked .call ⟨.branch32, .imported name, some .function⟩)
  | entry {name : String} {isFunction : Bool} {l : Label} (own : layout.target name = .entry l) :
      Resolves layout (.address name isFunction) (.linked (.address .rax) ⟨.abs64, .entry l, none⟩)
  | place {name : String} {isFunction : Bool} {id offset : Nat}
      (own : layout.target name = .place id offset) :
      Resolves layout (.address name isFunction)
        (.linked (.address .rax) ⟨.abs64, .place id offset, none⟩)
  | imported {name : String} {isFunction : Bool} (isImported : layout.target name = .imported name) :
      Resolves layout (.address name isFunction) (.linked (.address .rax)
        ⟨.abs64, .imported name, some (if isFunction then .function else .data)⟩)
  | string {id sectionId offset : Nat} (found : layout.strings[id]? = some (sectionId, offset)) :
      Resolves layout (.string id) (.linked (.address .rax) ⟨.abs64, .place sectionId offset, none⟩)

/-- Code refers to what is mentioned, in this order. -/
def Realises (layout : UnitLayout) (ms : List Mention) (c : UnitCode) : Prop :=
  List.Forall₂ layout.Resolves ms c.references

end UnitLayout

namespace Lowering

open Code UnitLayout

variable {c : Context} {depth n n' : Nat} {code : UnitCode} {layout : UnitLayout}
  {ms ms' : List Mention} {a b : UnitCode}

theorem realises_append (ha : layout.Realises ms a) (hb : layout.Realises ms' b) :
    layout.Realises (ms ++ ms') (a ++ b) := by
  rw [Realises, references_append]
  exact List.rel_append ha hb

/-- Code that refers to nothing. -/
theorem realises_nil (h : code.references = []) : layout.Realises [] code := by
  rw [Realises, h]
  exact .nil

theorem realises_congr (h : layout.Realises ms a) (same : b.references = a.references) :
    layout.Realises ms b := by
  rwa [Realises, same]

/-! ### Operators -/

@[simp] theorem references_pushValue (ty : CType) : (pushValue ty).references = [] := by
  unfold pushValue
  split <;> rfl

@[simp] theorem references_loadValue (ty : CType) (a : Address) : (loadValue ty a).references = [] :=
  references_of_plain (plain_loadValue ty a)

theorem references_storeValue {ty : CType} {a : Address} (run : storeValue ty a n = .ok (code, n')) :
    code.references = [] := references_of_plain (plain_storeValue run)

@[simp] theorem references_branch (condition : Condition) (l : Label) :
    (branch condition l).references = [] := rfl

@[simp] theorem references_goto (l : Label) : (goto l).references = [] := rfl

@[simp] theorem calls_extension (r : Gp) (t : IntType) :
    (extension r t).filterMap Instruction.callee? = [] := by
  unfold extension
  split <;> rfl

@[simp] theorem references_operands (l r : UnitCode) (lTy rTy : CType) :
    (operands l r lTy rTy).references = l.references ++ r.references := by
  unfold operands
  split <;> simp [List.filterMap_cons, Instruction.callee?]

theorem references_conversion {source target : CType}
    (run : conversion source target n = .ok (code, n')) : code.references = [] := by
  unfold conversion at run
  split at run
  case isTrue =>
    obtain ⟨rfl, -⟩ := pure_eq_ok.mp run
    rfl
  case isFalse =>
    cases hs : source.isDouble <;> cases ht : target.isDouble <;> simp only [hs, ht] at run
    case false.true =>
      split at run
      · simp only [bind_eq_ok, newLabel_eq_ok, pure_eq_ok] at run
        obtain ⟨big, _, -, done, _, -, rfl, -⟩ := run
        rfl
      · obtain ⟨rfl, -⟩ := pure_eq_ok.mp run
        rfl
    all_goals
      obtain ⟨rfl, -⟩ := pure_eq_ok.mp run
      simp [List.filterMap_cons, Instruction.callee?]

theorem references_compound {op : BinaryOp} {opTy targetTy valueTy : CType} {target value : UnitCode}
    (run : compound op opTy targetTy valueTy target value n = .ok (code, n')) :
    code.references = target.references ++ value.references := by
  simp only [compound, bind_eq_ok, pure_eq_ok] at run
  obtain ⟨widen, _, hw, compute, _, hc, narrow, _, hn, store, _, hs, rfl, -⟩ := run
  have compute := references_of_plain (plain_operation hc)
  have popped : (block (.pop .rcx :: if opTy.isDouble then [.movToXmm .xmm1 .rcx] else [])).references =
      [] := by
    split <;> rfl
  simp only [references_append, references_block, references_pushValue, references_loadValue,
    references_conversion hw, compute, references_conversion hn, references_storeValue hs, popped]
  simp [List.filterMap_cons, Instruction.callee?]

theorem calls_popArgument (r : Register) : (popArgument r).filterMap Instruction.callee? = [] := by
  cases r <;> rfl

theorem references_calling {signature : Signature} {tys : List CType} {call : UnitCode}
    (run : calling depth signature tys call n = .ok (code, n')) : code.references = call.references := by
  unfold calling at run
  cases assigned : ArgumentRegisters.assignAll? {} (tys.map bankOf) with
  | none =>
      rw [assigned] at run
      exact absurd run throw_ne_ok
  | some r =>
      rw [assigned] at run
      obtain ⟨rfl, -⟩ := pure_eq_ok.mp run
      have arguments : (r.1.reverse.flatMap popArgument).filterMap Instruction.callee? = [] := by
        simp [List.filterMap_flatMap, calls_popArgument]
      simp only [references_append, references_block, List.filterMap_append, arguments]
      split <;> split <;> split <;> simp [List.filterMap_cons, Instruction.callee?]

/-! ### Expressions -/

theorem realises_globalAddress (c : Context) (name : String) (ty : CType) :
    c.layout.Realises [.address name ty.isFunction] (c.globalAddress name ty) := by
  unfold Context.globalAddress
  cases target : c.layout.target name with
  | entry l => exact .cons (.entry target) .nil
  | place id offset => exact .cons (.place target) .nil
  | imported other =>
      obtain ⟨-, -, rfl⟩ := target_of_imported target
      exact .cons (.imported target) .nil

theorem realises_stringAddress {id : Nat} (run : c.stringAddress id n = .ok (code, n')) :
    c.layout.Realises [.string id] code := by
  obtain ⟨place, found, rfl, -⟩ := stringAddress_eq_ok.mp run
  exact .cons (.string found) .nil

theorem realises_callNamed (c : Context) (name : String) :
    c.layout.Realises [.call name] (c.callNamed name) := by
  unfold Context.callNamed
  split
  case h_1 l own => exact .cons (.call own) .nil
  case h_2 noEntry => exact .cons (.callImported noEntry) .nil

theorem realises_arguments {args : List Expr}
    (each : ∀ e ∈ args, ∀ depth n code n', expr c depth e n = .ok (code, n') →
      c.layout.Realises e.mentions code)
    (run : arguments c depth args n = .ok (code, n')) :
    c.layout.Realises (Expr.mentionsAll args) code := by
  induction args generalizing depth n code with
  | nil =>
      obtain ⟨rfl, -⟩ := pure_eq_ok.mp run
      exact .nil
  | cons e es ih =>
      simp only [arguments, bind_eq_ok, pure_eq_ok] at run
      obtain ⟨first, _, hf, others, _, ho, rfl, rfl⟩ := run
      obtain ⟨here, each⟩ := List.forall_mem_cons.mp each
      exact realises_congr (realises_append (here _ _ _ _ hf) (ih each ho)) (by simp)

/-- The code of an expression refers to what the expression mentions. -/
theorem realises_expr_address (c : Context) (e : Expr) :
    (∀ depth n code n', expr c depth e n = .ok (code, n') → c.layout.Realises e.mentions code) ∧
    (∀ depth n code n', address c depth e n = .ok (code, n') →
      c.layout.Realises e.mentions code) := by
  induction e with
  | int | float =>
      refine ⟨fun depth n code n' run => ?_, fun _ _ _ _ run => absurd run (address_ne_ok rfl)⟩
      obtain ⟨rfl, -⟩ := pure_eq_ok.mp run
      refine realises_nil ?_
      simp [references_of_plain (plain_literal _), List.filterMap_cons, Instruction.callee?]
  | str m id =>
      exact ⟨fun _ _ _ _ => realises_stringAddress, fun _ _ _ _ => realises_stringAddress⟩
  | var m id =>
      refine ⟨fun depth n code n' run => ?_, fun depth n code n' run => ?_⟩ <;>
      · simp only [expr, address, bind_eq_ok, variableAddress_eq_ok, pure_eq_ok] at run
        obtain ⟨_, _, -, rfl, -⟩ := run
        first | exact realises_nil (references_loadValue _ _) | exact .nil
  | global m name =>
      have field := realises_globalAddress c name m.ty
      refine ⟨fun depth n code n' run => ?_, fun depth n code n' run => ?_⟩ <;>
      · obtain ⟨rfl, -⟩ := pure_eq_ok.mp run
        exact realises_congr field (by simp)
  | deref m e ih =>
      refine ⟨fun depth n code n' run => ?_, fun depth n code n' run => ih.1 _ _ _ _ run⟩
      simp only [expr, bind_eq_ok, pure_eq_ok] at run
      obtain ⟨code, _, he, rfl, -⟩ := run
      exact realises_congr (ih.1 _ _ _ _ he) (by simp)
  | addrOf m e ih =>
      exact ⟨fun depth n code n' run => ih.2 _ _ _ _ run,
        fun _ _ _ _ run => absurd run (address_ne_ok rfl)⟩
  | unary m op e ih =>
      refine ⟨fun depth n code n' run => ?_, fun _ _ _ _ run => absurd run (address_ne_ok rfl)⟩
      simp only [expr, bind_eq_ok, pure_eq_ok] at run
      obtain ⟨code, _, he, rfl, -⟩ := run
      exact realises_congr (ih.1 _ _ _ _ he) (by simp [references_of_plain (plain_unaryOp _ _)])
  | binary m op l r ihl ihr =>
      refine ⟨fun depth n code n' run => ?_, fun _ _ _ _ run => absurd run (address_ne_ok rfl)⟩
      simp only [expr, bind_eq_ok, pure_eq_ok] at run
      obtain ⟨left, _, hl, right, _, hr, compute, _, hc, rfl, -⟩ := run
      exact realises_congr (realises_append (ihl.1 _ _ _ _ hl) (ihr.1 _ _ _ _ hr))
        (by simp [references_of_plain (plain_operation hc)])
  | compare m op l r ihl ihr =>
      refine ⟨fun depth n code n' run => ?_, fun _ _ _ _ run => absurd run (address_ne_ok rfl)⟩
      simp only [expr, bind_eq_ok, pure_eq_ok] at run
      obtain ⟨left, _, hl, right, _, hr, rfl, -⟩ := run
      exact realises_congr (realises_append (ihl.1 _ _ _ _ hl) (ihr.1 _ _ _ _ hr))
        (by simp [references_of_plain (plain_comparison _ _)])
  | logic m op l r ihl ihr =>
      refine ⟨fun depth n code n' run => ?_, fun _ _ _ _ run => absurd run (address_ne_ok rfl)⟩
      simp only [expr, bind_eq_ok, pure_eq_ok] at run
      obtain ⟨stop, _, -, left, _, hl, right, _, hr, rfl, -⟩ := run
      exact realises_congr (realises_append (ihl.1 _ _ _ _ hl) (ihr.1 _ _ _ _ hr)) (by simp)
  | assign m target value iht ihv =>
      refine ⟨fun depth n code n' run => ?_, fun _ _ _ _ run => absurd run (address_ne_ok rfl)⟩
      by_cases hvar : ∃ k id, target = .var k id
      · obtain ⟨k, id, rfl⟩ := hvar
        simp only [expr, bind_eq_ok, pure_eq_ok] at run
        obtain ⟨value, _, run, _, _, -, store, _, hs, rfl, -⟩ := run
        exact realises_congr (ihv.1 _ _ _ _ run) (by simp [references_storeValue hs])
      · rw [expr_assign fun k id e => hvar ⟨k, id, e⟩] at run
        simp only [bind_eq_ok, pure_eq_ok] at run
        obtain ⟨place, _, hp, value, _, run, store, _, hs, rfl, -⟩ := run
        exact realises_congr (realises_append (iht.2 _ _ _ _ hp) (ihv.1 _ _ _ _ run))
          (by simp [references_storeValue hs, List.filterMap_cons, Instruction.callee?])
  | opAssign m op ty target value iht ihv =>
      refine ⟨fun depth n code n' run => ?_, fun _ _ _ _ run => absurd run (address_ne_ok rfl)⟩
      simp only [expr, bind_eq_ok] at run
      obtain ⟨place, _, hp, value, _, hv, run⟩ := run
      exact realises_congr (realises_append (iht.2 _ _ _ _ hp) (ihv.1 _ _ _ _ hv))
        (by simp [references_compound run])
  | step m delta before target iht =>
      refine ⟨fun depth n code n' run => ?_, fun _ _ _ _ run => absurd run (address_ne_ok rfl)⟩
      simp only [expr, bind_eq_ok, pure_eq_ok] at run
      obtain ⟨place, _, hp, code, _, hc, rfl, -⟩ := run
      exact realises_congr (iht.2 _ _ _ _ hp) (by simp [references_of_plain (plain_stepping hc)])
  | cond m e t f ihe iht ihf =>
      refine ⟨fun depth n code n' run => ?_, fun _ _ _ _ run => absurd run (address_ne_ok rfl)⟩
      simp only [expr, bind_eq_ok, pure_eq_ok] at run
      obtain ⟨other, _, -, stop, _, -, test, _, he, yes, _, ht, no, _, hf, rfl, -⟩ := run
      have tests := realises_append (ihe.1 _ _ _ _ he) (iht.1 _ _ _ _ ht)
      exact realises_congr (realises_append tests (ihf.1 _ _ _ _ hf))
        (by simp [List.filterMap_cons, Instruction.callee?])
  | cast m e ih =>
      refine ⟨fun depth n code n' run => ?_, fun _ _ _ _ run => absurd run (address_ne_ok rfl)⟩
      simp only [expr, bind_eq_ok, pure_eq_ok] at run
      obtain ⟨code, _, he, convert, _, hc, rfl, -⟩ := run
      exact realises_congr (ih.1 _ _ _ _ he) (by simp [references_conversion hc])
  | call m name s args ih =>
      refine ⟨fun depth n code n' run => ?_, fun _ _ _ _ run => absurd run (address_ne_ok rfl)⟩
      simp only [expr, bind_eq_ok, pure_eq_ok] at run
      obtain ⟨pushed, _, hp, code, _, hc, rfl, -⟩ := run
      have values := realises_arguments (fun a member => (ih a member).1) hp
      exact realises_congr (realises_append values (realises_callNamed c name))
        (by simp [references_calling hc])
  | callPointer m s callee args ihc ih =>
      refine ⟨fun depth n code n' run => ?_, fun _ _ _ _ run => absurd run (address_ne_ok rfl)⟩
      simp only [expr, bind_eq_ok, pure_eq_ok] at run
      obtain ⟨pushed, _, hp, pointer, _, hf, code, _, hc, rfl, -⟩ := run
      have values := realises_arguments (fun a member => (ih a member).1) hp
      exact realises_congr (realises_append values (ihc.1 _ _ _ _ hf))
        (by simp [references_calling hc, List.filterMap_cons, Instruction.callee?])
  | comma m l r ihl ihr =>
      refine ⟨fun depth n code n' run => ?_, fun _ _ _ _ run => absurd run (address_ne_ok rfl)⟩
      simp only [expr, bind_eq_ok, pure_eq_ok] at run
      obtain ⟨left, _, hl, right, _, hr, rfl, -⟩ := run
      exact realises_append (ihl.1 _ _ _ _ hl) (ihr.1 _ _ _ _ hr)

theorem realises_expr {e : Expr} (run : expr c depth e n = .ok (code, n')) :
    c.layout.Realises e.mentions code := (realises_expr_address c e).1 _ _ _ _ run

/-! ### Statements -/

theorem realises_initStores {offset : BitVec 32} {stores : List InitStore}
    (run : initStores c offset stores n = .ok (code, n')) :
    c.layout.Realises (Expr.mentionsAll (stores.map InitStore.value)) code := by
  induction stores generalizing n code with
  | nil =>
      obtain ⟨rfl, -⟩ := pure_eq_ok.mp run
      exact .nil
  | cons s stores ih =>
      simp only [initStores, bind_eq_ok, pure_eq_ok] at run
      obtain ⟨value, _, hv, store, _, hs, others, _, ho, rfl, rfl⟩ := run
      exact realises_congr (realises_append (realises_expr hv) (ih ho))
        (by simp [references_storeValue hs])

theorem realises_skipping {e : Expr} {l : Label} (run : skipping c e l n = .ok (code, n')) :
    c.layout.Realises e.mentions code := by
  simp only [skipping, bind_eq_ok, pure_eq_ok] at run
  obtain ⟨test, _, he, rfl, -⟩ := run
  exact realises_congr (realises_expr he) (by simp)

theorem realises_all_singleton {e : Expr} (h : layout.Realises e.mentions code) :
    layout.Realises (Expr.mentionsAll [e]) code :=
  realises_congr (realises_append h (realises_nil references_nil)) (by simp)

theorem realises_skippingOptional {e : Option Expr} {l : Label}
    (run : skippingOptional c l e n = .ok (code, n')) :
    c.layout.Realises (Expr.mentionsAll e.toList) code := by
  cases e with
  | some e => exact realises_all_singleton (realises_skipping run)
  | none =>
      obtain ⟨rfl, -⟩ := pure_eq_ok.mp run
      exact .nil

theorem realises_optional {e : Option Expr} (run : optional c e n = .ok (code, n')) :
    c.layout.Realises (Expr.mentionsAll e.toList) code := by
  cases e with
  | some e => exact realises_all_singleton (realises_expr run)
  | none =>
      obtain ⟨rfl, -⟩ := pure_eq_ok.mp run
      exact .nil

variable {fc : FunctionContext} {loop : Option LoopLabels}

theorem realises_stmts {body : List Stmt}
    (each : ∀ s ∈ body, ∀ {loop n n' code}, stmt fc loop s n = .ok (code, n') →
      fc.layout.Realises s.mentions code)
    (run : stmts fc loop body n = .ok (code, n')) :
    fc.layout.Realises (Stmt.mentionsAll body) code := by
  induction body generalizing n code with
  | nil =>
      obtain ⟨rfl, -⟩ := pure_eq_ok.mp run
      exact .nil
  | cons s body ih =>
      obtain ⟨first, _, others, hs, ho, rfl⟩ := stmts_cons_eq_ok.mp run
      exact realises_append (each s (.head _) hs) (ih (fun s member => each s (.tail _ member)) ho)

theorem realises_optionalStmt {s : Option Stmt}
    (each : ∀ t ∈ s, ∀ {loop n n' code}, stmt fc loop t n = .ok (code, n') →
      fc.layout.Realises t.mentions code)
    (run : optionalStmt fc loop s n = .ok (code, n')) :
    fc.layout.Realises (Stmt.mentionsOptional s) code := by
  cases s with
  | some s => exact each s rfl run
  | none =>
      obtain ⟨rfl, -⟩ := pure_eq_ok.mp run
      exact .nil

/-- The code of a statement refers to what the statement mentions. -/
theorem realises_stmt {s : Stmt} (run : stmt fc loop s n = .ok (code, n')) :
    fc.layout.Realises s.mentions code := by
  induction s generalizing loop n n' code with
  | expr e => exact realises_expr run
  | init id zero stores =>
      obtain ⟨offset, others, -, ho, rfl⟩ := composed_of_stmt run
      refine realises_congr (realises_initStores ho) ?_
      split <;> simp [references_of_plain (plain_zeroing _ _)]
  | block body ih => exact realises_stmts (fun s member {_ _ _ _} => ih s member) run
  | ite e t f iht ihf =>
      cases f with
      | none =>
          obtain ⟨test, _, code, hs, hy, rfl⟩ := composed_of_stmt run
          have parts := realises_append (realises_skipping hs) (iht hy)
          exact realises_congr (realises_append parts (realises_nil references_nil)) (by simp)
      | some f =>
          obtain ⟨test, _, code, stop, no, hs, hy, hn, rfl⟩ := composed_of_stmt run
          have parts := realises_append (realises_skipping hs) (iht hy)
          exact realises_congr (realises_append parts (ihf f rfl hn)) (by simp)
  | whileLoop e body ih =>
      obtain ⟨test, _, code, hs, hb, rfl⟩ := composed_of_stmt run
      exact realises_congr (realises_append (realises_skipping hs) (ih hb)) (by simp)
  | doWhileLoop body e ih =>
      obtain ⟨code, _, test, hb, ht, rfl⟩ := composed_of_stmt run
      exact realises_congr (realises_append (ih hb) (realises_expr ht)) (by simp)
  | forLoop start e step body ihs ihb =>
      obtain ⟨first, top, test, _, code, _, last, hs, ht, hb, hl, rfl⟩ := composed_of_stmt run
      have start := realises_optionalStmt (fun s member {_ _ _ _} => ihs s member) hs
      have front := realises_append (realises_append start (realises_skippingOptional ht)) (ihb hb)
      exact realises_congr (realises_append front (realises_optional hl)) (by simp)
  | breakLoop | continueLoop =>
      obtain ⟨-, l, rfl, rfl⟩ := composed_of_stmt run
      exact .nil
  | returnValue value =>
      obtain ⟨code, ho, rfl⟩ := composed_of_stmt run
      exact realises_congr (realises_optional ho) (by simp)
  | empty =>
      obtain ⟨-, rfl⟩ := composed_of_stmt run
      exact .nil

/-! ### Functions -/

variable {entry : Label}

/-- The code of a function refers to what its body mentions. -/
theorem realises_function {f : Function} (run : function layout entry f n = .ok (code, n')) :
    layout.Realises f.mentions code := by
  simp only [function, bind_eq_ok, newLabel_eq_ok, lift_eq_ok, pure_eq_ok] at run
  obtain ⟨_, _, ⟨rfl, rfl⟩, frame, _, ⟨_, rfl⟩, spills, _, hs, body, _, hb, rfl, -⟩ := run
  have body := realises_stmts (fun s member {_ _ _ _} run => realises_stmt run) hb
  have opening : (prologue frame.size).references = [] := by
    unfold prologue
    split <;> simp [List.filterMap_cons, Instruction.callee?]
  refine realises_congr body ?_
  simp [opening, references_of_plain (plain_spillParameters hs), references_of_plain (plain_literal _),
    epilogue, List.filterMap_cons, Instruction.callee?]

/-- The code of functions refers to what their bodies mention. -/
theorem realises_functions {fs : List Function}
    (run : functions layout entry fs n = .ok (code, n')) :
    layout.Realises (fs.flatMap Function.mentions) code := by
  induction fs generalizing entry n code with
  | nil =>
      cases run
      exact .nil
  | cons f fs ih =>
      obtain ⟨first, k, others, hf, ho, rfl⟩ := functions_cons_eq_ok run
      exact realises_append (realises_function hf) (ih ho)

end Lowering
end LiveC
