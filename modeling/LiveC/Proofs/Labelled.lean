import LiveC.Machine.Effect
import LiveC.Lowering.Reference

/-!
Runs of code with labels. A place in a program is the code that is still to be run, always
a part at its end; a jump goes to its label. Elements are either those
of generated code or larger ones that are taken as atomic, so a run is defined over any
elements that say which label they are and what they do.
-/

namespace LiveC

/-- What the elements of some kind of code do. -/
structure Language (α : Type) where
  label? : α → Option Label
  effect : α → Machine → Except Fault (Machine × Flow Label)

/-- A place in a program and the machine that reached it. -/
structure Point (α : Type) where
  code : List α
  machine : Machine

/-- Why there is no further step. -/
inductive Halt where
  | finished
  | fault (f : Fault)
  | unknownLabel (l : Label)
  /-- Control leaves the code: a call or a return. -/
  | leaves (flow : Flow Label)
  deriving DecidableEq, Repr

namespace Language

variable {α : Type} (L : Language α)

/-- The code from a label on. -/
def seek? (l : Label) : List α → Option (List α)
  | [] => none
  | a :: rest => if L.label? a = some l then some (a :: rest) else seek? l rest

theorem seek?_cons (l : Label) (a : α) (rest : List α) :
    L.seek? l (a :: rest) = if L.label? a = some l then some (a :: rest) else L.seek? l rest := rfl

/-- The labels that occur. -/
def labels (code : List α) : List Label := code.filterMap L.label?

@[simp] theorem labels_nil : L.labels [] = [] := rfl

@[simp] theorem labels_append (code others : List α) :
    L.labels (code ++ others) = L.labels code ++ L.labels others :=
  List.filterMap_append

variable {L} in
theorem labels_cons_none {a : α} {code : List α} (h : L.label? a = none) :
    L.labels (a :: code) = L.labels code := List.filterMap_cons_none h

variable {L} in
theorem labels_cons_some {a : α} {l : Label} {code : List α} (h : L.label? a = some l) :
    L.labels (a :: code) = l :: L.labels code := List.filterMap_cons_some h

variable (program : List α)

def step (p : Point α) : Except Halt (Point α) :=
  match p.code with
  | [] => .error .finished
  | a :: rest =>
    match L.effect a p.machine with
    | .error f => .error (.fault f)
    | .ok (m, .next) => .ok ⟨rest, m⟩
    | .ok (m, .branch l) =>
      match L.seek? l program with
      | some code => .ok ⟨code, m⟩
      | none => .error (.unknownLabel l)
    | .ok (_, flow) => .error (.leaves flow)

/-- A run from one point to another, with the elements that it goes through. -/
inductive Runs : Point α → List α → Point α → Prop where
  | done (p : Point α) : Runs p [] p
  | step {a : α} {rest : List α} {m : Machine} {q r : Point α} {run : List α}
      (first : L.step program ⟨a :: rest, m⟩ = .ok q) (others : Runs q run r) :
      Runs ⟨a :: rest, m⟩ (a :: run) r

/-- Some run leads from one point to the other. -/
def Reaches (p q : Point α) : Prop := ∃ run, L.Runs program p run q

/-- A run from the point ends with a halt. -/
def Halts (p : Point α) (halt : Halt) : Prop :=
  ∃ q, L.Reaches program p q ∧ L.step program q = .error halt

variable {L program}

theorem Runs.trans {p q r : Point α} {run others : List α} (h : L.Runs program p run q)
    (hr : L.Runs program q others r) : L.Runs program p (run ++ others) r := by
  induction h with
  | done p => exact hr
  | step first _ ih => exact .step first (ih hr)

theorem Reaches.refl (p : Point α) : L.Reaches program p p := ⟨[], .done p⟩

theorem Reaches.trans {p q r : Point α} (h : L.Reaches program p q)
    (hr : L.Reaches program q r) : L.Reaches program p r := by
  obtain ⟨_, h⟩ := h
  obtain ⟨_, hr⟩ := hr
  exact ⟨_, h.trans hr⟩

theorem Halts.of_reaches {p q : Point α} {halt : Halt} (h : L.Reaches program p q)
    (hq : L.Halts program q halt) : L.Halts program p halt := by
  obtain ⟨r, hr, last⟩ := hq
  exact ⟨r, h.trans hr, last⟩

/-- What a step can do. -/
theorem step_cases {a : α} {rest : List α} {m : Machine} {q : Point α}
    (h : L.step program ⟨a :: rest, m⟩ = .ok q) :
    (∃ m', L.effect a m = .ok (m', .next) ∧ q = ⟨rest, m'⟩) ∨
      ∃ m' l code, L.effect a m = .ok (m', .branch l) ∧ L.seek? l program = some code ∧
        q = ⟨code, m'⟩ := by
  simp only [step] at h
  cases he : L.effect a m with
  | error f =>
      rw [he] at h
      cases h
  | ok r =>
      obtain ⟨m', flow⟩ := r
      rw [he] at h
      cases flow with
      | next =>
          cases h
          exact .inl ⟨m', rfl, rfl⟩
      | branch l =>
          cases hl : L.seek? l program with
          | none =>
              simp only [hl] at h
              cases h
          | some code =>
              simp only [hl] at h
              cases h
              exact .inr ⟨m', l, code, rfl, hl, rfl⟩
      | call | jumpTo | callTo | jumpStored => cases h

theorem step_next {a : α} {rest : List α} {m m' : Machine}
    (h : L.effect a m = .ok (m', .next)) : L.step program ⟨a :: rest, m⟩ = .ok ⟨rest, m'⟩ := by
  simp only [step, h]

theorem step_branch {a : α} {rest code : List α} {m m' : Machine} {l : Label}
    (h : L.effect a m = .ok (m', .branch l)) (hl : L.seek? l program = some code) :
    L.step program ⟨a :: rest, m⟩ = .ok ⟨code, m'⟩ := by
  simp only [step, h, hl]

/-- Goes through an element that hands control to the next one. -/
theorem reaches_next {a : α} {rest : List α} {m m' : Machine}
    (h : L.effect a m = .ok (m', .next)) : L.Reaches program ⟨a :: rest, m⟩ ⟨rest, m'⟩ :=
  ⟨[a], .step (step_next h) (.done _)⟩

theorem reaches_branch {a : α} {rest code : List α} {m m' : Machine} {l : Label}
    (h : L.effect a m = .ok (m', .branch l)) (hl : L.seek? l program = some code) :
    L.Reaches program ⟨a :: rest, m⟩ ⟨code, m'⟩ :=
  ⟨[a], .step (step_branch h hl) (.done _)⟩

theorem step_fault {a : α} {rest : List α} {m : Machine} {f : Fault}
    (h : L.effect a m = .error f) : L.step program ⟨a :: rest, m⟩ = .error (.fault f) := by
  simp only [step, h]

theorem halts_fault {a : α} {rest : List α} {m : Machine} {f : Fault}
    (h : L.effect a m = .error f) : L.Halts program ⟨a :: rest, m⟩ (.fault f) :=
  ⟨_, .refl _, step_fault h⟩

/-- Of two runs from one point the shorter one is the start of the longer one. -/
theorem Runs.isPrefix {p q r : Point α} {run others : List α} (h : L.Runs program p run q)
    (hr : L.Runs program p others r) (le : run.length ≤ others.length) : run <+: others := by
  induction h generalizing others with
  | done p => exact List.nil_prefix
  | step first _ ih =>
      cases hr with
      | done => simp at le
      | step first' rest =>
          obtain rfl := Except.ok.inj (first.symm.trans first')
          exact List.cons_prefix_cons.mpr ⟨rfl, ih rest (by simpa using le)⟩

/-- Every run is the start of one behind which there is no further step. -/
theorem Runs.isPrefix_of_halt {p q r : Point α} {run others : List α} {halt : Halt}
    (h : L.Runs program p run q) (hr : L.Runs program p others r)
    (last : L.step program r = .error halt) : run <+: others := by
  induction hr generalizing run with
  | done r =>
      cases h with
      | done => exact List.prefix_rfl
      | step first _ => cases first.symm.trans last
  | step first _ ih =>
      cases h with
      | done => exact List.nil_prefix
      | step first' rest =>
          obtain rfl := Except.ok.inj (first.symm.trans first')
          exact List.cons_prefix_cons.mpr ⟨rfl, ih rest last⟩

/-- There is only one way to halt. -/
theorem Halts.unique {p : Point α} {halt halt' : Halt} (h : L.Halts program p halt)
    (h' : L.Halts program p halt') : halt = halt' := by
  obtain ⟨q, ⟨run, runs⟩, last⟩ := h
  obtain ⟨r, ⟨run', runs'⟩, last'⟩ := h'
  induction runs generalizing run' with
  | done p =>
      cases runs' with
      | done => exact Except.error.inj (last.symm.trans last')
      | step first _ => cases first.symm.trans last
  | step first _ ih =>
      cases runs' with
      | done => cases first.symm.trans last'
      | step first' others =>
          obtain rfl := Except.ok.inj (first.symm.trans first')
          exact ih last _ others

/-! ### Placement -/

variable (L program)

/-- The labels of a part of the program lead into it; `rest` is what follows the part. -/
def Placed : List α → List α → Prop
  | [], _ => True
  | a :: code, rest =>
      (∀ l, L.label? a = some l → L.seek? l program = some (a :: (code ++ rest))) ∧ Placed code rest

variable {L program}

theorem placed_append {code others rest : List α} :
    L.Placed program (code ++ others) rest ↔
      L.Placed program code (others ++ rest) ∧ L.Placed program others rest := by
  induction code with
  | nil => simp [Placed]
  | cons a code ih => simp only [List.cons_append, Placed, ih, List.append_assoc, and_assoc]

theorem seek?_suffix {l : Label} {code : List α} (h : L.seek? l program = some code) :
    code <:+ program := by
  induction program with
  | nil => cases h
  | cons a rest ih =>
      rw [seek?_cons] at h
      split at h
      · exact Option.some.inj h ▸ List.suffix_rfl
      · exact (ih h).trans (List.suffix_cons a rest)

theorem mem_labels_of_seek? {l : Label} {code : List α} (h : L.seek? l program = some code) :
    l ∈ L.labels program := by
  induction program with
  | nil => cases h
  | cons a rest ih =>
      rw [seek?_cons] at h
      split at h
      case isTrue here =>
        rw [labels_cons_some here]
        exact List.mem_cons_self
      case isFalse =>
        rw [labels, List.filterMap_cons]
        split
        · exact ih h
        · exact List.mem_cons_of_mem _ (ih h)

theorem seek?_append {l : Label} {before code : List α} (h : l ∉ L.labels before) :
    L.seek? l (before ++ code) = L.seek? l code := by
  induction before with
  | nil => rfl
  | cons a before ih =>
      cases ha : L.label? a with
      | none =>
          rw [labels_cons_none ha] at h
          rw [List.cons_append, seek?_cons, ha, if_neg nofun, ih h]
      | some k =>
          rw [labels_cons_some ha, List.mem_cons, not_or] at h
          rw [List.cons_append, seek?_cons, ha, if_neg (by simpa using Ne.symm h.1), ih h.2]

/-- Code whose labels are distinct and do not occur in front of it is placed. -/
theorem placed_of_nodup {before code rest : List α} (distinct : (L.labels code).Nodup)
    (fresh : ∀ l ∈ L.labels code, l ∉ L.labels before) :
    L.Placed (before ++ (code ++ rest)) code rest := by
  induction code generalizing before with
  | nil => trivial
  | cons a code ih =>
      cases ha : L.label? a with
      | none =>
          rw [labels_cons_none ha] at distinct fresh
          refine ⟨fun l hl => absurd (ha.symm.trans hl) nofun, ?_⟩
          rw [List.cons_append, List.append_cons before a]
          exact ih distinct (by simpa [labels_cons_none ha] using fresh)
      | some l =>
          rw [labels_cons_some ha] at distinct fresh
          obtain ⟨absent, distinct⟩ := List.nodup_cons.mp distinct
          refine ⟨?_, ?_⟩
          · intro k hk
            obtain rfl := Option.some.inj (ha.symm.trans hk)
            rw [seek?_append (fresh l List.mem_cons_self), List.cons_append, seek?_cons, if_pos ha]
          · rw [List.cons_append, List.append_cons before a]
            refine ih distinct fun k hk => ?_
            simp only [labels_append, labels_cons_some ha, labels_nil, List.mem_append,
              List.mem_singleton, not_or]
            exact ⟨fresh k (List.mem_cons_of_mem _ hk), fun e => absent (e ▸ hk)⟩

/-- Every part of a program with distinct labels is placed. -/
theorem placed_of_program_nodup {before code rest : List α}
    (distinct : (L.labels (before ++ (code ++ rest))).Nodup) :
    L.Placed (before ++ (code ++ rest)) code rest := by
  simp only [labels_append, List.nodup_append] at distinct
  obtain ⟨-, ⟨inner, -, -⟩, apart⟩ := distinct
  exact placed_of_nodup inner fun l hl hb =>
    apart l hb l (List.mem_append_left _ hl) rfl

end Language
end LiveC
