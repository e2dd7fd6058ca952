import LiveC.Parser.Scope
import Mathlib.Data.List.Induction

/-!
Block scopes. What is done with names is a history: names are looked up and declared, blocks are
entered and left. The rule of block scopes speaks of the history alone: a look-up finds the
latest declaration in the innermost open scope that has one. The scopes that the parser keeps
follow this rule.
-/

namespace LiveC

/-- What is done with the names in scope. -/
inductive ScopeEvent where
  /-- A name is looked up. -/
  | use (name : String) (found : Option Binding)
  /-- A name is declared in the innermost scope. -/
  | declare (name : String) (b : Binding)
  | declareFile (name : String) (b : Binding)
  | enter
  | leave
  /-- Every block is left. -/
  | leaveAll

abbrev ScopeHistory := List ScopeEvent

namespace ScopeEvent

/-- How many blocks are open behind an event. -/
def depth (d : Nat) : ScopeEvent → Nat
  | enter => d + 1
  | leave => d - 1
  | leaveAll => 0
  | use .. | declare .. | declareFile .. => d

/-- An event declares a name in the scope at a level: that of the file is at level 0, and each
block is one level above the scope around it. -/
inductive Declares (name : String) (b : Binding) (d : Nat) : ScopeEvent → Nat → Prop
  | innermost : Declares name b d (.declare name b) d
  | file : Declares name b d (.declareFile name b) 0

theorem Declares.level_le {name : String} {b : Binding} {d level : Nat} {e : ScopeEvent}
    (h : e.Declares name b d level) : level ≤ e.depth d := by
  cases h with
  | innermost => exact Nat.le_refl d
  | file => exact Nat.zero_le d

end ScopeEvent

namespace ScopeHistory

variable {h : ScopeHistory} {e : ScopeEvent} {name : String} {b : Binding} {level place : Nat}

/-- How many blocks are open behind a history. -/
def depth (h : ScopeHistory) : Nat := h.foldl ScopeEvent.depth 0

@[simp] theorem depth_concat (h : ScopeHistory) (e : ScopeEvent) :
    depth (h ++ [e]) = e.depth (depth h) := by
  simp only [depth, List.foldl_append, List.foldl_cons, List.foldl_nil]

/-- A name is declared at a place of a history, in a scope that is open ever since. -/
structure Declares (h : ScopeHistory) (name : String) (b : Binding) (level place : Nat) : Prop where
  event : ∃ e, h[place]? = some e ∧ e.Declares name b (depth (h.take place)) level
  isOpen : ∀ k, place < k → k ≤ h.length → level ≤ depth (h.take k)

/-- What a look-up is to find: the latest declaration in the innermost open scope that has one. -/
def Resolves (h : ScopeHistory) (name : String) : Option Binding → Prop
  | some b => ∃ level place, Declares h name b level place ∧
      ∀ b' level' place', Declares h name b' level' place' →
        level' < level ∨ level' = level ∧ place' ≤ place
  | none => ∀ b level place, ¬Declares h name b level place

/-- The latest declaration of a name in the scope at a level. -/
def Latest (h : ScopeHistory) (name : String) (level : Nat) : Option Binding → Prop
  | some b => ∃ place, Declares h name b level place ∧
      ∀ b' place', Declares h name b' level place' → place' ≤ place
  | none => ∀ b place, ¬Declares h name b level place

namespace Declares

theorem lt_length (declares : Declares h name b level place) : place < h.length := by
  obtain ⟨e, found, -⟩ := declares.event
  exact (List.getElem?_eq_some_iff.mp found).1

theorem level_le_depth (declares : Declares h name b level place) : level ≤ depth h := by
  have still := declares.isOpen h.length declares.lt_length (Nat.le_refl _)
  rwa [List.take_length] at still

end Declares

theorem Declares.unique {b' : Binding} (declares : Declares h name b level place)
    (other : Declares h name b' level place) : b' = b := by
  obtain ⟨e, found, event⟩ := declares.event
  obtain ⟨e', found', event'⟩ := other.event
  cases found.symm.trans found'
  cases event <;> cases event' <;> rfl

/-- The rule leaves no choice. -/
theorem Resolves.unique {found found' : Option Binding} (resolves : Resolves h name found)
    (other : Resolves h name found') : found' = found := by
  cases found with
  | none =>
      cases found' with
      | none => rfl
      | some b' =>
          obtain ⟨level, place, declares, -⟩ := other
          exact absurd declares (resolves b' level place)
  | some b =>
      obtain ⟨level, place, declares, last⟩ := resolves
      cases found' with
      | none => exact absurd declares (other b level place)
      | some b' =>
          obtain ⟨level', place', declares', last'⟩ := other
          have le := last b' level' place' declares'
          have ge := last' b level place declares
          obtain rfl : level' = level := by omega
          obtain rfl : place' = place := by omega
          exact congrArg some (declares.unique declares')

/-- One more event leaves or closes scopes, or declares a name itself. -/
theorem declares_concat : Declares (h ++ [e]) name b level place ↔
    Declares h name b level place ∧ level ≤ e.depth (depth h) ∨
      place = h.length ∧ e.Declares name b (depth h) level := by
  constructor
  · intro declares
    have still := declares.level_le_depth
    rw [depth_concat] at still
    have bound : place < h.length + 1 := by simpa using declares.lt_length
    obtain ⟨e', found, event⟩ := declares.event
    obtain inside | rfl := Nat.lt_succ_iff_lt_or_eq.mp bound
    · refine .inl ⟨⟨⟨e', ?_, ?_⟩, fun k behind le => ?_⟩, still⟩
      · rwa [List.getElem?_append_left inside] at found
      · rwa [List.take_append_of_le_length (Nat.le_of_lt inside)] at event
      · have within := declares.isOpen k behind (by simp; omega)
        rwa [List.take_append_of_le_length le] at within
    · rw [List.getElem?_concat_length] at found
      cases found
      rw [List.take_left] at event
      exact .inr ⟨rfl, event⟩
  · rintro (⟨declares, still⟩ | ⟨rfl, event⟩)
    · have inside := declares.lt_length
      obtain ⟨e', found, event⟩ := declares.event
      refine ⟨⟨e', ?_, ?_⟩, fun k behind le => ?_⟩
      · rwa [List.getElem?_append_left inside]
      · rwa [List.take_append_of_le_length (Nat.le_of_lt inside)]
      · rw [List.length_append, List.length_singleton] at le
        obtain le | rfl := Nat.le_succ_iff.mp le
        · rw [List.take_append_of_le_length le]
          exact declares.isOpen k behind le
        · rw [List.take_of_length_le (by simp), depth_concat]
          exact still
    · refine ⟨⟨e, List.getElem?_concat_length, by rwa [List.take_left]⟩, fun k behind le => ?_⟩
      rw [List.take_of_length_le (by simp; omega), depth_concat]
      exact event.level_le

/-- An event that does not declare a name in a scope leaves its latest declaration there. -/
theorem Latest.concat {found : Option Binding} (latest : Latest h name level found)
    (still : level ≤ e.depth (depth h)) (other : ∀ b, ¬e.Declares name b (depth h) level) :
    Latest (h ++ [e]) name level found := by
  have same (b : Binding) (place : Nat) :
      Declares (h ++ [e]) name b level place ↔ Declares h name b level place := by
    simp only [declares_concat, still, and_true, other b, and_false, or_false]
  cases found with
  | some b =>
      obtain ⟨place, declares, last⟩ := latest
      exact ⟨place, (same b place).mpr declares, fun b' place' earlier =>
        last b' place' ((same b' place').mp earlier)⟩
  | none => exact fun b place declares => latest b place ((same b place).mp declares)

/-- What an event declares is the latest declaration in its scope. -/
theorem latest_of_declares (event : e.Declares name b (depth h) level) :
    Latest (h ++ [e]) name level (some b) := by
  refine ⟨h.length, declares_concat.mpr (.inr ⟨rfl, event⟩), fun b' place' earlier => ?_⟩
  have bound := earlier.lt_length
  rw [List.length_append] at bound
  exact Nat.le_of_lt_succ bound

/-- Nothing is declared in a scope that is not open. -/
theorem latest_of_depth_lt (h : ScopeHistory) (name : String) (above : depth h < level) :
    Latest h name level none :=
  fun _ _ declares => absurd declares.level_le_depth (Nat.not_le_of_lt above)

end ScopeHistory

namespace ScopeStack

open ScopeHistory

/-- The scopes behind an event. -/
def step (s : ScopeStack) : ScopeEvent → ScopeStack
  | .use _ _ => s
  | .declare name b => s.bind name b
  | .declareFile name b => s.bindFile name b
  | .enter => s.openBlock
  | .leave => s.closeBlock
  | .leaveAll => s.closeAll

/-- The scopes behind a history. -/
def after (s : ScopeStack) (h : ScopeHistory) : ScopeStack := h.foldl step s

/-- A look-up in the scopes finds what an event says. -/
def Agrees (s : ScopeStack) : ScopeEvent → Prop
  | .use name found => s.find? name = found
  | _ => True

/-- Every look-up of a history finds what it says. -/
def Answers (s : ScopeStack) : ScopeHistory → Prop
  | [] => True
  | e :: h => s.Agrees e ∧ (s.step e).Answers h

variable {s : ScopeStack} {h h' : ScopeHistory} {e : ScopeEvent} {name : String} {b : Binding}

@[simp] theorem after_nil (s : ScopeStack) : s.after [] = s := rfl

@[simp] theorem after_cons (s : ScopeStack) (e : ScopeEvent) (h : ScopeHistory) :
    s.after (e :: h) = (s.step e).after h := rfl

@[simp] theorem after_append (s : ScopeStack) (h h' : ScopeHistory) :
    s.after (h ++ h') = (s.after h).after h' := List.foldl_append

@[simp] theorem answers_nil (s : ScopeStack) : s.Answers [] := trivial

@[simp] theorem answers_cons : s.Answers (e :: h) ↔ s.Agrees e ∧ (s.step e).Answers h := Iff.rfl

@[simp] theorem answers_append : s.Answers (h ++ h') ↔ s.Answers h ∧ (s.after h).Answers h' := by
  induction h generalizing s with
  | nil => simp
  | cons e h ih => simp [ih, and_assoc]

/-! ### The rule -/

/-- The open scopes by level, from the file's inward. -/
def levels (s : ScopeStack) : List Scope := s.file :: s.blocks.reverse

theorem length_levels (s : ScopeStack) : s.levels.length = s.blocks.length + 1 := by
  simp [levels]

theorem levels_cons (file innermost : Scope) (outer : List Scope) :
    (ScopeStack.mk file (innermost :: outer)).levels =
      (ScopeStack.mk file outer).levels ++ [innermost] := by
  simp [levels]

theorem getElem?_concat_eq_some {scopes : List Scope} {last scope : Scope} {level : Nat}
    (h : (scopes ++ [last])[level]? = some scope) :
    scopes[level]? = some scope ∨ level = scopes.length ∧ scope = last := by
  have bound := (List.getElem?_eq_some_iff.mp h).1
  rw [List.length_append, List.length_singleton] at bound
  obtain inside | rfl := Nat.lt_succ_iff_lt_or_eq.mp bound
  · exact .inl (List.getElem?_append_left inside ▸ h)
  · rw [List.getElem?_concat_length] at h
    exact .inr ⟨rfl, (Option.some.inj h).symm⟩

theorem length_bind (s : ScopeStack) (name : String) (b : Binding) :
    (s.bind name b).blocks.length = s.blocks.length := by
  unfold ScopeStack.bind
  split
  case h_1 => rfl
  case h_2 blocks => simp [blocks]

theorem levels_bind {level : Nat} {scope : Scope}
    (here : (s.bind name b).levels[level]? = some scope) :
    ∃ old, s.levels[level]? = some old ∧
      scope = if level = s.blocks.length then (name, b) :: old else old := by
  obtain ⟨file, blocks⟩ := s
  cases blocks with
  | nil =>
      cases level with
      | zero => exact ⟨file, rfl, (Option.some.inj here).symm⟩
      | succ level => cases here
  | cons innermost outer =>
      change (ScopeStack.mk file (((name, b) :: innermost) :: outer)).levels[level]? = _ at here
      rw [levels_cons] at here ⊢
      obtain old | ⟨rfl, rfl⟩ := getElem?_concat_eq_some here
      · have bound := (List.getElem?_eq_some_iff.mp old).1
        refine ⟨scope, List.getElem?_append_left bound ▸ old, ?_⟩
        rw [length_levels] at bound
        exact (if_neg (Nat.ne_of_lt bound)).symm
      · exact ⟨innermost, List.getElem?_concat_length, (if_pos (length_levels _)).symm⟩

/-- The scopes hold the latest declarations of a history. -/
structure Records (s : ScopeStack) (h : ScopeHistory) : Prop where
  depth : s.blocks.length = depth h
  latest : ∀ level scope, s.levels[level]? = some scope →
    ∀ name, Latest h name level (scope.lookup name)

theorem lookup_cons (scope : Scope) (name : String) (b : Binding) (other : String) :
    List.lookup other ((name, b) :: scope) =
      if other = name then some b else scope.lookup other := by
  by_cases same : other = name
  · simp [same]
  · simp [same, List.lookup_cons, beq_eq_false_iff_ne.mpr same]

/-- One more declaration in the scope at a level. -/
theorem Records.declare {t : ScopeStack} {target : Nat} (records : s.Records h)
    (blocks : t.blocks.length = s.blocks.length) (keeps : e.depth (ScopeHistory.depth h) =
      ScopeHistory.depth h)
    (event : ∀ other b' level, e.Declares other b' (ScopeHistory.depth h) level ↔
      other = name ∧ b' = b ∧ level = target)
    (levels : ∀ (level : Nat) (scope : Scope), t.levels[level]? = some scope →
      ∃ old, s.levels[level]? = some old ∧
      scope = if level = target then (name, b) :: old else old) :
    t.Records (h ++ [e]) := by
  refine ⟨by rw [blocks, records.depth, depth_concat, keeps], fun level scope here other => ?_⟩
  obtain ⟨old, before, rfl⟩ := levels level scope here
  have below : level ≤ e.depth (ScopeHistory.depth h) := by
    have bound := (List.getElem?_eq_some_iff.mp before).1
    rw [length_levels, records.depth] at bound
    omega
  by_cases declared : level = target ∧ other = name
  · obtain ⟨rfl, rfl⟩ := declared
    rw [if_pos rfl, lookup_cons, if_pos rfl]
    exact latest_of_declares ((event _ _ _).mpr ⟨rfl, rfl, rfl⟩)
  · have same : (if level = target then (name, b) :: old else old).lookup other =
        old.lookup other := by
      split
      case isTrue here => rw [lookup_cons, if_neg fun same => declared ⟨here, same⟩]
      case isFalse => rfl
    rw [same]
    exact (records.latest level old before other).concat below fun b' declares =>
      have parts := (event _ _ _).mp declares
      declared ⟨parts.2.2, parts.1⟩

/-- What is left of the scopes keeps its declarations. -/
theorem Records.leave {t : ScopeStack} (records : s.Records h)
    (depth : t.blocks.length = e.depth (ScopeHistory.depth h))
    (event : ∀ other b level, ¬e.Declares other b (ScopeHistory.depth h) level)
    (levels : ∀ (level : Nat) (scope : Scope), t.levels[level]? = some scope →
      s.levels[level]? = some scope) :
    t.Records (h ++ [e]) := by
  refine ⟨depth.trans (depth_concat h e).symm, fun level scope here other => ?_⟩
  have bound := (List.getElem?_eq_some_iff.mp here).1
  rw [length_levels, depth] at bound
  exact (records.latest level scope (levels level scope here) other).concat
    (Nat.le_of_lt_succ bound) fun b => event other b level

theorem Records.step (records : s.Records h) (e : ScopeEvent) :
    (s.step e).Records (h ++ [e]) := by
  cases e with
  | use name found => exact records.leave records.depth (fun _ _ _ => nofun) fun _ _ here => here
  | declare name b =>
      refine records.declare (length_bind s name b) rfl (fun other b' level => ?_)
        fun level scope => levels_bind
      rw [records.depth]
      exact ⟨by rintro ⟨⟩; exact ⟨rfl, rfl, rfl⟩, by rintro ⟨rfl, rfl, rfl⟩; exact .innermost⟩
  | declareFile name b =>
      have event (other : String) (b' : Binding) (level : Nat) :
          (ScopeEvent.declareFile name b).Declares other b' (ScopeHistory.depth h) level ↔
            other = name ∧ b' = b ∧ level = 0 :=
        ⟨by rintro ⟨⟩; exact ⟨rfl, rfl, rfl⟩, by rintro ⟨rfl, rfl, rfl⟩; exact .file⟩
      refine records.declare rfl rfl event ?_
      rintro (_ | level) scope here
      · exact ⟨s.file, rfl, (Option.some.inj here).symm⟩
      · exact ⟨scope, here, rfl⟩
  | enter =>
      refine ⟨by simp [ScopeStack.step, openBlock, ScopeEvent.depth, records.depth], ?_⟩
      intro level scope here name
      change (ScopeStack.mk s.file ([] :: s.blocks)).levels[level]? = some scope at here
      rw [levels_cons] at here
      obtain old | ⟨rfl, rfl⟩ := getElem?_concat_eq_some here
      · have bound := (List.getElem?_eq_some_iff.mp old).1
        rw [length_levels, records.depth] at bound
        exact (records.latest level scope old name).concat (Nat.le_of_lt bound) fun _ => nofun
      · refine (latest_of_depth_lt h name ?_).concat ?_ fun _ => nofun <;>
          simp [length_levels, records.depth, ScopeEvent.depth]
  | leave =>
      refine records.leave ?_ (fun _ _ _ => nofun) fun level scope here => ?_
      · simp [ScopeStack.step, closeBlock, ScopeEvent.depth, records.depth]
      · cases s with
        | mk file blocks =>
            cases blocks with
            | nil => exact here
            | cons innermost outer =>
                rw [levels_cons]
                exact List.getElem?_append_left (List.getElem?_eq_some_iff.mp here).1 ▸ here
  | leaveAll =>
      refine records.leave rfl (fun _ _ _ => nofun) ?_
      rintro (_ | level) scope here
      · exact here
      · cases here

theorem records_empty : Records {} [] := by
  refine ⟨rfl, ?_⟩
  rintro (_ | level) scope here name
  · cases here
    exact fun b place declares => absurd declares.lt_length (Nat.not_lt_zero place)
  · cases here

theorem records_after (h : ScopeHistory) : (after {} h).Records h := by
  induction h using List.reverseRecOn with
  | nil => exact records_empty
  | append_singleton h e ih =>
      rw [after_append]
      exact ih.step e

/-- What is found in scopes that record a history. -/
theorem Records.resolves (records : s.Records h) (name : String) :
    h.Resolves name (s.find? name) := by
  have levels : s.blocks ++ [s.file] = s.levels.reverse := by simp [ScopeStack.levels]
  have scope? {b : Binding} {level place : Nat} (declares : h.Declares name b level place) :
      ∃ scope, s.levels[level]? = some scope := by
    have bound := declares.level_le_depth
    rw [← records.depth] at bound
    exact ⟨_, List.getElem?_eq_getElem ((length_levels s).symm ▸ Nat.lt_succ_of_le bound)⟩
  cases found : s.find? name with
  | none =>
      intro b level place declares
      obtain ⟨scope, here⟩ := scope? declares
      have missing := List.findSome?_eq_none_iff.mp found scope (by
        rw [levels, List.mem_reverse]
        exact List.mem_of_getElem? here)
      have latest := records.latest level scope here name
      rw [missing] at latest
      exact latest b place declares
  | some b =>
      obtain ⟨inner, scope, outer, scopes, here, missing⟩ := List.findSome?_eq_some_iff.mp found
      have outward : s.levels = outer.reverse ++ scope :: inner.reverse := by
        rw [← List.reverse_reverse s.levels, ← levels, scopes]
        simp
      have latest := records.latest outer.length scope (by simp [outward]) name
      rw [here] at latest
      obtain ⟨place, declares, last⟩ := latest
      refine ⟨outer.length, place, declares, fun b' level' place' other => ?_⟩
      obtain below | rfl | above := Nat.lt_trichotomy level' outer.length
      · exact .inl below
      · exact .inr ⟨rfl, last b' place' other⟩
      · -- An inner scope that has a declaration would have been found first.
        obtain ⟨scope', there⟩ := scope? other
        have isInner : scope' ∈ inner := by
          obtain ⟨k, rfl⟩ := Nat.exists_eq_add_of_lt above
          rw [outward, List.getElem?_append_right (by simp; omega), List.length_reverse,
            Nat.add_assoc, Nat.add_sub_cancel_left, List.getElem?_cons_succ] at there
          exact List.mem_reverse.mp (List.mem_of_getElem? there)
        have latest := records.latest level' scope' there name
        rw [missing scope' isInner] at latest
        exact absurd other (latest b' place')

/-- Every look-up of a history that starts without names follows the rule. -/
theorem resolves_of_answers {front back : ScopeHistory} {found : Option Binding}
    (answers : ({} : ScopeStack).Answers (front ++ .use name found :: back)) :
    front.Resolves name found := by
  rw [answers_append, answers_cons] at answers
  have resolves := (records_after front).resolves name
  rwa [show (after {} front).find? name = found from answers.2.1] at resolves

end ScopeStack

/-!
### Nested scopes

Where every block that is entered is left again, the scopes around are as before: a name that was
found is found again as what it was. A name that was found nowhere may have become that of a
function of the file.
-/

namespace ScopeHistory

/-- Names are looked up. One that is found nowhere may become that of a function of the file. -/
inductive LooksUp : ScopeHistory → Prop
  | nil : LooksUp []
  | append {h h' : ScopeHistory} : LooksUp h → LooksUp h' → LooksUp (h ++ h')
  | use (name : String) (found : Option Binding) : LooksUp [.use name found]
  | implicit (name : String) : LooksUp [.use name none, .declareFile name (.global name)]

/-- Every block that is entered is left again. Whether names are also declared outside of these
blocks is said in front. -/
inductive Nests : Bool → ScopeHistory → Prop
  | reads {D : Bool} {h : ScopeHistory} : LooksUp h → Nests D h
  | append {D : Bool} {h h' : ScopeHistory} : Nests D h → Nests D h' → Nests D (h ++ h')
  | declare (name : String) (b : Binding) : Nests true [.declare name b]
  | block {D : Bool} {h : ScopeHistory} : Nests true h → Nests D (.enter :: h ++ [.leave])

/-- Names are declared in the file. The blocks of a function are left behind its body, or where an
error in it is recovered from. -/
inductive AtFile : ScopeHistory → Prop
  | reads {h : ScopeHistory} : LooksUp h → AtFile h
  | append {h h' : ScopeHistory} : AtFile h → AtFile h' → AtFile (h ++ h')
  | declare (name : String) (b : Binding) : AtFile [.declareFile name b]
  | function {h : ScopeHistory} : Nests true h → AtFile (.enter :: h ++ [.leave])
  | broken {h : ScopeHistory} : Nests true h → AtFile (.enter :: h ++ [.leaveAll])
  | leaveAll : AtFile [.leaveAll]

theorem Nests.declares {D : Bool} {h : ScopeHistory} (nests : Nests D h) : Nests true h := by
  induction nests with
  | reads reads => exact .reads reads
  | append _ _ ih ih' => exact ih.append ih'
  | declare name b => exact .declare name b
  | block inner => exact .block inner

end ScopeHistory

namespace ScopeStack

/-- What becomes of what a name is found to be. -/
def Keeps (name : String) (old new : Option Binding) : Prop :=
  new = old ∨ old = none ∧ new = some (.global name)

theorem Keeps.trans {name : String} {a b c : Option Binding} (h : Keeps name a b)
    (k : Keeps name b c) : Keeps name a c := by
  obtain rfl | ⟨missing, declared⟩ := h
  · exact k
  · obtain rfl | ⟨none, -⟩ := k
    · exact .inr ⟨missing, declared⟩
    · exact absurd (none.symm.trans declared) nofun

/-- All but a number of inner scopes are as before. -/
structure Restores (inner : Nat) (s t : ScopeStack) : Prop where
  length : t.blocks.length = s.blocks.length
  outer : t.blocks.drop inner = s.blocks.drop inner
  file (name : String) : Keeps name (s.file.lookup name) (t.file.lookup name)

variable {s t u : ScopeStack} {inner : Nat}

theorem find?_eq_or (s : ScopeStack) (name : String) :
    s.find? name = (s.blocks.findSome? fun scope => scope.lookup name).or (s.file.lookup name) := by
  unfold ScopeStack.find?
  rw [List.findSome?_append]
  cases here : s.file.lookup name <;> simp [here]

namespace Restores

theorem refl (inner : Nat) (s : ScopeStack) : Restores inner s s := ⟨rfl, rfl, fun _ => .inl rfl⟩

theorem trans (h : Restores inner s t) (k : Restores inner t u) : Restores inner s u :=
  ⟨k.length.trans h.length, k.outer.trans h.outer, fun name => (h.file name).trans (k.file name)⟩

/-- A declaration in the innermost scope. -/
theorem bind (name : String) (b : Binding) (pos : 0 < inner) (le : inner ≤ s.blocks.length) :
    Restores inner s (s.bind name b) := by
  obtain ⟨k, rfl⟩ := Nat.exists_eq_add_of_lt pos
  obtain ⟨file, blocks⟩ := s
  cases blocks with
  | nil => simp at le
  | cons innermost outer => exact ⟨rfl, by simp [ScopeStack.bind], fun _ => .inl rfl⟩

/-- A name that is found nowhere becomes that of a function. -/
theorem implicit {name : String} (missing : s.find? name = none) :
    Restores inner s (s.bindFile name (.global name)) := by
  refine ⟨rfl, rfl, fun other => ?_⟩
  rw [find?_eq_or, Option.or_eq_none_iff] at missing
  simp only [bindFile, lookup_cons]
  split
  case isTrue same =>
    subst same
    exact .inr ⟨missing.2, rfl⟩
  case isFalse => exact .inl rfl

/-- The scope of a block is left. -/
theorem block (h : Restores (inner + 1) s.openBlock t) : Restores inner s t.closeBlock := by
  refine ⟨?_, ?_, h.file⟩
  · simp [closeBlock, h.length, openBlock]
  · have outer := h.outer
    rw [openBlock, List.drop_succ_cons] at outer
    rw [closeBlock, List.drop_tail]
    exact outer

/-- Where every scope is as before, names are what they were. -/
theorem find? (h : Restores 0 s t) (name : String) : Keeps name (s.find? name) (t.find? name) := by
  have blocks : t.blocks = s.blocks := h.outer
  rw [find?_eq_or, find?_eq_or, blocks]
  cases s.blocks.findSome? fun scope => scope.lookup name with
  | some b => exact .inl rfl
  | none => exact h.file name

end Restores

open ScopeHistory

variable {h : ScopeHistory}

theorem restores_of_reads (reads : LooksUp h) (answers : s.Answers h) :
    Restores inner s (s.after h) := by
  induction reads generalizing s with
  | nil => exact .refl inner s
  | append _ _ ih ih' =>
      rw [answers_append] at answers
      rw [after_append]
      exact (ih answers.1).trans (ih' answers.2)
  | use => exact .refl inner s
  | implicit name => exact .implicit answers.1

/-- Blocks that are entered and left restore the scopes around them. -/
theorem restores_of_nests {D : Bool} (nests : Nests D h) (answers : s.Answers h)
    (pos : D = true → 0 < inner) (le : inner ≤ s.blocks.length) :
    Restores inner s (s.after h) := by
  induction nests generalizing s inner with
  | reads reads => exact restores_of_reads reads answers
  | append _ _ ih ih' =>
      rw [answers_append] at answers
      rw [after_append]
      have first := ih answers.1 pos le
      exact first.trans (ih' answers.2 pos (first.length ▸ le))
  | declare name b => exact .bind name b (pos rfl) le
  | @block D h _ ih =>
      simp only [List.cons_append, answers_cons, answers_append] at answers
      simp only [List.cons_append, after_cons, after_append, after_nil]
      exact (ih answers.2.1 (fun _ => Nat.succ_pos inner) (Nat.succ_le_succ le)).block

end ScopeStack

end LiveC
