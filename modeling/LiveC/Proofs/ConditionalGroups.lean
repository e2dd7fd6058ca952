import Mathlib.Data.List.Forall2
import LiveC.Proofs.DirectiveLines

/-!
The groups that are open behind any lines. However directives follow each other, at most one branch
of a group has been active, and the flags of the innermost group are those of its latest branch.

Conditional groups read as a tree. A passage of a source is a list of lines of text, of
definitions and of groups, each a first branch with its condition and further branches. Its
reading takes of each group the first branch whose condition holds. The run over the lines keeps
a stack of flags instead; the flags of the innermost group decide what the run does next.
-/

namespace LiveC

open PreprocState

/-- The flags of the branches of each open group so far, after a directive: the innermost group
and the latest branch first. A branch begins only where no `#else` stands before it. -/
def PreprocState.follow (st : PreprocState) (d : Directive) (flags : List (List Bool)) :
    List (List Bool) :=
  let now := (st.directive d.text d.loc).1.active
  if d.name = "if" ∨ d.name = "ifdef" ∨ d.name = "ifndef" then [now] :: flags
  else if d.name = "elif" ∨ d.name = "else" then
    if st.conditionals.head?.any (!·.seenElse) then flags.modifyHead (now :: ·) else flags
  else if d.name = "endif" then flags.tail
  else flags

/-- The flags of the branches of each open group behind lines that follow each other. -/
def PreprocState.branches (st : PreprocState) (loc : Location) (flags : List (List Bool)) :
    List String → List (List Bool)
  | [] => flags
  | line :: lines =>
    let flags := match Directive.ofLine? line loc with
      | some d => st.follow d flags
      | none => flags
    (st.line line loc).1.branches (loc.behindLine line) flags lines

/-- Each open group knows whether the text around it is active. -/
def ParentsAgree : List Conditional → Prop
  | [] => True
  | top :: outer =>
    top.parentActive = (outer.head?.map Conditional.active).getD true ∧ ParentsAgree outer

/-- The flags of a group so far are those of its branches: the latest is the current one, at most
one was active, and none as long as one may still be taken. -/
structure FollowsGroup (c : Conditional) (branches : List Bool) : Prop where
  latest : branches.head? = some c.active
  once : branches.count true ≤ 1
  untaken : c.parentActive = true → c.taken = false → branches.count true = 0

/-- What becomes of the flags of a group when its next branch begins: the branch is active only
where none was before, and a branch that was active is marked. -/
structure Conditional.Begins (top c : Conditional) : Prop where
  parent : c.parentActive = top.parentActive
  first : c.active = true → top.parentActive = true ∧ top.taken = false
  marked : c.active = true → c.taken = true
  kept : top.taken = true → c.taken = true

theorem FollowsGroup.next {top c : Conditional} {branches : List Bool}
    (h : FollowsGroup top branches) (begins : top.Begins c) :
    FollowsGroup c (c.active :: branches) where
  latest := rfl
  once := by
    cases active : c.active with
    | false => exact h.once
    | true =>
        obtain ⟨parent, untaken⟩ := begins.first active
        simp [h.untaken parent untaken]
  untaken parent untaken := by
    have inactive : c.active = false :=
      Bool.eq_false_iff.mpr fun active => by cases (begins.marked active).symm.trans untaken
    have none : top.taken = false :=
      Bool.eq_false_iff.mpr fun taken => by cases (begins.kept taken).symm.trans untaken
    rw [inactive, List.count_cons_of_ne (by decide), h.untaken (begins.parent ▸ parent) none]

theorem FollowsGroup.first (st : PreprocState) (value : Bool) :
    FollowsGroup { parentActive := st.active, active := st.active && value, taken := value }
      [st.active && value] where
  latest := rfl
  once := List.count_le_length
  untaken _ untaken := by
    obtain rfl : value = false := untaken
    rw [Bool.and_false]
    rfl

namespace PreprocState

theorem elif_begins {st : PreprocState} {top : Conditional} {outer : List Conditional}
    (conditionals : st.conditionals = top :: outer) (noElse : top.seenElse = false)
    (rest : List Char) (loc restLoc : Location) :
    ∃ c, (st.elif rest loc restLoc).1.conditionals = c :: outer ∧ top.Begins c := by
  rw [elif, conditionals]
  dsimp only
  rw [if_neg (by simp [noElse])]
  split
  case isTrue mayTake =>
    rw [Bool.and_eq_true, Bool.not_eq_true'] at mayTake
    exact ⟨_, rfl, rfl, fun _ => mayTake, id, fun taken => by cases mayTake.2.symm.trans taken⟩
  case isFalse =>
    exact ⟨_, rfl, rfl, fun active => (by cases active), fun active => (by cases active), id⟩

theorem elseBranch_begins {st : PreprocState} {top : Conditional} {outer : List Conditional}
    (conditionals : st.conditionals = top :: outer) (noElse : top.seenElse = false)
    (loc : Location) :
    ∃ c, (st.elseBranch loc).1.conditionals = c :: outer ∧ top.Begins c := by
  rw [elseBranch, conditionals]
  dsimp only
  rw [if_neg (by simp [noElse])]
  refine ⟨_, rfl, rfl, fun active => ?_, fun _ => rfl, fun _ => rfl⟩
  rwa [Bool.and_eq_true, Bool.not_eq_true'] at active

theorem elif_stays {st : PreprocState} (h : ∀ top ∈ st.conditionals.head?, top.seenElse = true)
    (rest : List Char) (loc restLoc : Location) : (st.elif rest loc restLoc).1 = st := by
  unfold elif
  split
  case h_1 => rfl
  case h_2 top outer conditionals =>
    rw [if_pos (h top (by rw [conditionals]; rfl))]

theorem elseBranch_stays {st : PreprocState}
    (h : ∀ top ∈ st.conditionals.head?, top.seenElse = true) (loc : Location) :
    (st.elseBranch loc).1 = st := by
  unfold elseBranch
  split
  case h_1 => rfl
  case h_2 top outer conditionals =>
    rw [if_pos (h top (by rw [conditionals]; rfl))]

theorem endif_conditionals (st : PreprocState) (loc : Location) :
    (st.endif loc).1.conditionals = st.conditionals.tail := by
  unfold endif
  split <;> simp_all

/-- Every other directive leaves the open groups alone. -/
theorem directive_conditionals (st : PreprocState) {d : Directive}
    (noOpen : ¬(d.name = "if" ∨ d.name = "ifdef" ∨ d.name = "ifndef"))
    (noBranch : ¬(d.name = "elif" ∨ d.name = "else")) (noEnd : d.name ≠ "endif") :
    (st.directive d.text d.loc).1.conditionals = st.conditionals := by
  rw [not_or, not_or] at noOpen
  rw [not_or] at noBranch
  simp only [directive_eq, beq_iff_eq, noOpen, noBranch, noEnd, if_false]
  have defined : (st.define d.operand d.operandLoc).1.conditionals = st.conditionals := by
    rw [define_macros]
  repeat' split
  all_goals first | exact defined | rfl

/-- A directive with one of these names opens a group. -/
theorem directive_opens (st : PreprocState) {d : Directive}
    (name : d.name = "if" ∨ d.name = "ifdef" ∨ d.name = "ifndef") :
    ∃ value, (st.directive d.text d.loc).1 = st.openGroup value := by
  rw [directive_eq]
  rcases name with name | name | name
  · rw [name]
    show ∃ value, (st.ifCondition _ _).1 = _
    rw [ifCondition]
    split <;> exact ⟨_, rfl⟩
  · rw [name]
    exact ⟨_, rfl⟩
  · rw [name]
    exact ⟨_, rfl⟩

/-- A directive with one of these names begins a branch of the innermost group, unless `#else`
stands before it. -/
theorem directive_begins {st : PreprocState} {d : Directive}
    (name : d.name = "elif" ∨ d.name = "else") :
    (∀ top outer, st.conditionals = top :: outer → top.seenElse = false →
      ∃ c, (st.directive d.text d.loc).1.conditionals = c :: outer ∧ top.Begins c) ∧
    ((∀ top ∈ st.conditionals.head?, top.seenElse = true) →
      (st.directive d.text d.loc).1 = st) := by
  rw [directive_eq]
  rcases name with name | name
  · rw [name]
    exact ⟨fun _ _ conditionals noElse => elif_begins conditionals noElse _ _ _,
      fun stays => elif_stays stays _ _ _⟩
  · rw [name]
    exact ⟨fun _ _ conditionals noElse => elseBranch_begins conditionals noElse _,
      fun stays => elseBranch_stays stays _⟩

end PreprocState

theorem follow_directive {st : PreprocState} {flags : List (List Bool)}
    (groups : List.Forall₂ FollowsGroup st.conditionals flags)
    (parents : ParentsAgree st.conditionals) (d : Directive) :
    List.Forall₂ FollowsGroup (st.directive d.text d.loc).1.conditionals (st.follow d flags) ∧
      ParentsAgree (st.directive d.text d.loc).1.conditionals := by
  unfold PreprocState.follow
  dsimp only
  by_cases opens : d.name = "if" ∨ d.name = "ifdef" ∨ d.name = "ifndef"
  · obtain ⟨value, opened⟩ := st.directive_opens opens
    rw [if_pos opens, opened]
    exact ⟨.cons (.first st value) groups, rfl, parents⟩
  rw [if_neg opens]
  by_cases branch : d.name = "elif" ∨ d.name = "else"
  · obtain ⟨begins, stays⟩ := @PreprocState.directive_begins st d branch
    rw [if_pos branch]
    cases conditionals : st.conditionals with
    | nil =>
        rw [stays (by rw [conditionals]; nofun)]
        exact ⟨groups, parents⟩
    | cons top outer =>
        cases seen : top.seenElse with
        | true =>
            rw [stays (by rw [conditionals]; simpa using seen), List.head?_cons, Option.any_some,
              seen]
            exact ⟨groups, parents⟩
        | false =>
            obtain ⟨c, begun, next⟩ := begins top outer conditionals seen
            rw [conditionals] at groups parents
            cases groups with
            | cons first rest =>
                have now : (st.directive d.text d.loc).1.active = c.active := by
                  rw [PreprocState.active, begun]
                  rfl
                rw [begun, now, List.head?_cons, Option.any_some, seen]
                exact ⟨.cons (first.next next) rest, next.parent.trans parents.1, parents.2⟩
  rw [if_neg branch]
  by_cases closes : d.name = "endif"
  · have closed : (st.directive d.text d.loc).1.conditionals = st.conditionals.tail := by
      rw [PreprocState.directive_eq, closes]
      exact st.endif_conditionals d.loc
    rw [if_pos closes, closed]
    generalize st.conditionals = conditionals at groups parents ⊢
    cases groups with
    | nil => exact ⟨.nil, trivial⟩
    | cons first rest => exact ⟨rest, parents.2⟩
  · rw [if_neg closes, st.directive_conditionals opens branch closes]
    exact ⟨groups, parents⟩

/-- The flags of the branches of each open group are followed through all lines. -/
theorem follows_branches {st : PreprocState} {flags : List (List Bool)}
    (groups : List.Forall₂ FollowsGroup st.conditionals flags)
    (parents : ParentsAgree st.conditionals) (loc : Location) (lines : List String) :
    List.Forall₂ FollowsGroup (st.lines loc lines).1.conditionals (st.branches loc flags lines) ∧
      ParentsAgree (st.lines loc lines).1.conditionals := by
  induction lines generalizing st loc flags with
  | nil => exact ⟨groups, parents⟩
  | cons line lines ih =>
      rw [lines_cons, PreprocState.branches, PreprocState.line]
      cases isLine : Directive.ofLine? line loc with
      | none => exact ih groups parents _
      | some d =>
          obtain ⟨groups, parents⟩ := follow_directive groups parents d
          exact ih groups parents _

end LiveC

/-! ## Groups as a tree -/

namespace LiveC

/-! ### Passages -/

mutual

/-- A passage of a source: lines of text, edits of the macro table and conditional groups. -/
inductive Passage where
  | nil
  | text (line : String) (next : Passage)
  | edit (line : String) (next : Passage)
  | group (opening : String) (body : Passage) (others : Branches) (next : Passage)

/-- What follows the first branch of a group. -/
inductive Branches where
  | endif (line : String)
  | elif (line : String) (body : Passage) (others : Branches)
  | otherwise (line : String) (body : Passage) (closing : String)

end

mutual

def Passage.lines : Passage → List String
  | .nil => []
  | .text line next | .edit line next => line :: next.lines
  | .group opening body others next => opening :: (body.lines ++ (others.lines ++ next.lines))

def Branches.lines : Branches → List String
  | .endif line => [line]
  | .elif line body others => line :: (body.lines ++ others.lines)
  | .otherwise line body closing => line :: (body.lines ++ [closing])

end

mutual

/-- The lines are of the kinds that their places in the passage ask for. -/
def Passage.Nested : Passage → Prop
  | .nil => True
  | .text line next => IsText line ∧ next.Nested
  | .edit line next =>
    IsDirective line ∧ (lineName line = "define" ∨ lineName line = "undef") ∧ next.Nested
  | .group opening body others next => Opens opening ∧ body.Nested ∧ others.Nested ∧ next.Nested

def Branches.Nested : Branches → Prop
  | .endif line => IsDirective line ∧ lineName line = "endif"
  | .elif line body others =>
    IsDirective line ∧ lineName line = "elif" ∧ body.Nested ∧ others.Nested
  | .otherwise line body closing =>
    IsDirective line ∧ lineName line = "else" ∧ body.Nested ∧
      IsDirective closing ∧ lineName closing = "endif"

end

mutual

/-- All conditions, definitions and names of the passage are well formed. -/
def Passage.WellFormed : Passage → Prop
  | .nil => True
  | .text _ next => next.WellFormed
  | .edit line next => (edit? line .start {}).isSome = true ∧ next.WellFormed
  | .group opening body others next =>
    (condition? opening .start).isSome = true ∧ body.WellFormed ∧ others.WellFormed ∧
      next.WellFormed

def Branches.WellFormed : Branches → Prop
  | .endif _ => True
  | .elif line body others =>
    (condition? line .start).isSome = true ∧ body.WellFormed ∧ others.WellFormed
  | .otherwise _ body _ => body.WellFormed

end

/-- Where the line behind lines that follow each other from `loc` on starts. -/
abbrev Location.behindLines (loc : Location) (lines : List String) : Location :=
  lines.foldl Location.behindLine loc

mutual

/-- The macros behind a passage at `loc`, and its tokens: those of the selected lines. There is no
result if a condition that decides, or an edit that is selected, is malformed. -/
def Passage.read : Passage → MacroTable → Location → Option (MacroTable × List Token)
  | .nil, m, _ => some (m, [])
  | .text line next, m, loc => do
    let (m', ts) ← next.read m (loc.behindLine line)
    return (m', (lineTokens line loc).flatMap (fun t => m.expand t.loc t.kind) ++ ts)
  | .edit line next, m, loc => do
    let m ← edit? line loc m
    next.read m (loc.behindLine line)
  | .group opening body others next, m, loc => do
    let condition ← condition? opening loc
    let inside := loc.behindLine opening
    let behind := inside.behindLines body.lines
    let (m, ts) ← (if condition.holds m then body.read m inside else others.read m behind)
    let (m, us) ← next.read m (behind.behindLines others.lines)
    return (m, ts ++ us)

/-- The same for the branches that are left when no earlier one was selected. -/
def Branches.read : Branches → MacroTable → Location → Option (MacroTable × List Token)
  | .endif _, m, _ => some (m, [])
  | .elif line body others, m, loc => do
    let condition ← condition? line loc
    let inside := loc.behindLine line
    if condition.holds m then body.read m inside
    else others.read m (inside.behindLines body.lines)
  | .otherwise line body _, m, loc => body.read m (loc.behindLine line)

end

/-! ### The run over a passage -/

namespace PreprocState

variable {st st' st'' : PreprocState} {loc : Location} {a b : PreprocOutput}

theorem lines_cons_of {line : String} {lines : List String} (first : st.line line loc = (st', a))
    (others : st'.lines (loc.behindLine line) lines = (st'', b)) :
    st.lines loc (line :: lines) = (st'', a ++ b) := by
  rw [lines_cons, first]
  dsimp only
  rw [others]

theorem lines_append_of {front back : List String} (first : st.lines loc front = (st', a))
    (others : st'.lines (loc.behindLines front) back = (st'', b)) :
    st.lines loc (front ++ back) = (st'', a ++ b) := by
  rw [lines_append, first]
  dsimp only
  rw [others]

theorem lines_singleton_of {line : String} (h : st.line line loc = (st', .empty)) :
    st.lines loc [line] = (st', .empty) :=
  lines_cons_of h rfl

theorem kept_inactive (inactive : st.active = false) (ts : List Token) : st.kept ts = .empty := by
  rw [kept, inactive]
  rfl

end PreprocState

open PreprocState

mutual

/-- Where text is skipped, a passage does nothing. -/
theorem Passage.lines_skipped {p : Passage} (nested : p.Nested) {st : PreprocState}
    (inactive : st.active = false) (loc : Location) : st.lines loc p.lines = (st, .empty) :=
  match p with
  | .nil => rfl
  | .text line next => by
      have first : st.line line loc = (st, .empty) := by
        rw [line_text nested.1, kept_inactive inactive]
      exact lines_cons_of first (next.lines_skipped nested.2 inactive _)
  | .edit line next =>
      lines_cons_of (line_edit_skipped nested.1 nested.2.1 inactive)
        (next.lines_skipped nested.2.2 inactive _)
  | .group opening body others next => by
      obtain ⟨opens, body', others', next'⟩ := nested
      obtain ⟨value, opened⟩ := @line_opens_skipped _ _ loc opens inactive
      have inside : (st.openGroup value).active = false := by
        rw [openGroup, active_cons, inactive, Bool.false_and]
      have closed := @Branches.lines_skipped others others' (st.openGroup value) _ _ rfl rfl
        (by rw [inactive, Bool.false_and]) ((loc.behindLine opening).behindLines body.lines)
      exact lines_cons_of opened (lines_append_of (body.lines_skipped body' inside _)
        (lines_append_of closed (next.lines_skipped next' inactive _)))

/-- Once a branch was taken, or where the whole group is skipped, further branches do nothing. -/
theorem Branches.lines_skipped {b : Branches} (nested : b.Nested) {st : PreprocState}
    {top : Conditional} {outer : List Conditional} (conditionals : st.conditionals = top :: outer)
    (noElse : top.seenElse = false) (skipped : (top.parentActive && !top.taken) = false)
    (loc : Location) :
    st.lines loc b.lines = ({ st with conditionals := outer }, .empty) :=
  match b with
  | .endif line => lines_singleton_of (line_endif conditionals nested.1 nested.2)
  | .elif line body others => by
      obtain ⟨directive, name, body', others'⟩ := nested
      exact lines_cons_of (line_elif_skipped conditionals directive name noElse skipped)
        (lines_append_of (body.lines_skipped body' rfl _)
          (@Branches.lines_skipped others others' _ { top with active := false } outer rfl noElse
            skipped _))
  | .otherwise line body closing => by
      obtain ⟨directive, name, body', directive', name'⟩ := nested
      have begun := @line_else _ _ loc _ _ conditionals directive name noElse
      rw [skipped] at begun
      exact lines_cons_of begun (lines_append_of (body.lines_skipped body' rfl _)
        (lines_singleton_of (line_endif rfl directive' name')))

end

theorem kept_active {st : PreprocState} (active : st.active = true) (ts : List Token) :
    st.kept ts = { tokens := ts.flatMap fun t => st.macros.expand t.loc t.kind } := by
  rw [kept, if_pos active]

mutual

/-- Where text is kept, a passage contributes the tokens of its reading and leaves its macros. -/
theorem Passage.lines_read {p : Passage} (nested : p.Nested) {st : PreprocState}
    (active : st.active = true) {loc : Location} {m : MacroTable} {ts : List Token}
    (read : p.read st.macros loc = some (m, ts)) :
    st.lines loc p.lines = ({ st with macros := m }, { tokens := ts }) :=
  match p with
  | .nil => by
      cases read
      rfl
  | .text line next => by
      obtain ⟨⟨m', us⟩, next', result⟩ := Option.bind_eq_some_iff.mp read
      cases result
      exact lines_cons_of
        ((line_text nested.1).trans (congrArg (Prod.mk st) (kept_active active _)))
        (next.lines_read nested.2 active next')
  | .edit line next => by
      obtain ⟨m', edit, next'⟩ := Option.bind_eq_some_iff.mp read
      exact lines_cons_of (line_edit nested.1 nested.2.1 active edit)
        (@Passage.lines_read next nested.2.2 { st with macros := m' } active _ _ _ next')
  | .group opening body others next => by
      obtain ⟨opens, bodyNested, othersNested, nextNested⟩ := nested
      obtain ⟨condition, asked, read⟩ := Option.bind_eq_some_iff.mp read
      obtain ⟨⟨m', us⟩, selected, read⟩ := Option.bind_eq_some_iff.mp read
      obtain ⟨⟨m'', vs⟩, next', result⟩ := Option.bind_eq_some_iff.mp read
      cases result
      have opened := line_opens opens active asked
      have behind := @Passage.lines_read next nextNested { st with macros := m' } active _ _ _ next'
      cases holds : condition.holds st.macros with
      | true =>
          rw [holds] at opened selected
          have inside : (st.openGroup true).active = true := by
            rw [openGroup, active_cons, active, Bool.and_true]
          have closed := @Branches.lines_skipped others othersNested
            { st.openGroup true with macros := m' } _ _ rfl rfl (Bool.and_false _)
            ((loc.behindLine opening).behindLines body.lines)
          exact lines_cons_of opened (lines_append_of (body.lines_read bodyNested inside selected)
            (lines_append_of closed behind))
      | false =>
          rw [holds] at opened selected
          have inside : (st.openGroup false).active = false := by
            rw [openGroup, active_cons, Bool.and_false]
          have closed := @Branches.lines_read others othersNested (st.openGroup false) _ _ rfl rfl
            active rfl _ _ _ selected
          exact lines_cons_of opened (lines_append_of (body.lines_skipped bodyNested inside _)
            (lines_append_of closed behind))

/-- Where no branch was taken yet, further branches contribute the tokens of their reading. -/
theorem Branches.lines_read {b : Branches} (nested : b.Nested) {st : PreprocState}
    {top : Conditional} {outer : List Conditional} (conditionals : st.conditionals = top :: outer)
    (noElse : top.seenElse = false) (parent : top.parentActive = true)
    (untaken : top.taken = false) {loc : Location} {m : MacroTable} {ts : List Token}
    (read : b.read st.macros loc = some (m, ts)) :
    st.lines loc b.lines = (⟨m, outer⟩, { tokens := ts }) :=
  match b with
  | .endif line => by
      cases read
      exact lines_singleton_of (line_endif conditionals nested.1 nested.2)
  | .elif line body others => by
      obtain ⟨directive, name, bodyNested, othersNested⟩ := nested
      obtain ⟨condition, asked, selected⟩ := Option.bind_eq_some_iff.mp read
      have begun := line_elif conditionals directive name noElse parent untaken asked
      cases holds : condition.holds st.macros with
      | true =>
          rw [holds] at begun selected
          have within := @Passage.lines_read body bodyNested
            ⟨st.macros, { top with active := true, taken := true } :: outer⟩ rfl _ _ _ selected
          have closed := @Branches.lines_skipped others othersNested
            ⟨m, { top with active := true, taken := true } :: outer⟩ _ _ rfl noElse
            (Bool.and_false _) ((loc.behindLine line).behindLines body.lines)
          have inside := lines_append_of within closed
          rw [PreprocOutput.append_empty] at inside
          exact lines_cons_of begun inside
      | false =>
          rw [holds] at begun selected
          have within := @Passage.lines_skipped body bodyNested
            ⟨st.macros, { top with active := false, taken := false } :: outer⟩ rfl
            (loc.behindLine line)
          have closed := @Branches.lines_read others othersNested
            ⟨st.macros, { top with active := false, taken := false } :: outer⟩ _ _ rfl noElse
            parent rfl _ _ _ selected
          exact lines_cons_of begun (lines_append_of within closed)
  | .otherwise line body closing => by
      obtain ⟨directive, name, bodyNested, directive', name'⟩ := nested
      have begun := @line_else _ _ loc _ _ conditionals directive name noElse
      rw [parent, untaken] at begun
      have within := @Passage.lines_read body bodyNested
        ⟨st.macros, { top with active := true, taken := true, seenElse := true } :: outer⟩
        rfl _ _ _ read
      have inside := lines_append_of within (lines_singleton_of (line_endif rfl directive' name'))
      rw [PreprocOutput.append_empty] at inside
      exact lines_cons_of begun (by simpa [parent] using inside)

end

mutual

/-- A passage whose conditions and edits are well formed has a reading. -/
theorem Passage.exists_read {p : Passage} (nested : p.Nested) (h : p.WellFormed) (m : MacroTable)
    (loc : Location) : ∃ r, p.read m loc = some r :=
  match p with
  | .nil => ⟨_, rfl⟩
  | .text line next => by
      obtain ⟨r, read⟩ := next.exists_read nested.2 h m (loc.behindLine line)
      exact ⟨_, Option.bind_eq_some_iff.mpr ⟨r, read, rfl⟩⟩
  | .edit line next => by
      obtain ⟨m', edit⟩ := Option.isSome_iff_exists.mp
        ((nested.1.isSome_edit?_relocate loc m).trans h.1)
      obtain ⟨r, read⟩ := next.exists_read nested.2.2 h.2 m' (loc.behindLine line)
      exact ⟨r, Option.bind_eq_some_iff.mpr ⟨m', edit, read⟩⟩
  | .group opening body others next => by
      obtain ⟨opens, bodyNested, othersNested, nextNested⟩ := nested
      obtain ⟨asked, bodyFormed, othersFormed, nextFormed⟩ := h
      rw [← opens.isDirective.condition?_relocate loc] at asked
      obtain ⟨condition, asked⟩ := Option.isSome_iff_exists.mp asked
      obtain ⟨r, selected⟩ : ∃ r, (if condition.holds m then body.read m (loc.behindLine opening)
          else others.read m ((loc.behindLine opening).behindLines body.lines)) = some r := by
        split
        · exact body.exists_read bodyNested bodyFormed m _
        · exact others.exists_read othersNested othersFormed m _
      obtain ⟨r', read⟩ := next.exists_read nextNested nextFormed r.1
        (((loc.behindLine opening).behindLines body.lines).behindLines others.lines)
      exact ⟨_, Option.bind_eq_some_iff.mpr ⟨condition, asked, Option.bind_eq_some_iff.mpr
        ⟨r, selected, Option.bind_eq_some_iff.mpr ⟨r', read, rfl⟩⟩⟩⟩

theorem Branches.exists_read {b : Branches} (nested : b.Nested) (h : b.WellFormed) (m : MacroTable)
    (loc : Location) : ∃ r, b.read m loc = some r :=
  match b with
  | .endif _ => ⟨_, rfl⟩
  | .elif line body others => by
      obtain ⟨directive, -, bodyNested, othersNested⟩ := nested
      obtain ⟨asked, bodyFormed, othersFormed⟩ := h
      rw [← directive.condition?_relocate loc] at asked
      obtain ⟨condition, asked⟩ := Option.isSome_iff_exists.mp asked
      obtain ⟨r, selected⟩ : ∃ r, (if condition.holds m then body.read m (loc.behindLine line)
          else others.read m ((loc.behindLine line).behindLines body.lines)) = some r := by
        split
        · exact body.exists_read bodyNested bodyFormed m _
        · exact others.exists_read othersNested othersFormed m _
      exact ⟨r, Option.bind_eq_some_iff.mpr ⟨condition, asked, selected⟩⟩
  | .otherwise line body closing => body.exists_read nested.2.2.1 h m _

end

mutual

theorem Passage.isLine_of_mem {p : Passage} (nested : p.Nested) : ∀ line ∈ p.lines, IsLine line :=
  match p with
  | .nil => nofun
  | .text _ next => List.forall_mem_cons.mpr ⟨.inl nested.1, next.isLine_of_mem nested.2⟩
  | .edit _ next => List.forall_mem_cons.mpr ⟨.inr nested.1, next.isLine_of_mem nested.2.2⟩
  | .group _ body others next =>
    List.forall_mem_cons.mpr ⟨.inr nested.1.isDirective,
      List.forall_mem_append.mpr ⟨body.isLine_of_mem nested.2.1,
        List.forall_mem_append.mpr ⟨others.isLine_of_mem nested.2.2.1,
          next.isLine_of_mem nested.2.2.2⟩⟩⟩

theorem Branches.isLine_of_mem {b : Branches} (nested : b.Nested) : ∀ line ∈ b.lines, IsLine line :=
  match b with
  | .endif _ => List.forall_mem_singleton.mpr (.inr nested.1)
  | .elif _ body others =>
    List.forall_mem_cons.mpr ⟨.inr nested.1, List.forall_mem_append.mpr
      ⟨body.isLine_of_mem nested.2.2.1, others.isLine_of_mem nested.2.2.2⟩⟩
  | .otherwise _ body _ =>
    List.forall_mem_cons.mpr ⟨.inr nested.1, List.forall_mem_append.mpr
      ⟨body.isLine_of_mem nested.2.2.1, List.forall_mem_singleton.mpr (.inr nested.2.2.2.1)⟩⟩

end

/-! ### The tokens of a source -/

/-- Conditional compilation is the recursive reading. A source of nested groups whose conditions,
definitions and names are well formed is tokenized to the tokens of the lines that its reading
selects, with macros expanded as they are defined there; conditions and edits that the reading
does not come to may also be malformed. At every line of the source, at most one branch of each open
group has been active, the latest is the current one, and each open group knows whether the text
around it is active. -/
theorem tokenize_nested {p : Passage} (nested : p.Nested) {defines : List (String × String)}
    (clean : (predefined defines).2 = []) :
    let m := (predefined defines).1
    let source := sourceOf p.lines
    let tokenizesTo (ts : List Token) : Prop := tokenize source defines =
      .ok ⟨ts ++ [⟨.eof, (Text.toByteChars source).foldl Location.after .start⟩], []⟩
    (p.WellFormed → ∃ m' ts, p.read m .start = some (m', ts) ∧ tokenizesTo ts) ∧
    (∀ m' ts, p.read m .start = some (m', ts) → tokenizesTo ts) ∧
    ∀ front line back, p.lines = front ++ line :: back →
      let start : PreprocState := { macros := m }
      let here := start.lines .start front
      start.run true (Cursor.ofText source .start) =
        here.2 ++ here.1.run true
          (Cursor.ofText (sourceOf (line :: back)) (Location.behindLines .start front)) ∧
      List.Forall₂ (fun c branches => branches.head? = some c.active ∧ branches.count true ≤ 1)
        here.1.conditionals (start.branches .start [] front) ∧
      ParentsAgree here.1.conditionals := by
  intro m source tokenizesTo
  have isLine := Passage.isLine_of_mem nested
  have result (m' : MacroTable) (ts : List Token) (read : p.read m .start = some (m', ts)) :
      tokenizesTo ts := by
    have run := @run_sourceOf { macros := m } _ isLine .start
    rw [Passage.lines_read nested rfl read] at run
    show tokenize _ _ = _
    unfold tokenize
    dsimp only
    rw [run, clean]
    rfl
  refine ⟨fun formed => ?_, result, fun front line back same => ?_⟩
  · obtain ⟨⟨m', ts⟩, read⟩ := Passage.exists_read nested formed m .start
    exact ⟨m', ts, read, result m' ts read⟩
  · have before (l : String) (member : l ∈ front) : IsLine l :=
      isLine l (same ▸ List.mem_append_left _ member)
    obtain ⟨groups, parents⟩ := @follows_branches { macros := m } _ .nil trivial .start front
    refine ⟨?_, groups.imp fun _ _ follows => ⟨follows.latest, follows.once⟩, parents⟩
    show PreprocState.run _ true (Cursor.ofText (sourceOf p.lines) .start) = _
    rw [same]
    exact run_sourceOf_append before (List.cons_ne_nil _ _) .start

theorem tokenize_nested_elif :
    let p : Passage := .edit "#define A 0" (.group "#if A" (.text "x" .nil)
      (.elif " # elif !A" (.text "y A" .nil) (.endif "#endif")) (.text "A" .nil))
    p.Nested ∧ (predefined []).2 = [] ∧
      (tokenize (sourceOf p.lines) []).map (fun text => text.tokens.map Token.kind) =
        .ok [.ident "y", .int 0 false false true, .int 0 false false true, .eof] := by
  intro p
  have nested : p.Nested := by
    refine ⟨?_, ?_, ⟨?_, ⟨?_, trivial⟩, ⟨?_, ?_, ⟨?_, trivial⟩, ?_, ?_⟩, ?_, trivial⟩⟩ <;>
      decide +kernel
  have reading : (p.read (predefined []).1 .start).map (fun r => r.2.map Token.kind) =
      some [.ident "y", .int 0 false false true, .int 0 false false true] := by decide +kernel
  obtain ⟨⟨m, ts⟩, read, kinds⟩ := Option.map_eq_some_iff.mp reading
  refine ⟨nested, rfl, ?_⟩
  rw [(tokenize_nested nested rfl).2.1 m ts read]
  simp only [Except.map, List.map_append, kinds]
  rfl

end LiveC
