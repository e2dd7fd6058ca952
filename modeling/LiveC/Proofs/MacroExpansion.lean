import Mathlib.Data.Finset.Card
import Mathlib.Data.Finset.Dedup
import Mathlib.Logic.Relation
import LiveC.Preprocess.Macros

/-!
Expansion of macros, by the path that leads to a token and by the hide sets that tokens carry.
Along a path no macro is opened twice, so that macros are nested no deeper than there are
macros; and the tokens that come out are those that repeated scanning leaves when each token
carries the names of the macros it comes from.
-/

namespace LiveC
namespace MacroTable

/-- The names that are defined. -/
def names (m : MacroTable) : Finset String := (m.entries.map Prod.fst).toFinset

/-- A table without the macros of a path. -/
def without (m : MacroTable) : List String → MacroTable
  | [] => m
  | name :: path => (m.without path).erase name

/-- The macro that a token opens inside the expansions of others, and its body. -/
def opened? (m : MacroTable) (path : List String) : TokenKind → Option (String × List Token)
  | .ident name => if name ∈ path then none else (m.find? name).map (name, ·)
  | _ => none

variable {m : MacroTable} {loc : Location} {path : List String} {name : String}
  {body : List Token} {kind : TokenKind}

theorem mem_names_of_find? (h : m.find? name = some body) : name ∈ m.names := by
  obtain ⟨before, after, split, -⟩ := List.lookup_eq_some_iff.mp h
  simp [names, split]

theorem names_erase (m : MacroTable) (name : String) :
    (m.erase name).names = m.names.erase name := by
  ext other
  simp only [names, erase, List.mem_toFinset, List.mem_map, List.mem_filter, Finset.mem_erase]
  constructor
  · rintro ⟨e, ⟨member, kept⟩, rfl⟩
    exact ⟨by simpa using kept, e, member, rfl⟩
  · rintro ⟨different, e, member, rfl⟩
    exact ⟨e, ⟨member, by simpa using different⟩, rfl⟩

theorem find?_erase (m : MacroTable) (name other : String) :
    (m.erase name).find? other = if other = name then none else m.find? other := by
  obtain ⟨entries⟩ := m
  simp only [find?, erase]
  induction entries with
  | nil => simp
  | cons e entries ih =>
      obtain ⟨key, text⟩ := e
      rw [List.filter_cons]
      by_cases gone : key = name
      · subst gone
        rw [if_neg (by simp), ih, List.lookup_cons]
        by_cases here : other = key
        · rw [if_pos here, if_pos here]
        · rw [if_neg here, if_neg here, beq_false_of_ne here]
      · rw [if_pos (by simpa using gone), List.lookup_cons, List.lookup_cons, ih]
        by_cases here : other = key
        · subst here
          simp [gone]
        · rw [beq_false_of_ne here]

theorem find?_without (m : MacroTable) (path : List String) (name : String) :
    (m.without path).find? name = if name ∈ path then none else m.find? name := by
  induction path with
  | nil => simp [without]
  | cons other path ih =>
      rw [without, find?_erase, ih]
      by_cases h : name = other <;> simp [h]

theorem opened?_eq_some (h : m.opened? path kind = some (name, body)) :
    kind = .ident name ∧ name ∉ path ∧ m.find? name = some body := by
  cases kind with
  | ident inner =>
      simp only [opened?] at h
      split at h
      case isTrue => cases h
      case isFalse outside =>
        obtain ⟨text, found, same⟩ := Option.map_eq_some_iff.mp h
        cases same
        exact ⟨rfl, outside, found⟩
  | _ => cases h

theorem find?_of_opened? (h : m.opened? path kind = some (name, body)) :
    (m.without path).find? name = some body := by
  obtain ⟨-, outside, found⟩ := opened?_eq_some h
  rw [find?_without, if_neg outside, found]

theorem mem_path_of_not_opened? (h : m.opened? path (.ident name) = none)
    (isMacro : m.contains name = true) : name ∈ path := by
  by_contra outside
  obtain ⟨body, found⟩ := Option.isSome_iff_exists.mp isMacro
  rw [opened?, if_neg outside, found] at h
  cases h

theorem expand_of_not_opened? (h : m.opened? path kind = none) :
    (m.without path).expand loc kind = [⟨kind, loc⟩] := by
  cases kind with
  | ident name =>
      rw [expand]
      split
      case h_1 body found =>
        rw [find?_without] at found
        split at found
        case isTrue => cases found
        case isFalse outside => simp [opened?, outside, found] at h
      case h_2 => rfl
  | _ =>
      rw [expand]
      intro name same
      cases same

theorem expand_of_opened? (h : m.opened? path kind = some (name, body)) :
    (m.without path).expand loc kind =
      body.flatMap fun t => (m.without (name :: path)).expand loc t.kind := by
  have here := find?_of_opened? h
  obtain ⟨rfl, -, -⟩ := opened?_eq_some h
  rw [expand]
  split
  case h_1 body' found =>
    cases here.symm.trans found
    rfl
  case h_2 none => cases here.symm.trans none

/-- Opening a macro leaves fewer that can still be opened. -/
theorem card_names_lt_of_opened? (h : m.opened? path kind = some (name, body)) :
    (m.without (name :: path)).names.card < (m.without path).names.card := by
  rw [without, names_erase]
  exact Finset.card_erase_lt_of_mem (mem_names_of_find? (find?_of_opened? h))

/-- What holds of every token that opens no macro, and of a token that opens one if it holds of
all tokens inside, holds of all tokens. -/
theorem opening_induction {P : List String → TokenKind → Prop}
    (closed : ∀ path kind, m.opened? path kind = none → P path kind)
    (opening : ∀ path kind name body, m.opened? path kind = some (name, body) →
      (∀ inner, P (name :: path) inner) → P path kind)
    (path : List String) (kind : TokenKind) : P path kind := by
  induction left : (m.without path).names.card using Nat.strongRecOn generalizing path kind with
  | ind n ih =>
      cases h : m.opened? path kind with
      | none => exact closed path kind h
      | some e =>
          obtain ⟨name, body⟩ := e
          have fewer := card_names_lt_of_opened? h
          exact opening path kind name body h fun inner => ih _ (left ▸ fewer) _ inner rfl

/-! ### By the path -/

/-- The tokens that a token stands for inside the expansions of a path, unless macros would be
nested deeper than is allowed. -/
def expandWithin (m : MacroTable) (loc : Location) (depth : Nat) (path : List String)
    (kind : TokenKind) : Option (List Token) :=
  match m.opened? path kind, depth with
  | none, _ => some [⟨kind, loc⟩]
  | some _, 0 => none
  | some (name, body), depth + 1 =>
    (body.mapM fun t => m.expandWithin loc depth (name :: path) t.kind).map List.flatten

/-- Macros are nested no deeper than there are macros that can still be opened. -/
theorem expandWithin_eq (m : MacroTable) (loc : Location) (path : List String) (kind : TokenKind) :
    ∀ depth, (m.without path).names.card ≤ depth →
      m.expandWithin loc depth path kind = some ((m.without path).expand loc kind) := by
  induction path, kind using m.opening_induction with
  | closed path kind h =>
      intro depth _
      unfold expandWithin
      rw [h, expand_of_not_opened? h]
  | opening path kind name body h ih =>
      intro depth enough
      have fewer := card_names_lt_of_opened? h
      cases depth with
      | zero => omega
      | succ depth =>
          have each (t : Token) : m.expandWithin loc depth (name :: path) t.kind =
              pure ((m.without (name :: path)).expand loc t.kind) := ih t.kind depth (by omega)
          unfold expandWithin
          rw [h, expand_of_opened? h]
          simp only [each]
          rw [List.mapM_pure]
          rfl

/-! ### By hide sets -/

/-- A token with the names of the macros from whose expansions it comes. -/
structure HidingToken where
  kind : TokenKind
  hidden : List String

/-- Scans the next token of a text: it is put out, or replaced by the body of the macro that it
names. The tokens of the body are scanned in their turn, and do not open that macro again. -/
def rescan? (m : MacroTable) : List HidingToken × List HidingToken →
    Option (List HidingToken × List HidingToken)
  | (_, []) => none
  | (out, t :: rest) =>
    match m.opened? t.hidden t.kind with
    | none => some (out ++ [t], rest)
    | some (name, body) => some (out, body.map (fun b => ⟨b.kind, name :: t.hidden⟩) ++ rest)

/-- Scanning goes on until it has put out so much of a text. -/
def Rescans (m : MacroTable) (text out : List HidingToken) : Prop :=
  ∀ done rest, Relation.ReflTransGen (fun s s' => m.rescan? s = some s')
    (done, text ++ rest) (done ++ out, rest)

theorem Rescans.nil : m.Rescans [] [] := fun done rest => by
  rw [List.nil_append, List.append_nil]

theorem Rescans.append {text out text' out' : List HidingToken} (h : m.Rescans text out)
    (h' : m.Rescans text' out') : m.Rescans (text ++ text') (out ++ out') := fun done rest => by
  rw [List.append_assoc, ← List.append_assoc done]
  exact (h done (text' ++ rest)).trans (h' (done ++ out) rest)

/-- The macro that a token names, if any, is one that the token comes from. -/
def HidingToken.Spent (m : MacroTable) (t : HidingToken) : Prop :=
  ∀ name, t.kind = .ident name → m.contains name = true → name ∈ t.hidden

/-- What scanning leaves of each token of a body, it leaves of the body. -/
theorem rescans_body (each : ∀ kind, ∃ out, m.Rescans [⟨kind, path⟩] out ∧ (∀ t ∈ out, t.Spent m) ∧
      (m.without path).expand loc kind = out.map fun t => ⟨t.kind, loc⟩) (body : List Token) :
    ∃ out, m.Rescans (body.map fun b => ⟨b.kind, path⟩) out ∧ (∀ t ∈ out, t.Spent m) ∧
      (body.flatMap fun b => (m.without path).expand loc b.kind) =
        out.map fun t => ⟨t.kind, loc⟩ := by
  induction body with
  | nil => exact ⟨[], .nil, nofun, rfl⟩
  | cons b body ih =>
      obtain ⟨first, scanned, spent, same⟩ := each b.kind
      obtain ⟨others, scanned', spent', same'⟩ := ih
      refine ⟨first ++ others, scanned.append scanned',
        List.forall_mem_append.mpr ⟨spent, spent'⟩, ?_⟩
      rw [List.flatMap_cons, List.map_append, same, same']

/-- Scanning a token leaves the tokens of its expansion. -/
theorem rescans_expand (m : MacroTable) (loc : Location) (path : List String) (kind : TokenKind) :
    ∃ out, m.Rescans [⟨kind, path⟩] out ∧ (∀ t ∈ out, t.Spent m) ∧
      (m.without path).expand loc kind = out.map fun t => ⟨t.kind, loc⟩ := by
  induction path, kind using m.opening_induction with
  | closed path kind h =>
      refine ⟨[⟨kind, path⟩], fun done rest => .single ?_, ?_, expand_of_not_opened? h⟩
      · simp only [List.singleton_append, rescan?, h]
      · refine List.forall_mem_singleton.mpr fun name named isMacro => ?_
        exact mem_path_of_not_opened? (named ▸ h) isMacro
  | opening path kind name body h ih =>
      obtain ⟨out, scanned, spent, same⟩ := rescans_body ih body
      refine ⟨out, fun done rest => .head ?_ (scanned done rest), spent, ?_⟩
      · simp only [List.singleton_append, rescan?, h]
      · rw [expand_of_opened? h, same]

/-- A token at a place stands for the tokens that are found along paths on which no macro is
opened twice, which are no longer than there are macros. They are the ones that scanning with
hide sets comes to an end with: a macro whose name is left is one that the token comes from.
All of them are taken for tokens at that place. -/
theorem expand_standard (m : MacroTable) (loc : Location) (kind : TokenKind) :
    m.expandWithin loc m.names.card [] kind = some (m.expand loc kind) ∧
      (∃ out, Relation.ReflTransGen (fun s s' => m.rescan? s = some s')
          ([], [⟨kind, []⟩]) (out, []) ∧
        (∀ t ∈ out, t.Spent m) ∧ m.expand loc kind = out.map fun t => ⟨t.kind, loc⟩) ∧
      ∀ t ∈ m.expand loc kind, t.loc = loc := by
  obtain ⟨out, scanned, spent, same⟩ := m.rescans_expand loc [] kind
  refine ⟨m.expandWithin_eq loc [] kind _ (Nat.le_refl _), ⟨out, ?_, spent, same⟩, ?_⟩
  · simpa using scanned [] []
  · change m.expand loc kind = _ at same
    rw [same]
    exact List.forall_mem_map.mpr fun _ _ => rfl

/-- Two macros that name each other: the first is left where the second has named it. -/
example :
    let name (s : String) : Token := ⟨.ident s, .start⟩
    (⟨[("A", [name "B", name "x"]), ("B", [name "A"])]⟩ : MacroTable).expandWithin ⟨7, 3⟩ 2 []
      (.ident "A") = some [⟨.ident "A", ⟨7, 3⟩⟩, ⟨.ident "x", ⟨7, 3⟩⟩] := by decide

end MacroTable
end LiveC
