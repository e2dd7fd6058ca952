import LiveC.Proofs.DeclaratorReading

/-!
The order of declaration specifiers. What keywords in front of a declarator come to depends on
which they are, not on their order: in any order they are refused, or give the same type, storage
class and constness. Of the type words that C lists, the type is the one that C assigns.
-/

namespace LiveC

/-! ### Keywords -/

/-- The keywords of storage classes, of which C allows one. -/
def storageKeywords : List Keyword := [.typedefKw, .externKw, .staticKw, .autoKw, .registerKw]

/-- Qualifiers, and the words for inline functions. C allows them more than once. -/
def qualifierKeywords : List Keyword :=
  [.constKw, .volatileKw, .restrictKw, .restrictGnuKw, .inlineKw, .inlineGnuKw]

def typeKeywords : List Keyword :=
  [.voidKw, .charKw, .shortKw, .intKw, .longKw, .signedKw, .unsignedKw, .doubleKw, .boolKw,
   .floatKw, .structKw, .unionKw, .enumKw]

namespace Keyword

/-- The keyword is a declaration specifier by itself, which attributes are not. -/
def IsSpecifier (kw : Keyword) : Prop := kw ∈ storageKeywords ++ qualifierKeywords ++ typeKeywords

instance (kw : Keyword) : Decidable kw.IsSpecifier := inferInstanceAs (Decidable (_ ∈ _))

/-- The storage class that a keyword gives. -/
def storage? (kw : Keyword) : Option Storage :=
  match Specifier.ofKeyword? kw with
  | some (.storage c) => some c
  | _ => none

/-- The type word that a keyword is. -/
def word? (kw : Keyword) : Option TypeWord :=
  match Specifier.ofKeyword? kw with
  | some (.word w) => some w
  | _ => none

def isConst (kw : Keyword) : Bool := Specifier.ofKeyword? kw matches some .const

/-- The keyword names types that are refused. -/
def isRefused (kw : Keyword) : Bool := Specifier.ofKeyword? kw matches some (.refused _)

variable {kw : Keyword}

theorem IsSpecifier.exists_specifier (h : kw.IsSpecifier) :
    ∃ sp, Specifier.ofKeyword? kw = some sp ∧ sp ≠ .attribute := by
  cases kw <;> first | exact absurd h (by decide) | exact ⟨_, rfl, nofun⟩

theorem isConst_iff : kw.isConst = true ↔ kw = .constKw := by
  cases kw <;> decide

end Keyword

/-- The keyword of a storage class. -/
def Storage.keyword : Storage → Keyword
  | typedef => .typedefKw
  | external => .externKw
  | static => .staticKw

theorem Storage.storage?_eq_some {kw : Keyword} {c : Storage} :
    kw.storage? = some c ↔ c.keyword = kw := by
  cases kw <;> cases c <;> decide

/-- A type word has no other effect. -/
theorem TypeWord.effect_keyword (w : TypeWord) : w.keyword.IsSpecifier ∧
    w.keyword.isRefused = false ∧ w.keyword.storage? = none ∧ w.keyword.word? = some w := by
  cases w <;> decide

/-- No storage class or qualifier is a type word. -/
theorem effect_of_mem_others : ∀ kw ∈ storageKeywords ++ qualifierKeywords,
    kw.IsSpecifier ∧ kw.isRefused = false ∧ kw.word? = none := by
  decide

theorem storage?_of_qualifier : ∀ kw ∈ qualifierKeywords, kw.storage? = none := by
  decide

/-! ### What keywords come to -/

namespace Specifiers

/-- Keywords that may follow specifiers: none is refused, and there is one storage class at most. -/
structure Admits (r : Specifiers) (ks : List Keyword) : Prop where
  accepted : ∀ kw ∈ ks, kw.isRefused = false
  storage : r.storage.toList.length + (ks.filterMap Keyword.storage?).length ≤ 1

/-- Specifiers with keywords behind them. -/
def behind (r : Specifiers) (ks : List Keyword) : Specifiers where
  storage := r.storage.or (ks.filterMap Keyword.storage?).head?
  isConst := r.isConst || ks.any Keyword.isConst
  words := r.words ++ ks.filterMap Keyword.word?
  named := r.named
  any := r.any || !ks.isEmpty

variable {r : Specifiers} {kw : Keyword} {ks : List Keyword}

@[simp] theorem behind_nil (r : Specifiers) : r.behind [] = r := by
  simp [behind]

theorem behind_cons (r : Specifiers) (kw : Keyword) (ks : List Keyword) :
    (r.behind [kw]).behind ks = r.behind (kw :: ks) := by
  cases storage : kw.storage? <;> cases word : kw.word? <;> cases r.storage <;>
    simp [behind, storage, word, Bool.or_assoc]

theorem admits_iff : r.Admits ks ↔ (∀ kw ∈ ks, kw.isRefused = false) ∧
    r.storage.toList.length + (ks.filterMap Keyword.storage?).length ≤ 1 :=
  ⟨fun h => ⟨h.accepted, h.storage⟩, fun h => ⟨h.1, h.2⟩⟩

theorem admits_cons : r.Admits (kw :: ks) ↔ r.Admits [kw] ∧ (r.behind [kw]).Admits ks := by
  simp only [admits_iff]
  cases storage : kw.storage? <;> cases given : r.storage <;>
    simp only [behind, storage, given, List.forall_mem_cons, List.filterMap_cons,
      List.filterMap_nil, List.head?_nil, List.head?_cons, Option.none_or, Option.some_or,
      Option.toList_none, Option.toList_some, List.length_nil, List.length_cons] <;>
    grind

end Specifiers

namespace Parser

variable {s : ParserState} {kw : Keyword} {ks : List Keyword} {t : Token} {ts : List Token}

/-- A keyword is added to the specifiers in front of it, or it may not follow them. -/
theorem specifier_keyword (h : kw.IsSpecifier) (kind : t.kind = .keyword kw) (r : Specifiers)
    (ts : List Token) (s : ParserState) :
    (r.Admits [kw] →
      specifier r (s.before (t :: ts)) = .ok (.yield (r.behind [kw])) (s.before ts)) ∧
      (¬r.Admits [kw] → ∃ e u, specifier r (s.before (t :: ts)) = .error e u) := by
  obtain ⟨sp, known, noAttribute⟩ := h.exists_specifier
  obtain ⟨_, loc⟩ := t
  cases kind
  have front : (s.before (⟨.keyword kw, loc⟩ :: ts)).front = ⟨.keyword kw, loc⟩ := rfl
  have plain (accepted : kw.isRefused = false) (noStorage : kw.storage? = none) :
      r.Admits [kw] := by
    cases given : r.storage <;> simp [Specifiers.admits_iff, accepted, noStorage, given]
  rw [specifier, peek_run, front]
  simp only [known]
  cases sp with
  | «attribute» => exact absurd rfl noAttribute
  | refused e =>
      refine ⟨fun admits => ?_, fun _ => ⟨_, _, rfl⟩⟩
      have accepted := admits.accepted kw (.head _)
      simp [Keyword.isRefused, known] at accepted
  | storage c =>
      cases given : r.storage with
      | some first =>
          refine ⟨fun admits => ?_, fun _ => ⟨_, _, rfl⟩⟩
          have one := admits.storage
          simp [Keyword.storage?, known, given] at one
      | none =>
          have admits : r.Admits [kw] := by
            simp [Specifiers.admits_iff, Keyword.isRefused, Keyword.storage?, known, given]
          have added : r.behind [kw] = { r with storage := some c, any := true } := by
            simp [Specifiers.behind, Keyword.storage?, Keyword.word?, Keyword.isConst, known, given]
          exact ⟨fun _ => added ▸ rfl, fun no => absurd admits no⟩
  | const =>
      have admits := plain (by simp [Keyword.isRefused, known]) (by simp [Keyword.storage?, known])
      have added : r.behind [kw] = { r with isConst := true, any := true } := by
        simp [Specifiers.behind, Keyword.storage?, Keyword.word?, Keyword.isConst, known]
      exact ⟨fun _ => added ▸ rfl, fun no => absurd admits no⟩
  | ignored =>
      have admits := plain (by simp [Keyword.isRefused, known]) (by simp [Keyword.storage?, known])
      have added : r.behind [kw] = { r with any := true } := by
        simp [Specifiers.behind, Keyword.storage?, Keyword.word?, Keyword.isConst, known]
      exact ⟨fun _ => added ▸ rfl, fun no => absurd admits no⟩
  | word w =>
      have admits := plain (by simp [Keyword.isRefused, known]) (by simp [Keyword.storage?, known])
      have added : r.behind [kw] = { r with words := r.words ++ [w], any := true } := by
        simp [Specifiers.behind, Keyword.storage?, Keyword.word?, Keyword.isConst, known]
      exact ⟨fun _ => added ▸ rfl, fun no => absurd admits no⟩

theorem iterate_error {β : Type} {step : β → Parser (ForInStep β)} {b : β} {e : SourceFault}
    {u : ParserState} (run : step b s = .error e u) : iterate step b s = .error e u := by
  rw [iterate, run]

/-- Keywords are read one after the other as long as each may follow those in front of it. -/
theorem specifiers_keywords (specifiers : ∀ kw ∈ ks, kw.IsSpecifier)
    (kinds : ts.map Token.kind = ks.map .keyword) (r : Specifiers) (more : List Token)
    (s : ParserState) :
    (r.Admits ks → iterate specifier r (s.before (ts ++ more)) =
      iterate specifier (r.behind ks) (s.before more)) ∧
    (¬r.Admits ks → ∃ e u, iterate specifier r (s.before (ts ++ more)) = .error e u) := by
  induction ks generalizing r ts with
  | nil =>
      obtain rfl := List.map_eq_nil_iff.mp kinds
      rw [Specifiers.behind_nil]
      refine ⟨fun _ => rfl, fun no => absurd (Specifiers.admits_iff.mpr ?_) no⟩
      cases r.storage <;> simp
  | cons kw ks ih =>
      obtain ⟨t, ts, rfl, kind, kinds⟩ := List.map_eq_cons_iff.mp kinds
      obtain ⟨first, others⟩ := List.forall_mem_cons.mp specifiers
      obtain ⟨reads, fails⟩ := specifier_keyword first kind r (ts ++ more) s
      rw [Specifiers.admits_cons, ← Specifiers.behind_cons r kw ks, List.cons_append]
      by_cases admits : r.Admits [kw]
      · rw [and_iff_right admits, iterate_yield (reads admits) (Nat.lt_succ_self _)]
        exact ih others kinds _
      · obtain ⟨e, u, failed⟩ := fails admits
        exact ⟨fun both => absurd both.1 admits, fun _ => ⟨e, u, iterate_error failed⟩⟩

end Parser

/-! ### Orders -/

namespace TypeWord

/-- The order of type words does not matter. -/
theorem combine?_perm {ws ws' : List TypeWord} (h : ws.Perm ws') : combine? ws = combine? ws' := by
  simp only [combine?, h.count_eq, h.length_eq]

end TypeWord

namespace Specifiers

/-- Specifiers that differ only in the order of their type words. -/
structure Agree (r r' : Specifiers) : Prop where
  storage : r.storage = r'.storage
  isConst : r.isConst = r'.isConst
  words : r.words.Perm r'.words
  named : r.named = r'.named
  any : r.any = r'.any

variable {r r' : Specifiers} {ks ks' : List Keyword}

theorem Admits.perm (h : r.Admits ks) (perm : ks.Perm ks') : r.Admits ks' where
  accepted kw member := h.accepted kw (perm.mem_iff.mpr member)
  storage := (perm.filterMap Keyword.storage?).length_eq ▸ h.storage

/-- There is no more than one storage class, so the first one is the same in every order. -/
theorem Admits.agree (h : r.Admits ks) (perm : ks.Perm ks') :
    (r.behind ks).Agree (r.behind ks') where
  storage := by
    have few := h.storage
    have classes := perm.filterMap Keyword.storage?
    dsimp only [behind]
    cases first : ks.filterMap Keyword.storage? with
    | nil =>
        rw [first] at classes
        rw [List.nil_perm.mp classes]
    | cons c cs =>
        rw [first, List.length_cons] at few
        obtain rfl := List.length_eq_zero_iff.mp (by omega : cs.length = 0)
        rw [first] at classes
        rw [List.singleton_perm.mp classes]
  isConst := congrArg (r.isConst || ·) (perm.any_eq ..)
  words := (perm.filterMap Keyword.word?).append_left r.words
  named := rfl
  any := by rw [behind, behind, perm.isEmpty_eq]

theorem isConst_behind (ks : List Keyword) :
    (({} : Specifiers).behind ks).isConst = ks.contains .constKw := by
  rw [behind, Bool.false_or, Bool.eq_iff_iff, List.any_eq_true, List.contains_iff_mem]
  simp only [Keyword.isConst_iff, exists_eq_right]

/-- The one storage class is that of a keyword. -/
theorem Admits.storage_iff (h : ({} : Specifiers).Admits ks) (c : Storage) :
    (({} : Specifiers).behind ks).storage = some c ↔ c.keyword ∈ ks := by
  have given : c ∈ ks.filterMap Keyword.storage? ↔ c.keyword ∈ ks := by
    simp only [List.mem_filterMap, Storage.storage?_eq_some, exists_eq_right']
  have few := h.storage
  rw [← given, behind]
  cases classes : ks.filterMap Keyword.storage? with
  | nil => simp
  | cons first others =>
      rw [classes, List.length_cons] at few
      obtain rfl := List.length_eq_zero_iff.mp (by omega : others.length = 0)
      simp [eq_comm]

end Specifiers

namespace Parser

/-- Runs that end in the same state, with the same error or with related results. -/
inductive EndsAlike {α : Type} (R : α → α → Prop) :
    (one other : EStateM.Result SourceFault ParserState α) → Prop
  | ok {a b : α} {t : ParserState} (related : R a b) : EndsAlike R (.ok a t) (.ok b t)
  | error {e : SourceFault} {t : ParserState} : EndsAlike R (.error e t) (.error e t)

theorem EndsAlike.bind {α β : Type} {R : β → β → Prop} {p : Parser α} {f g : α → Parser β}
    {s : ParserState} (h : ∀ a t, EndsAlike R (f a t) (g a t)) :
    EndsAlike R ((p >>= f) s) ((p >>= g) s) := by
  rw [bind_run, bind_run]
  cases p s with
  | ok a t => exact h a t
  | error e t => exact .error

/-- Rounds that both go on or are both done, with related results. -/
inductive RoundsAlike {β : Type} (R : β → β → Prop) : (one other : ForInStep β) → Prop
  | yield {b c : β} (related : R b c) : RoundsAlike R (.yield b) (.yield c)
  | done {b c : β} (related : R b c) : RoundsAlike R (.done b) (.done c)

variable {r r' : Specifiers}

/-- A loop keeps what each of its rounds keeps. -/
theorem iterate_alike {β : Type} {R : β → β → Prop} {step : β → Parser (ForInStep β)}
    (rounds : ∀ b c s, R b c → EndsAlike (RoundsAlike R) (step b s) (step c s)) {b c : β}
    (related : R b c) (s : ParserState) : EndsAlike R (iterate step b s) (iterate step c s) := by
  have round := rounds b c s related
  unfold iterate
  generalize step b s = one at round
  generalize step c s = other at round
  cases round with
  | error => exact .error
  | ok ends =>
      cases ends with
      | done related => exact .ok related
      | yield related =>
          dsimp only
          split
          case isTrue spent => exact iterate_alike rounds related _
          case isFalse => exact .ok related
termination_by s.rest.length

theorem specifier_alike (s : ParserState) (agree : r.Agree r') :
    EndsAlike (RoundsAlike Specifiers.Agree) (specifier r s) (specifier r' s) := by
  obtain ⟨storage, isConst, words, named, any⟩ := r
  obtain ⟨_, _, words', _, _⟩ := r'
  obtain ⟨rfl, rfl, perm, rfl, rfl⟩ := agree
  dsimp only at perm
  rw [specifier, peek_run, specifier, peek_run]
  generalize s.front = t
  obtain ⟨kind, loc⟩ := t
  cases kind with
  | ident name =>
      refine .bind fun found t => ?_
      dsimp only
      rw [perm.isEmpty_eq]
      split
      case h_1 ty =>
        split
        case isTrue => exact .bind fun _ _ => .ok (.yield ⟨rfl, rfl, perm, rfl, rfl⟩)
        case isFalse => exact .ok (.done ⟨rfl, rfl, perm, rfl, rfl⟩)
      case h_2 => exact .ok (.done ⟨rfl, rfl, perm, rfl, rfl⟩)
  | keyword kw =>
      dsimp only
      cases Specifier.ofKeyword? kw with
      | none => exact .ok (.done ⟨rfl, rfl, perm, rfl, rfl⟩)
      | some sp =>
          cases sp with
          | refused e => exact .error
          | storage c =>
              cases storage with
              | some first => exact .error
              | none => exact .bind fun _ _ => .ok (.yield ⟨rfl, rfl, perm, rfl, rfl⟩)
          | «attribute» =>
              exact .bind fun _ _ => .bind fun _ _ => .ok (.yield ⟨rfl, rfl, perm, rfl, rfl⟩)
          | const | ignored => exact .bind fun _ _ => .ok (.yield ⟨rfl, rfl, perm, rfl, rfl⟩)
          | word w =>
              exact .bind fun _ _ => .ok (.yield ⟨rfl, rfl, perm.append_right _, rfl, rfl⟩)
  | _ => exact .ok (.done ⟨rfl, rfl, perm, rfl, rfl⟩)

/-- What specifiers come to that were read from a place on. -/
def specified (start : Location) (r : Specifiers) : Parser DeclSpec := do
  if !r.any then fail start (.expectedSpecifiers (← peek).kind)
  return ⟨← specifiedType r start, r.storage, r.isConst⟩

theorem declSpecifiers_run (s : ParserState) : declSpecifiers s =
    match iterate specifier {} s with
    | .ok r t => specified s.front.loc r t
    | .error e t => .error e t := by
  refine Eq.trans (bind_run (iterate specifier {}) (specified s.front.loc) s) ?_
  cases iterate specifier {} s <;> rfl

/-- Two runs refuse, or come to the same specifiers in the same state. Only places may differ. -/
inductive SameSpecifiers : (one other : EStateM.Result SourceFault ParserState DeclSpec) → Prop
  | refused {e e' : SourceFault} {t t' : ParserState} : SameSpecifiers (.error e t) (.error e' t')
  | given {spec : DeclSpec} {t t' : ParserState}
      (state : { t with warnings := t'.warnings } = t')
      (warnings : t.warnings.map SemanticNotice.warning = t'.warnings.map SemanticNotice.warning) :
      SameSpecifiers (.ok spec t) (.ok spec t')

theorem specified_alike (agree : r.Agree r') (start start' : Location) (s : ParserState) :
    SameSpecifiers (specified start r s) (specified start' r' s) := by
  obtain ⟨storage, isConst, words, named, any⟩ := r
  obtain ⟨_, _, words', _, _⟩ := r'
  obtain ⟨rfl, rfl, perm, rfl, rfl⟩ := agree
  dsimp only at perm
  have combined := TypeWord.combine?_perm perm
  unfold specified specifiedType
  rw [perm.isEmpty_eq, combined]
  cases any with
  | false => exact .refused
  | true =>
      cases named with
      | some ty =>
          cases words'.isEmpty with
          | true => exact .given rfl rfl
          | false => exact .refused
      | none =>
          cases TypeWord.combine? words' with
          | none => cases words'.isEmpty <;> exact .refused
          | some ty =>
              cases words'.isEmpty with
              | true => exact .given rfl (by simp)
              | false => exact .given rfl rfl

/-- Whatever is behind specifiers, their order does not matter. -/
theorem declSpecifiers_alike {ks ks' : List Keyword} (specifiers : ∀ kw ∈ ks, kw.IsSpecifier)
    (perm : ks.Perm ks') {ts ts' : List Token} (kinds : ts.map Token.kind = ks.map .keyword)
    (kinds' : ts'.map Token.kind = ks'.map .keyword) (more : List Token) (s : ParserState) :
    SameSpecifiers (declSpecifiers (s.before (ts ++ more)))
      (declSpecifiers (s.before (ts' ++ more))) := by
  have specifiers' : ∀ kw ∈ ks', kw.IsSpecifier :=
    fun kw member => specifiers kw (perm.mem_iff.mpr member)
  obtain ⟨reads, fails⟩ := specifiers_keywords specifiers kinds {} more s
  obtain ⟨reads', fails'⟩ := specifiers_keywords specifiers' kinds' {} more s
  rw [declSpecifiers_run, declSpecifiers_run]
  by_cases admits : ({} : Specifiers).Admits ks
  · -- The loops go on behind the keywords, where typedef names and attributes may follow.
    rw [reads admits, reads' (admits.perm perm)]
    have both := iterate_alike (fun _ _ => specifier_alike) (admits.agree perm) (s.before more)
    generalize iterate specifier (Specifiers.behind {} ks) (s.before more) = one at both
    generalize iterate specifier (Specifiers.behind {} ks') (s.before more) = other at both
    cases both with
    | ok agree => exact specified_alike agree ..
    | error => exact .refused
  · obtain ⟨e, t, failed⟩ := fails admits
    obtain ⟨e', t', failed'⟩ := fails' fun other => admits (other.perm perm.symm)
    rw [failed, failed']
    exact .refused

end Parser

/-! ### The types of C -/

/-- The types that C makes of the words `void`, `char`, `short`, `int`, `long`, `signed`, `unsigned`
and `double`. -/
inductive BasicType where
  | void | char | signedChar | unsignedChar | short | unsignedShort | int | unsignedInt
  | long | unsignedLong | longLong | unsignedLongLong | double

namespace BasicType

/-- The type words that C lists for a type. They may stand in any order. -/
def spellings : BasicType → List (List TypeWord)
  | void => [[.void]]
  | char => [[.char]]
  | signedChar => [[.signed, .char]]
  | unsignedChar => [[.unsigned, .char]]
  | short => [[.short], [.signed, .short], [.short, .int], [.signed, .short, .int]]
  | unsignedShort => [[.unsigned, .short], [.unsigned, .short, .int]]
  | int => [[.int], [.signed], [.signed, .int]]
  | unsignedInt => [[.unsigned], [.unsigned, .int]]
  | long => [[.long], [.signed, .long], [.long, .int], [.signed, .long, .int]]
  | unsignedLong => [[.unsigned, .long], [.unsigned, .long, .int]]
  | longLong => [[.long, .long], [.signed, .long, .long], [.long, .long, .int],
      [.signed, .long, .long, .int]]
  | unsignedLongLong => [[.unsigned, .long, .long], [.unsigned, .long, .long, .int]]
  | double => [[.double]]

/-- The type on a machine whose characters are signed and whose `long` has 64 bits. -/
def ty : BasicType → CType
  | void => .void
  | char | signedChar => .int ⟨.w8, true⟩
  | unsignedChar => .int ⟨.w8, false⟩
  | short => .int ⟨.w16, true⟩
  | unsignedShort => .int ⟨.w16, false⟩
  | int => .int ⟨.w32, true⟩
  | unsignedInt => .int ⟨.w32, false⟩
  | long | longLong => .int ⟨.w64, true⟩
  | unsignedLong | unsignedLongLong => .int ⟨.w64, false⟩
  | double => .double

/-- Keywords that C allows for a type: in some order, one of its spellings, any qualifiers and a
storage class at most. -/
inductive NamedBy (b : BasicType) (ks : List Keyword) : Prop
  | intro {ws : List TypeWord} {storage : Option Keyword} {qualifiers : List Keyword}
      (spelled : ws ∈ b.spellings) (isStorage : ∀ kw ∈ storage, kw ∈ storageKeywords)
      (areQualifiers : ∀ kw ∈ qualifiers, kw ∈ qualifierKeywords)
      (order : ks.Perm (storage.toList ++ qualifiers ++ ws.map TypeWord.keyword))

theorem combine?_of_spelled {b : BasicType} :
    ∀ ws ∈ b.spellings, TypeWord.combine? ws = some b.ty := by
  cases b <;> decide

theorem ne_nil_of_spelled {b : BasicType} : ∀ ws ∈ b.spellings, ws ≠ [] := by
  cases b <;> decide

namespace NamedBy

variable {b : BasicType} {ks : List Keyword}

/-- Each keyword is a storage class or a qualifier, or a type word. -/
theorem cases (named : b.NamedBy ks) : ∀ kw ∈ ks,
    kw ∈ storageKeywords ++ qualifierKeywords ∨ ∃ w : TypeWord, w.keyword = kw := by
  obtain ⟨-, isStorage, areQualifiers, order⟩ := named
  intro kw member
  rcases List.mem_append.mp (order.mem_iff.mp member) with others | word
  · rcases List.mem_append.mp others with storage | qualifier
    · exact .inl (List.mem_append_left _ (isStorage kw (Option.mem_toList.mp storage)))
    · exact .inl (List.mem_append_right _ (areQualifiers kw qualifier))
  · obtain ⟨w, -, same⟩ := List.mem_map.mp word
    exact .inr ⟨w, same⟩

theorem specifiers (named : b.NamedBy ks) : ∀ kw ∈ ks, kw.IsSpecifier := by
  intro kw member
  rcases named.cases kw member with others | ⟨w, rfl⟩
  · exact (effect_of_mem_others kw others).1
  · exact w.effect_keyword.1

theorem admits (named : b.NamedBy ks) : ({} : Specifiers).Admits ks where
  accepted kw member := by
    rcases named.cases kw member with others | ⟨w, rfl⟩
    · exact (effect_of_mem_others kw others).2.1
    · exact w.effect_keyword.2.1
  storage := by
    obtain @⟨ws, storage, qualifiers, -, -, areQualifiers, order⟩ := named
    have noQualifier : qualifiers.filterMap Keyword.storage? = [] :=
      List.filterMap_eq_nil_iff.mpr fun kw member =>
        storage?_of_qualifier kw (areQualifiers kw member)
    have noWord : (ws.map TypeWord.keyword).filterMap Keyword.storage? = [] := by
      rw [List.filterMap_map]
      exact List.filterMap_eq_nil_iff.mpr fun w _ => w.effect_keyword.2.2.1
    have classes := (order.filterMap Keyword.storage?).length_eq
    rw [List.filterMap_append, List.filterMap_append, noQualifier, noWord, List.append_nil,
      List.append_nil] at classes
    have few := List.length_filterMap_le Keyword.storage? storage.toList
    have one : storage.toList.length ≤ 1 := by cases storage <;> simp
    have none : ({} : Specifiers).storage.toList.length = 0 := rfl
    omega

theorem words (named : b.NamedBy ks) :
    ∃ ws ∈ b.spellings, (({} : Specifiers).behind ks).words.Perm ws := by
  obtain @⟨ws, storage, qualifiers, spelled, isStorage, areQualifiers, order⟩ := named
  have other (kw) (member : kw ∈ storage.toList ++ qualifiers) : kw.word? = none := by
    refine (effect_of_mem_others kw (List.mem_append.mpr ?_)).2.2
    exact (List.mem_append.mp member).imp (fun given => isStorage kw (Option.mem_toList.mp given))
      (areQualifiers kw)
  have own : (ws.map TypeWord.keyword).filterMap Keyword.word? = ws := by
    rw [List.filterMap_map]
    exact (List.filterMap_congr fun w _ => w.effect_keyword.2.2.2).trans List.filterMap_some
  have read := order.filterMap Keyword.word?
  rw [List.filterMap_append, List.filterMap_eq_nil_iff.mpr other, own] at read
  exact ⟨ws, spelled, read⟩

end NamedBy

end BasicType

namespace Parser

variable {ks : List Keyword} {ts more : List Token} {b : BasicType}

/-- Specifiers with type words that combine. -/
theorem specified_words {r : Specifiers} {ty : CType} (noName : r.named = none)
    (some : r.words ≠ []) (combined : TypeWord.combine? r.words = .some ty) (any : r.any = true)
    (start : Location) (s : ParserState) :
    specified start r s = .ok ⟨ty, r.storage, r.isConst⟩ s := by
  have noWords : r.words.isEmpty = false := List.isEmpty_eq_false_iff.mpr some
  have type : specifiedType r start s = .ok ty s := by
    simp only [specifiedType, noName, noWords, combined]
    rfl
  simp only [specified, any]
  exact bind_ok type

/-- Keywords that C allows are read as the type that it assigns. -/
theorem declSpecifiers_named (named : b.NamedBy ks) (kinds : ts.map Token.kind = ks.map .keyword)
    (ends : NoKeyword (more.map Token.kind)) (s : ParserState) :
    ∃ c, declSpecifiers (s.before (ts ++ more)) =
        .ok ⟨b.ty, c, ks.contains .constKw⟩ (s.before more) ∧
      ∀ c', c = some c' ↔ c'.keyword ∈ ks := by
  have admits := named.admits
  obtain ⟨ws, spelled, words⟩ := named.words
  have combined : TypeWord.combine? (({} : Specifiers).behind ks).words = some b.ty :=
    (TypeWord.combine?_perm words).trans (BasicType.combine?_of_spelled ws spelled)
  have some : (({} : Specifiers).behind ks).words ≠ [] := fun none =>
    BasicType.ne_nil_of_spelled ws spelled (List.nil_perm.mp (none ▸ words))
  have any : (({} : Specifiers).behind ks).any = true := by
    cases ks with
    | nil => exact absurd rfl some
    | cons => rfl
  have read := (specifiers_keywords named.specifiers kinds {} more s).1 admits
  have done : iterate specifier {} (s.before (ts ++ more)) =
      .ok (({} : Specifiers).behind ks) (s.before more) :=
    read.trans (iterate_done (specifier_done (.inl some) (front_of_noKeyword ends)))
  refine ⟨(({} : Specifiers).behind ks).storage, ?_, admits.storage_iff⟩
  rw [declSpecifiers_run, done, ← Specifiers.isConst_behind]
  exact specified_words rfl some combined any ..

/-- Specifiers in another order are refused as well, or have the same type, storage class and
constness, whatever is behind them. In front of a declarator, those that C allows have the type that
it assigns. -/
theorem specifiers_unordered {ks' : List Keyword} {ts' : List Token}
    (specifiers : ∀ kw ∈ ks, kw.IsSpecifier) (perm : ks.Perm ks')
    (kinds : ts.map Token.kind = ks.map .keyword) (kinds' : ts'.map Token.kind = ks'.map .keyword)
    (more : List Token) (s : ParserState) :
    SameSpecifiers (declSpecifiers (s.before (ts ++ more)))
        (declSpecifiers (s.before (ts' ++ more))) ∧
      ∀ b : BasicType, b.NamedBy ks → NoKeyword (more.map Token.kind) →
        ∃ c, declSpecifiers (s.before (ts ++ more)) =
            .ok ⟨b.ty, c, ks.contains .constKw⟩ (s.before more) ∧
          ∀ c', c = some c' ↔ c'.keyword ∈ ks :=
  ⟨declSpecifiers_alike specifiers perm kinds kinds' more s,
    fun _ named ends => declSpecifiers_named named kinds ends s⟩

/-- An unsigned type whose words stand around a storage class and a qualifier, and its words in
another order in front of the same name. -/
theorem specifiers_unordered_longLong :
    let ks : List Keyword := [.longKw, .staticKw, .intKw, .constKw, .unsignedKw, .longKw]
    let ks' : List Keyword := [.constKw, .unsignedKw, .longKw, .longKw, .intKw, .staticKw]
    let tokens (ks : List Keyword) : List Token := ks.map fun kw => ⟨.keyword kw, .start⟩
    let name : List Token := [⟨.ident "n", .start⟩]
    let s : ParserState := { rest := [], endLoc := .start }
    (∀ kw ∈ ks, kw.IsSpecifier) ∧ ks.Perm ks' ∧
      SameSpecifiers (declSpecifiers (s.before (tokens ks ++ name)))
        (declSpecifiers (s.before (tokens ks' ++ name))) ∧
      BasicType.unsignedLongLong.NamedBy ks ∧ NoKeyword (name.map Token.kind) ∧
      ∃ c, declSpecifiers (s.before (tokens ks ++ name)) =
          .ok ⟨.int ⟨.w64, false⟩, c, true⟩ (s.before name) ∧
        ∀ c', c = some c' ↔ c'.keyword ∈ ks := by
  intro ks ks' tokens name s
  have specifiers : ∀ kw ∈ ks, kw.IsSpecifier := by decide
  have perm : ks.Perm ks' := by decide
  have order : ks.Perm ([.staticKw] ++ [.constKw] ++
      [TypeWord.unsigned, .long, .long, .int].map TypeWord.keyword) := by decide
  have named : BasicType.unsignedLongLong.NamedBy ks :=
    @BasicType.NamedBy.intro _ _ _ (some .staticKw) _ (.tail _ (.head _)) (by decide) (by decide)
      order
  have kinds : (tokens ks).map Token.kind = ks.map .keyword := rfl
  have kinds' : (tokens ks').map Token.kind = ks'.map .keyword := rfl
  have ends : NoKeyword (name.map Token.kind) := nofun
  obtain ⟨same, types⟩ := specifiers_unordered specifiers perm kinds kinds' name s
  exact ⟨specifiers, perm, same, named, ends, types _ named ends⟩

end Parser

end LiveC
