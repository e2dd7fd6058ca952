import LiveC.Parser.Initializer
import LiveC.Proofs.ParserState

/-!
The length that an initialiser gives to an open array: it is bounded by the tokens of the source
and the bytes of their strings.
-/

namespace LiveC

theorem TokenKind.elements_pos (k : TokenKind) : 1 ≤ k.elements := by
  unfold elements
  split <;> exact Nat.le_add_left _ _

theorem length_le_initialisers (tokens : List Token) : tokens.length ≤ initialisers tokens := by
  induction tokens with
  | nil => exact Nat.le_refl 0
  | cons t tokens ih =>
      have positive := t.kind.elements_pos
      rw [initialisers, List.length_cons]
      omega

theorem initialisers_le_of_suffix {tokens rest : List Token} (h : rest <:+ tokens) :
    initialisers rest ≤ initialisers tokens := by
  obtain ⟨before, rfl⟩ := h
  induction before with
  | nil => exact Nat.le_refl _
  | cons t before ih => exact Nat.le_trans ih (Nat.le_add_left _ _)

/-- What an initialiser makes of a type: the type itself, or an open array becomes one of a
length. -/
def CType.FilledBy (limit : Nat) (ty result : CType) : Prop :=
  result = ty ∨ ∃ element n, ty = .array element none ∧ result = .array element (some n) ∧
    n ≤ limit

theorem CType.FilledBy.mono {limit limit' : Nat} {ty result : CType} (h : ty.FilledBy limit result)
    (le : limit ≤ limit') : ty.FilledBy limit' result := by
  obtain same | ⟨element, n, opened, filled, bound⟩ := h
  · exact .inl same
  · exact .inr ⟨element, n, opened, filled, Nat.le_trans bound le⟩

theorem CType.FilledBy.stored {tokens : List Token} {ty result : CType}
    (h : ty.FilledBy (initialisers tokens + 1) result) (declared : ty.Declared) :
    result.IsStored tokens := by
  obtain rfl | ⟨element, n, rfl, rfl, le⟩ := h
  · exact declared.stored tokens
  · exact ⟨declared.1, .inr ⟨element, n, rfl, declared.2.1, le⟩⟩

namespace Parser

variable {ι : Type} {s t : ParserState}

/-- One more string literal. -/
def stringStep (bytes : List UInt8) : Parser (ForInStep (List UInt8)) := do
  match (← peek).kind with
  | .str more =>
    let _ ← next
    return .yield (bytes ++ more)
  | _ => return .done bytes

/-- The bytes read and those ahead do not become more. -/
theorem stringStep_length {bytes : List UInt8} {r : ForInStep (List UInt8)}
    (run : stringStep bytes s = .ok r t) :
    r.value.length + initialisers t.rest ≤ bytes.length + initialisers s.rest := by
  obtain ⟨front, u, seen, run⟩ := bind_eq_ok run
  cases seen
  cases kind : (s.rest.head?.getD ⟨.eof, s.endLoc⟩).kind with
  | str more =>
      rw [kind] at run
      cases run
      cases rest : s.rest with
      | nil =>
          rw [rest] at kind
          cases kind
      | cons first after =>
          rw [rest] at kind
          have weight : initialisers (first :: after) = more.length + 1 + initialisers after := by
            rw [initialisers, show first.kind = .str more from kind]
            rfl
          simp only [List.length_append, ForInStep.value, rest, List.tail_cons, weight]
          omega
  | _ =>
      rw [kind] at run
      cases run
      exact Nat.le_refl _

theorem adjacentStrings_length {bytes all : List UInt8}
    (run : adjacentStrings bytes s = .ok all t) :
    all.length + initialisers t.rest ≤ bytes.length + initialisers s.rest :=
  iterate_invariant
    (I := fun read u => read.length + initialisers u.rest ≤ bytes.length + initialisers s.rest)
    (fun _ _ _ _ before round => Nat.le_trans (stringStep_length round) before) bytes s
    (Nat.le_refl _) run

/-- One more element of a brace list. -/
def elementStep {ι : Type} (element : Nat → Parser (List ι)) (length : Option Nat)
    (read : Nat × List ι) : Parser (ForInStep (Nat × List ι)) := do
  if ← check .rbrace then return .done read
  else
    if length.any (· ≤ read.1) then refuse (← loc) .excessElements
    let state := (read.1 + 1, read.2 ++ (← element read.1))
    if ← eat .comma then return .yield state else return .done state

theorem elementStep_count {element : Nat → Parser (List ι)} {length : Option Nat}
    {read : Nat × List ι} {r : ForInStep (Nat × List ι)}
    (run : elementStep element length read s = .ok r t) : r.value.1 ≤ read.1 + 1 := by
  obtain ⟨closed, _, -, run⟩ := bind_eq_ok run
  cases closed with
  | true =>
      cases run
      exact Nat.le_succ _
  | false =>
      simp only [Bool.false_eq_true, if_false] at run
      split at run
      · obtain ⟨loc, _, -, run⟩ := bind_eq_ok run
        cases run
      · obtain ⟨items, _, -, run⟩ := bind_eq_ok run
        obtain ⟨comma, _, -, run⟩ := bind_eq_ok run
        cases comma <;>
        · cases run
          exact Nat.le_refl _

/-- Every round but the last one consumes a token. -/
theorem elements_count {element : Nat → Parser (List ι)} {length : Option Nat}
    {r : Nat × List ι} (run : elements element length s = .ok r t) : r.1 ≤ s.rest.length + 1 := by
  have counted (read : Nat × List ι) (s : ParserState)
      (run : iterate (elementStep element length) read s = .ok r t) :
      r.1 ≤ read.1 + s.rest.length + 1 := by
    fun_induction iterate (elementStep element length) read s with
    | case1 => cases run
    | case2 read s c u round =>
        cases run
        have := elementStep_count round
        simp only [ForInStep.value] at this
        omega
    | case3 read s c u round lt ih =>
        have := elementStep_count round
        have := ih run
        simp only [ForInStep.value] at *
        omega
    | case4 read s c u round =>
        cases run
        have := elementStep_count round
        simp only [ForInStep.value] at this
        omega
  have := counted (0, []) s run
  omega

theorem size_of_byte {element : CType} (byte : element.intType?.any (·.width == .w8) = true)
    (integer : element.isInteger = true) : element.size = 1 := by
  cases element with
  | int t =>
      have width : t.width = .w8 := by simpa [CType.intType?] using byte
      simp [CType.size, CType.checkedSize, IntType.size, width, Width.bytes]
  | void | double | pointer | array | function => cases integer

/-- Looking ahead leaves the parser where it is. Only arrays of characters are strings. -/
theorem stringForArray_cases {element : CType} {r : Option (List UInt8)}
    (run : stringForArray element s = .ok r t) :
    r = none ∧ t = s ∨ element.size = 1 ∧ ∃ (braced : Bool) (u : ParserState), u.rest <:+ s.rest ∧ (do
      let bytes ← adjacentStrings []
      if braced then expect .rbrace
      return some bytes : Parser (Option (List UInt8))) u = .ok r t := by
  obtain ⟨opened, u, seen, run⟩ := bind_eq_ok run
  obtain rfl : s = u := by
    cases seen
    rfl
  obtain ⟨second, u, seen, run⟩ := bind_eq_ok run
  obtain rfl : s = u := by
    cases seen
    rfl
  obtain ⟨isString, u, seen, run⟩ := bind_eq_ok run
  obtain rfl : s = u := by
    cases seen
    rfl
  dsimp only at run
  generalize (opened && second.kind matches .str _) = braced at run
  split at run
  case isTrue guard =>
    simp only [Bool.and_eq_true] at guard
    refine .inr ⟨size_of_byte guard.1.1 guard.1.2, braced, ?_⟩
    cases braced with
    | true =>
        obtain ⟨_, v, consumed, run⟩ := bind_eq_ok run
        cases consumed
        exact ⟨_, List.tail_suffix _, run⟩
    | false => exact ⟨s, List.suffix_rfl, run⟩
  case isFalse =>
    cases run
    exact .inl ⟨rfl, rfl⟩

theorem stringForArray_length {element : CType} {bytes : List UInt8}
    (run : stringForArray element s = .ok (some bytes) t) : bytes.length ≤ initialisers s.rest := by
  obtain ⟨nothing, -⟩ | ⟨-, braced, u, suffix, run⟩ := stringForArray_cases run
  · cases nothing
  · obtain ⟨all, v, read, run⟩ := bind_eq_ok run
    have length := adjacentStrings_length read
    have ahead := initialisers_le_of_suffix suffix
    obtain rfl : all = bytes := by
      cases braced with
      | true =>
          obtain ⟨_, w, -, run⟩ := bind_eq_ok run
          cases run
          rfl
      | false =>
          cases run
          rfl
    rw [List.length_nil] at length
    omega

theorem state_of_stringForArray {element : CType} (run : stringForArray element s = .ok none t) :
    t = s := by
  obtain ⟨-, rfl⟩ | ⟨-, braced, u, -, run⟩ := stringForArray_cases run
  · rfl
  · obtain ⟨all, v, -, run⟩ := bind_eq_ok run
    cases braced with
    | true =>
        obtain ⟨_, w, -, run⟩ := bind_eq_ok run
        cases run
    | false => cases run

theorem suffix_of_eat {p : Punct} {eaten : Bool} (run : eat p s = .ok eaten t) :
    t.rest <:+ s.rest := by
  obtain ⟨found, u, seen, run⟩ := bind_eq_ok run
  cases seen
  split at run
  · obtain ⟨_, v, consumed, run⟩ := bind_eq_ok run
    cases consumed
    cases run
    exact List.tail_suffix _
  · cases run
    exact List.suffix_rfl

/-- An initialiser changes the type of an object only by filling in the length of an open array. -/
theorem initializer_fills {g : Productions} {form : InitForm ι}
    {nested : CType → Nat → Parser (CType × List ι)} {ty : CType} {offset : Nat}
    {r : CType × List ι} (run : initializer g form nested ty offset s = .ok r t) :
    ty.FilledBy (initialisers s.rest + 1) r.1 := by
  obtain ⟨loc, u, seen, run⟩ := bind_eq_ok run
  obtain rfl : s = u := by
    cases seen
    rfl
  have filled {element : CType} {length : Option Nat} {n : Nat}
      (le : n ≤ initialisers s.rest + 1) : (CType.array element length).FilledBy
        (initialisers s.rest + 1) (.array element (some (length.getD n))) := by
    cases length with
    | none => exact .inr ⟨element, n, rfl, rfl, le⟩
    | some l => exact .inl rfl
  have scalar (ty : CType) {e : Expr} {u : ParserState} (run : (do
      let item ← typed do form.scalar ty offset (← e.assignConvert ty loc) loc
      return (ty, [item]) : Parser (CType × List ι)) u = .ok r t) :
      ty.FilledBy (initialisers s.rest + 1) r.1 := by
    obtain ⟨item, _, -, run⟩ := bind_eq_ok run
    cases run
    exact .inl rfl
  cases ty with
  | array element length =>
      obtain ⟨bytes, v, read, behind⟩ := bind_eq_ok run
      cases bytes with
      | some bytes =>
          cases behind
          exact filled (Nat.succ_le_succ (stringForArray_length read))
      | none =>
          obtain rfl := state_of_stringForArray read
          obtain ⟨opened, w, consumed, behind⟩ := bind_eq_ok behind
          cases opened with
          | false =>
              obtain ⟨_, _, refused, -⟩ := bind_eq_ok behind
              cases refused
          | true =>
              obtain ⟨counted, x, listed, behind⟩ := bind_eq_ok behind
              obtain ⟨_, _, -, behind⟩ := bind_eq_ok behind
              cases behind
              refine filled (Nat.le_trans (elements_count listed) (Nat.succ_le_succ ?_))
              exact Nat.le_trans (length_le_initialisers _)
                (initialisers_le_of_suffix (suffix_of_eat consumed))
  | void | int | double | pointer | function =>
      obtain ⟨braced, v, -, behind⟩ := bind_eq_ok run
      obtain ⟨e, w, -, behind⟩ := bind_eq_ok behind
      cases braced with
      | false => exact scalar _ behind
      | true =>
          obtain ⟨_, _, -, behind⟩ := bind_eq_ok behind
          obtain ⟨_, _, -, behind⟩ := bind_eq_ok behind
          exact scalar _ behind

/-- The objects that initialisers fill in are laid out. -/
theorem initializer_stored {σ : ParserScope} {H : Prop} {g : Productions} {form : InitForm ι}
    {nested : CType → Nat → Parser (CType × List ι)} {ty : CType} {offset : Nat}
    {Q : CType × List ι → Prop}
    (h : Keeps σ.course H (initializer g form nested ty offset) Q) (declared : H → ty.Declared) :
    Keeps σ.course H (initializer g form nested ty offset) fun r =>
      r.1.IsStored σ.tokens ∧ Q r := by
  refine h.and_run fun s r t pre valid run => ?_
  have fills := initializer_fills run
  refine (fills.mono (Nat.succ_le_succ ?_)).stored (declared pre)
  exact initialisers_le_of_suffix valid.rest

end Parser
end LiveC
