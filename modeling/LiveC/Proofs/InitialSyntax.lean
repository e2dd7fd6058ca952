import LiveC.Proofs.ConstantSyntax

/-!
Initialisers as they are written: constants, string literals and nested brace lists. What one says
of an object, its completed type and the values of its parts, does not depend on whether the object
is static or local.
-/

namespace LiveC

/-- An initialiser as it is written. -/
inductive Initial where
  | value (c : Constant)
  /-- String literals next to each other. -/
  | text (first : List UInt8) (others : List (List UInt8))
  /-- A brace list, perhaps with a comma behind the last element. -/
  | braces (items : List Initial) (trailing : Bool)

/-- The value of a part of an object. -/
inductive Leaf where
  /-- A string that fills an array of characters. -/
  | text (element : CType) (length : Option Nat) (bytes : List UInt8)
  /-- A literal of the type of the part. -/
  | value (literal : Expr)
  /-- A pointer to a string literal, with its terminating zero. -/
  | address (ty : CType) (bytes : List UInt8)

/-- Whether strings initialise arrays of a type. -/
def CType.isCharacter (element : CType) : Bool :=
  element.intType?.any (·.width == .w8) && element.isInteger

namespace Initial

mutual

/-- The tokens of an initialiser. -/
def kinds : Initial → List TokenKind
  | value c => c.kinds
  | text first others => (first :: others).map .str
  | braces items trailing => .punct .lbrace :: (listKinds items trailing ++ [.punct .rbrace])

def listKinds : List Initial → Bool → List TokenKind
  | [], _ => []
  | i :: rest, trailing =>
      i.kinds ++ ((if rest.isEmpty && !trailing then [] else [.punct .comma]) ++
        listKinds rest trailing)

end

/-- The string that an initialiser is, perhaps in braces. -/
def bytes? : Initial → Option (List UInt8)
  | text first others | braces [text first others] false => some (first :: others).flatten
  | _ => none

/-- The initialiser in the braces around a scalar. -/
def unbraced : Initial → Initial
  | braces [i] _ => i
  | i => i

/-- The value of a scalar. -/
def leaf? (i : Initial) (ty : CType) : Option Leaf :=
  match i.unbraced with
  | value c => some (.value (c.literal.convert ty))
  | text first others => some (.address ty ((first :: others).flatten ++ [0]))
  | braces .. => none

mutual

/-- What an initialiser says of an object of a type at an offset: its completed type, and the
values of its parts with their offsets. -/
def read (i : Initial) (ty : CType) (offset : Nat) : Option (CType × List (Nat × Leaf)) :=
  match i, ty with
  | braces items trailing, .array element length =>
      match if element.isCharacter then bytes? (braces items trailing) else none with
      | some bytes => some (.array element (some (length.getD (bytes.length + 1))),
          [(offset, .text element length bytes)])
      | none =>
          if length.any (· < items.length) then none
          else (readItems items element offset).map fun leaves =>
            (.array element (some (length.getD items.length)), leaves)
  | text first others, .array element length =>
      if element.isCharacter then
        let bytes := (first :: others).flatten
        some (.array element (some (length.getD (bytes.length + 1))),
          [(offset, .text element length bytes)])
      else none
  | value _, .array .. => none
  | i, ty => (i.leaf? ty).map fun leaf => (ty, [(offset, leaf)])

/-- What the elements of a brace list say of the elements of an array. -/
def readItems (items : List Initial) (element : CType) (offset : Nat) :
    Option (List (Nat × Leaf)) :=
  match items with
  | [] => some []
  | i :: rest =>
      match i.read element offset, readItems rest element (offset + element.size) with
      | some (_, leaves), some others => some (leaves ++ others)
      | _, _ => none

end

end Initial

namespace Initial

variable {i : Initial} {element : CType} {length : Option Nat} {offset : Nat}

theorem read_string {bytes : List UInt8} (character : element.isCharacter = true)
    (found : i.bytes? = some bytes) : i.read (.array element length) offset =
      some (.array element (some (length.getD (bytes.length + 1))),
        [(offset, .text element length bytes)]) := by
  cases i with
  | value c => cases found
  | text first others =>
      cases found
      rw [read, if_pos character]
  | braces items trailing => rw [read, if_pos character, found]

theorem read_list {items : List Initial} {trailing : Bool} {leaves : List (Nat × Leaf)}
    (plain : element.isCharacter = true → (braces items trailing).bytes? = none)
    (fits : length.any (· < items.length) = false)
    (said : readItems items element offset = some leaves) :
    (braces items trailing).read (.array element length) offset =
      some (.array element (some (length.getD items.length)), leaves) := by
  have none : (if element.isCharacter then (braces items trailing).bytes? else none) = none := by
    split
    case isTrue character => exact plain character
    case isFalse => rfl
  rw [read, none]
  dsimp only
  rw [if_neg (Bool.eq_false_iff.mp fits), said]
  rfl

theorem read_scalar {ty : CType} {leaf : Leaf} (notArray : ty.isArray = false)
    (value : i.leaf? ty = some leaf) : i.read ty offset = some (ty, [(offset, leaf)]) := by
  unfold read
  split
  case h_1 | h_2 | h_3 => cases notArray
  case h_4 => rw [value]; rfl

end Initial

namespace Parser

variable {g : Productions} {s t : ParserState} {n : Nat} {more : List TokenKind}

/-! ### String literals -/

/-- String literals are only added. -/
theorem strings_transition : UnitTransition fun s t => s.unit.strings <+: t.unit.strings where
  refl _ := List.prefix_rfl
  trans := List.IsPrefix.trans
  rest _ _ := List.prefix_rfl
  warnings _ _ := List.prefix_rfl
  errors _ _ := List.prefix_rfl
  bind _ _ _ := List.prefix_rfl
  bindFile _ _ _ := List.prefix_rfl
  symbol _ _ _ _ := List.prefix_rfl
  strings _ _ := List.prefix_append ..
  locals _ _ := List.prefix_rfl
  staticLocals _ _ := List.prefix_rfl
  global _ _ _ := List.prefix_rfl
  block h := h
  loop h := h
  forget _ _ := List.prefix_rfl
  place _ _ _ _ := List.prefix_rfl
  functions _ _ := List.prefix_rfl

theorem stringStep_ending (bytes : List UInt8) (ending : Ending s.kinds) :
    stringStep bytes s = .ok (.done bytes) s := by
  obtain ⟨p, ks, kinds, -⟩ := ending
  rw [stringStep, peek_run, front_of_kinds kinds]
  rfl

/-- String literals that an end is behind. -/
theorem adjacentStrings_run (parts : List (List UInt8)) (bytes : List UInt8)
    (kinds : s.kinds = parts.map .str ++ more) (ending : Ending more) :
    ∃ t, adjacentStrings bytes s = .ok (bytes ++ parts.flatten) t ∧ t.kinds = more := by
  induction parts generalizing s bytes with
  | nil =>
      refine ⟨s, ?_, kinds⟩
      rw [List.flatten_nil, List.append_nil]
      exact iterate_done (stringStep_ending bytes (kinds.symm ▸ ending))
  | cons part parts ih =>
      have one : stringStep bytes s =
          .ok (.yield (bytes ++ part)) { s with rest := s.rest.tail } := by
        rw [stringStep, peek_run, front_of_kinds kinds]
        rfl
      obtain ⟨t, run, left⟩ := ih (bytes ++ part) (kinds_tail kinds)
      refine ⟨t, (iterate_yield one (length_tail_lt kinds)).trans ?_, left⟩
      rw [List.flatten_cons, ← List.append_assoc]
      exact run

/-- A string literal that was read as an operand. -/
def IsString (bytes : List UInt8) (e : Expr) (t : ParserState) : Prop :=
  ∃ length loc id, e = .str ⟨.array (.int .char) (some length), loc⟩ id ∧
    t.unit.strings[id]? = some bytes

theorem primary_text (first : List UInt8) (others : List (List UInt8)) :
    Reads (primary g) (Initial.text first others).kinds
      (IsString ((first :: others).flatten ++ [0])) := by
  intro s e t more kinds ending run
  rw [primary, next_run, front_of_kinds kinds] at run
  obtain ⟨u, read, left⟩ := adjacentStrings_run others first (kinds_tail kinds) ending
  dsimp only at run
  rw [bind_ok read] at run
  cases run
  exact ⟨left, _, _, _, rfl, List.getElem?_concat_length⟩

theorem reads_text (n : Nat) (first : List UInt8) (others : List (List UInt8)) :
    Reads (productions n).assignment (Initial.text first others).kinds
        (IsString ((first :: others).flatten ++ [0])) ∧
      Reads (productions n).cast (Initial.text first others).kinds
        (IsString ((first :: others).flatten ++ [0])) := by
  induction n with
  | zero =>
      constructor <;>
      · intro s e t more kinds ending run
        cases run
  | succ n ih =>
      exact ⟨extends_assignment.reads ih.2,
        reads_cast (.str first) (by simp) (primary_text first others)⟩

/-! ### Operands -/

/-- What an initialiser of a scalar is read as. -/
def Denotes : Initial → Expr → ParserState → Prop
  | .value c, e, _ => e.Is c.literal
  | .text first others, e, t => IsString ((first :: others).flatten ++ [0]) e t
  | .braces .., _, _ => False

/-- The first tokens of initialisers. -/
theorem exists_initial (i : Initial) :
    ∃ k ks, i.kinds = k :: ks ∧ (k = .punct .lbrace ∨ StartsValue k) := by
  cases i with
  | value c =>
      obtain ⟨k, ks, kinds, value⟩ := exists_kinds c
      exact ⟨k, ks, kinds, .inr value⟩
  | text first others => exact ⟨_, _, rfl, .inr (.str first)⟩
  | braces items trailing => exact ⟨_, _, rfl, .inl rfl⟩

/-- No expression begins with a brace. -/
theorem cast_brace {p : Punct} {ks : List TokenKind} (h : s.kinds = .punct p :: ks)
    (brace : p = .lbrace ∨ p = .rbrace) {e : Expr} (run : cast g s = .ok e t) : False := by
  have other : TokenKind.punct p ≠ .punct .lparen := by
    obtain rfl | rfl := brace <;> decide
  have operand : unary g s = postfixed g s := by
    rw [unary, peek_run, front_of_kinds h]
    obtain rfl | rfl := brace <;> rfl
  rw [cast_of_other (atTypeName_other h other), operand] at run
  obtain ⟨e', t', read, -⟩ := extends_postfixed run
  rw [primary, next_run, front_of_kinds h] at read
  obtain rfl | rfl := brace <;> cases read

theorem assignment_brace {p : Punct} {ks : List TokenKind} (h : s.kinds = .punct p :: ks)
    (brace : p = .lbrace ∨ p = .rbrace) {e : Expr}
    (run : (productions n).assignment s = .ok e t) : False := by
  cases n with
  | zero => cases run
  | succ n =>
      obtain ⟨e', t', read, -⟩ := extends_assignment run
      cases n with
      | zero => cases read
      | succ n => exact cast_brace h brace read

theorem reads_operand (n : Nat) (i : Initial) :
    Reads (productions n).assignment i.kinds (Denotes i) := by
  cases i with
  | value c => exact (reads_constant n c).1
  | text first others => exact (reads_text n first others).1
  | braces items trailing =>
      intro s e t more kinds ending run
      exact (assignment_brace kinds (.inl rfl) run).elim

end Parser

end LiveC
