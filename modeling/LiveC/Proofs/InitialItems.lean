import LiveC.Parser.Statement
import LiveC.Proofs.DeclarationGrammar
import LiveC.Proofs.Sequence

/-!
The items of an initialiser of static duration. They fill the object in order: a string fills an
array of characters, a constant a scalar, and a list the elements of an array one after the other.
So the items of an object are apart from each other and inside of it, and an address fills an
element that is a pointer.
-/

namespace LiveC

/-- Items fill an object of a type at an offset. -/
inductive CType.FilledWith : CType → Nat → List InitItem → Prop
  | string {element : CType} {n offset : Nat} {bytes : List UInt8} : element.size = 1 →
      bytes.length = n → FilledWith (.array element (some n)) offset [⟨offset, .bytes bytes⟩]
  | scalar {ty : CType} {offset : Nat} {value : InitValue} : ty.isArray = false →
      value.width = ty.size → (∀ target addend, value = .address target addend →
        ty.isPointer = true) →
      FilledWith ty offset [⟨offset, value⟩]
  | list {element : CType} {n offset : Nat} {parts : List (List InitItem)} : parts.length ≤ n →
      (∀ i part, parts[i]? = some part →
        FilledWith element (offset + i * element.size) part) →
      FilledWith (.array element (some n)) offset parts.flatten

/-- An initialiser leaves a type as it is that is complete. -/
theorem CType.FilledBy.of_complete {limit : Nat} {ty result : CType} (h : ty.FilledBy limit result)
    (complete : ty.isComplete = true) : result = ty := by
  obtain same | ⟨element, n, rfl, -, -⟩ := h
  · exact same
  · cases complete

/-- Only a pointer takes an address. -/
theorem Expr.isPointer_of_constantValue? {e : Expr} {ty : CType} {target : AddressTarget}
    {addend : Int} (found : e.constantValue? ty = some (.address target addend)) :
    ty.isPointer = true := by
  unfold constantValue? at found
  split at found
  case h_1 => cases found
  case h_2 => split at found <;> cases found
  case h_3 =>
    split at found
    case isTrue pointer => exact pointer
    case isFalse => cases found

namespace Parser

variable {s t : ParserState}

/-! ### What is read -/

theorem ok_of_typed {α : Type} {step : Typing α} {a : α} (run : typed step s = .ok a t) :
    ∃ warnings, step s.warnings = .ok (a, warnings) := by
  unfold typed at run
  split at run
  case h_1 same =>
    cases run
    exact ⟨_, same⟩
  case h_2 => cases run

/-- The initialiser that is read fills the object, once its type is complete. -/
def Fills (ty : CType) (offset : Nat) (p : Parser (CType × List InitItem)) : Prop :=
  ∀ s r t, p s = .ok r t → (ty.isComplete = true → r.1 = ty) ∧
    (r.1.isComplete = true → r.1.FilledWith offset r.2)

/-- The elements of a brace list are read one by one, and there are no more of them than fit. -/
theorem parts_of_elements {ι : Type} {P : Nat → List ι → Prop} {element : Nat → Parser (List ι)}
    (each : ∀ i s part t, element i s = .ok part t → P i part) {length : Option Nat}
    {r : Nat × List ι} (run : elements element length s = .ok r t) :
    ∃ parts : List (List ι), parts.length = r.1 ∧ r.2 = parts.flatten ∧
      (∀ i part, parts[i]? = some part → P i part) ∧ ∀ n ∈ length, r.1 ≤ n := by
  let Read (read : Nat × List ι) : Prop := ∃ parts : List (List ι), parts.length = read.1 ∧
    read.2 = parts.flatten ∧ (∀ i part, parts[i]? = some part → P i part) ∧
    ∀ n ∈ length, read.1 ≤ n
  have run : iterate (elementStep element length) (0, []) s = .ok r t := run
  refine iterate_invariant (I := fun read _ => Read read)
    (fun read s r t before round => ?_) (0, []) s ⟨[], rfl, rfl, nofun, fun _ _ => Nat.zero_le _⟩ run
  obtain ⟨closed, u, -, round⟩ := bind_eq_ok round
  cases closed with
  | true =>
      cases round
      exact before
  | false =>
      simp only [Bool.false_eq_true, if_false] at round
      split at round
      case isTrue =>
        obtain ⟨loc, v, -, round⟩ := bind_eq_ok round
        cases round
      case isFalse fits =>
        obtain ⟨part, v, found, round⟩ := bind_eq_ok round
        obtain ⟨comma, w, -, round⟩ := bind_eq_ok round
        obtain ⟨parts, count, items, holds, -⟩ := before
        have more : Read (read.1 + 1, read.2 ++ part) := by
          refine ⟨parts ++ [part], ?_, ?_, fun i p listed => ?_, fun n known => ?_⟩
          · rw [List.length_append, count, List.length_singleton]
          · rw [items, List.flatten_append, List.flatten_singleton]
          · rcases Nat.lt_trichotomy i parts.length with lt | rfl | gt
            · exact holds i p (by rwa [List.getElem?_append_left lt] at listed)
            · obtain rfl : part = p := by simpa using listed
              exact count ▸ each _ _ _ _ found
            · have none : (parts ++ [part])[i]? = none :=
                List.getElem?_eq_none (by rw [List.length_append]; exact gt)
              cases none.symm.trans listed
          · subst known
            have more : read.1 < n := by simpa using fits
            exact more
        cases comma with
        | true | false =>
            cases round
            exact more

/-- An initialiser fills the object if those of the elements do. -/
theorem initializer_filled {g : Productions} {nested : CType → Nat → Parser (CType × List InitItem)}
    (inner : ∀ ty offset, Fills ty offset (nested ty offset)) (ty : CType) (offset : Nat) :
    Fills ty offset (initializer g .static nested ty offset) := by
  intro s r t run
  refine ⟨fun complete => (initializer_fills run).of_complete complete, fun complete => ?_⟩
  obtain ⟨loc, u, -, run⟩ := bind_eq_ok run
  have scalar {ty : CType} (isArray : ty.isArray = false) {e : Expr} {u : ParserState} (run : (do
      let item ← typed do InitForm.static.scalar ty offset (← e.assignConvert ty loc) loc
      return (ty, [item]) : Parser (CType × List InitItem)) u = .ok r t) :
      r.1.FilledWith offset r.2 := by
    obtain ⟨item, v, step, run⟩ := bind_eq_ok run
    cases run
    obtain ⟨warnings, step⟩ := ok_of_typed step
    obtain ⟨e', warnings', -, step⟩ := LiveC.bind_eq_ok.mp step
    dsimp only [InitForm.static] at step
    cases found : e'.constantValue? ty with
    | some value =>
        rw [found] at step
        obtain ⟨rfl, -⟩ := LiveC.pure_eq_ok.mp step
        refine .scalar isArray (width_of_constantValue? found) fun target addend same => ?_
        exact Expr.isPointer_of_constantValue? (same ▸ found)
    | none =>
        rw [found] at step
        exact absurd step throw_ne_ok
  cases ty with
  | array element length =>
      obtain ⟨bytes, v, read, behind⟩ := bind_eq_ok run
      cases bytes with
      | some bytes =>
          cases behind
          obtain ⟨nothing, -⟩ | ⟨characters, -⟩ := stringForArray_cases read
          · cases nothing
          · exact .string characters (length_fitString bytes length)
      | none =>
          obtain ⟨opened, w, consumed, behind⟩ := bind_eq_ok behind
          cases opened with
          | false =>
              obtain ⟨_, _, refused, -⟩ := bind_eq_ok behind
              cases refused
          | true =>
              obtain ⟨counted, x, listed, behind⟩ := bind_eq_ok behind
              obtain ⟨_, y, -, behind⟩ := bind_eq_ok behind
              cases behind
              have element_complete : element.isComplete = true :=
                (Bool.and_eq_true_iff.mp complete).2
              obtain ⟨parts, count, items, filled, fits⟩ := parts_of_elements
                (P := fun i part => element.FilledWith (offset + i * element.size) part)
                (fun i s part t found => by
                  obtain ⟨r, u, found, last⟩ := bind_eq_ok found
                  cases last
                  obtain ⟨same, filled⟩ := inner _ _ _ _ _ found
                  rw [same element_complete] at filled
                  exact filled element_complete) listed
              dsimp only at items ⊢
              rw [items]
              refine .list ?_ filled
              cases length with
              | none => exact Nat.le_of_eq count
              | some n => exact count ▸ fits n rfl
  | void | int | double | pointer | function =>
      obtain ⟨braced, v, -, behind⟩ := bind_eq_ok run
      obtain ⟨e, w, -, behind⟩ := bind_eq_ok behind
      cases braced with
      | false => exact scalar rfl behind
      | true =>
          obtain ⟨_, _, -, behind⟩ := bind_eq_ok behind
          obtain ⟨_, _, -, behind⟩ := bind_eq_ok behind
          exact scalar rfl behind

/-- What is read for an object of static duration fills it. -/
theorem productions_fill (n : Nat) (ty : CType) (offset : Nat) :
    Fills ty offset ((productions n).staticInit ty offset) := by
  induction n generalizing ty offset with
  | zero =>
      intro s r t run
      obtain ⟨loc, u, -, run⟩ := bind_eq_ok run
      cases run
  | succ n ih => exact initializer_filled ih ty offset

end Parser

/-! ### Where the items are -/

/-- A type has an element of a type at a distance from its start. -/
inductive CType.ElementAt : CType → Nat → CType → Prop
  | self {ty : CType} : ElementAt ty 0 ty
  | element {element ty : CType} {n i distance : Nat} : i < n → ElementAt element distance ty →
      ElementAt (.array element (some n)) (i * element.size + distance) ty

/-- A type with an element that takes up space takes up space. -/
theorem CType.ElementAt.size_pos {ty t : CType} {distance : Nat} (h : ty.ElementAt distance t)
    (positive : 0 < t.size) : 0 < ty.size := by
  induction h with
  | self => exact positive
  | @element element ty n i distance inside _ ih =>
      have inner := ih positive
      unfold CType.size at inner ⊢
      unfold checkedSize
      cases size : element.checkedSize with
      | none => simp [Word.modulus]
      | some size' =>
          rw [size, Option.getD_some] at inner
          have total : 0 < size' * n := Nat.mul_pos inner (Nat.zero_lt_of_lt inside)
          simp only [Option.bind_eq_bind, Option.bind_some, Option.getD_some]
          split
          · exact total
          · simp [Word.modulus]

/-- An item stores in front of another one. -/
def InitItem.Before (a b : InitItem) : Prop := a.offset + a.value.width ≤ b.offset

namespace CType

variable {ty element pointee : CType} {offset distance n : Nat} {items part : List InitItem}

/-- A pointer among the elements of a type is aligned in it, and so is the type. -/
theorem ElementAt.aligned (h : ty.ElementAt distance (.pointer pointee)) (sized : ty.Sized) :
    ty.align = 8 ∧ 8 ∣ distance ∧ 8 ∣ ty.size := by
  generalize pointer : CType.pointer pointee = t at h
  induction h with
  | self =>
      subst pointer
      exact ⟨rfl, Nat.dvd_zero 8, Nat.dvd_refl 8⟩
  | @element element ty n i distance inside _ ih =>
      obtain ⟨size, inner⟩ := Parser.sized_array sized
      obtain ⟨align, here, whole⟩ := ih (inner (Nat.zero_lt_of_lt inside)) pointer
      refine ⟨align, Nat.dvd_add (Nat.dvd_mul_left_of_dvd whole i) here, ?_⟩
      rw [size]
      exact Nat.dvd_mul_right_of_dvd whole n

theorem size_le_of_isArray (h : ty.isArray = false) : ty.size ≤ 8 := by
  cases ty with
  | int t =>
      obtain ⟨w, s⟩ := t
      cases w <;> simp [size, checkedSize, IntType.size, Width.bytes]
  | array => cases h
  | void | double | pointer | function => exact Nat.le_of_ble_eq_true rfl

namespace FilledWith

/-- The part of an element lies in the element. -/
theorem part_within {parts : List (List InitItem)} (sized : (array element (some n)).Sized)
    (fits : parts.length ≤ n) (each : ∀ i part, parts[i]? = some part → element.Sized →
      ∀ x ∈ part, InitItem.Within (offset + i * element.size)
        (offset + i * element.size + element.size) x)
    {i : Nat} (found : parts[i]? = some part) : i < n ∧ ∀ x ∈ part,
      InitItem.Within (offset + i * element.size) (offset + (i + 1) * element.size) x := by
  have inside : i < n := Nat.lt_of_lt_of_le (List.getElem?_eq_some_iff.mp found).1 fits
  refine ⟨inside, fun x member => ?_⟩
  have within := each i part found ((Parser.sized_array sized).2 (Nat.zero_lt_of_lt inside)) x member
  rwa [Nat.succ_mul, ← Nat.add_assoc]

/-- The items of an object are in order and lie in it. -/
theorem spread (h : ty.FilledWith offset items) (sized : ty.Sized) :
    items.Pairwise InitItem.Before ∧ ∀ i ∈ items, i.Within offset (offset + ty.size) := by
  induction h with
  | @string element n offset bytes character length =>
      refine ⟨List.pairwise_singleton _ _, List.forall_mem_singleton.mpr ⟨Nat.le_refl _, ?_⟩⟩
      rw [(Parser.sized_array sized).1, character, Nat.one_mul, ← length]
      exact Nat.le_refl _
  | @scalar ty offset value isArray width address =>
      refine ⟨List.pairwise_singleton _ _, List.forall_mem_singleton.mpr ⟨Nat.le_refl _, ?_⟩⟩
      exact Nat.le_of_eq (congrArg _ width)
  | @list element n offset parts fits each ih =>
      obtain ⟨size, inner⟩ := Parser.sized_array sized
      have within {i : Nat} {part : List InitItem} (found : parts[i]? = some part) :=
        part_within sized fits (fun i part found small => (ih i part found small).2) found
      have ordered : ∀ part ∈ parts, part.Pairwise InitItem.Before := by
        intro part member
        obtain ⟨i, found⟩ := List.mem_iff_getElem?.mp member
        exact (ih i part found (inner (Nat.zero_lt_of_lt (within found).1))).1
      refine ⟨List.pairwise_flatten.mpr ⟨ordered, ?_⟩, fun x member => ?_⟩
      · refine List.pairwise_iff_getElem.mpr fun i j hi hj lt x inFirst y inSecond => ?_
        have stop := ((within (List.getElem?_eq_getElem hi)).2 x inFirst).2
        have start := ((within (List.getElem?_eq_getElem hj)).2 y inSecond).1
        have le : (i + 1) * element.size ≤ j * element.size := Nat.mul_le_mul_right _ lt
        exact Nat.le_trans stop (Nat.le_trans (Nat.add_le_add_left le _) start)
      · obtain ⟨part, inParts, inPart⟩ := List.mem_flatten.mp member
        obtain ⟨i, found⟩ := List.mem_iff_getElem?.mp inParts
        obtain ⟨inside, inPart'⟩ := within found
        obtain ⟨start, stop⟩ := inPart' x inPart
        have le : (i + 1) * element.size ≤ n * element.size := Nat.mul_le_mul_right _ inside
        refine ⟨Nat.le_trans (Nat.le_add_right _ _) start, Nat.le_trans stop ?_⟩
        rw [size, Nat.mul_comm element.size]
        exact Nat.add_le_add_left le _

/-- An address is the item of an element that is a pointer. -/
theorem elementAt (h : ty.FilledWith offset items) {i : InitItem} (member : i ∈ items)
    {target : AddressTarget} {addend : Int} (value : i.value = .address target addend) :
    ∃ pointee distance, i.offset = offset + distance ∧
      ty.ElementAt distance (.pointer pointee) := by
  induction h with
  | string =>
      obtain rfl := List.mem_singleton.mp member
      cases value
  | @scalar ty offset v isArray width address =>
      obtain rfl := List.mem_singleton.mp member
      have pointer := address target addend value
      cases ty with
      | pointer pointee => exact ⟨pointee, 0, rfl, .self⟩
      | void | int | double | array | function => cases pointer
  | @list element n offset parts fits each ih =>
      obtain ⟨part, inParts, inPart⟩ := List.mem_flatten.mp member
      obtain ⟨k, found⟩ := List.mem_iff_getElem?.mp inParts
      obtain ⟨pointee, distance, same, at'⟩ := ih k part found inPart
      have inside := Nat.lt_of_lt_of_le (List.getElem?_eq_some_iff.mp found).1 fits
      exact ⟨pointee, _, by rw [same, Nat.add_assoc], .element inside at'⟩

/-- An integer is as narrow as a scalar. -/
theorem int_size_le (h : ty.FilledWith offset items) {i : InitItem} (member : i ∈ items)
    {v : Word} {size : Nat} (value : i.value = .int v size) : size ≤ 8 := by
  induction h with
  | string =>
      obtain rfl := List.mem_singleton.mp member
      cases value
  | @scalar ty offset v isArray width address =>
      obtain rfl := List.mem_singleton.mp member
      obtain rfl : v = .int _ size := value
      have same : size = ty.size := width
      exact same ▸ size_le_of_isArray isArray
  | @list element n offset parts fits each ih =>
      obtain ⟨part, inParts, inPart⟩ := List.mem_flatten.mp member
      obtain ⟨k, found⟩ := List.mem_iff_getElem?.mp inParts
      exact ih k part found inPart

end FilledWith

end CType

/-- What holds of a variable where it is defined. -/
structure GlobalVar.Made (v : GlobalVar) : Prop where
  complete : v.ty.isComplete = true
  writable : v.isConst = true → v.ty.isPointer = false
  filled : ∀ items ∈ v.init, v.ty.FilledWith 0 items

end LiveC
