import LiveC.Proofs.DeclarationGrammar
import LiveC.Proofs.InitialSyntax

/-!
Where the values of an initialiser lie in the object: in order, apart from each other and inside
of it. Storing them one after the other therefore leaves each where it belongs, and what no value
takes up as it was.
-/

namespace LiveC

namespace Leaf

/-- How many bytes of the object a value takes up. -/
def size : Leaf → Nat
  | text _ length bytes => length.getD (bytes.length + 1)
  | value literal => literal.ty.size
  | address ty _ => ty.size

def isText : Leaf → Bool
  | text .. => true
  | value _ | address .. => false

def isAddress : Leaf → Bool
  | address .. => true
  | text .. | value _ => false

end Leaf

/-- Values lie in order between two offsets. -/
def Placed (lo hi : Nat) : List (Nat × Leaf) → Prop
  | [] => lo ≤ hi
  | (offset, leaf) :: rest => lo ≤ offset ∧ Placed (offset + leaf.size) hi rest

namespace Placed

variable {lo mid hi : Nat} {leaves others : List (Nat × Leaf)}

theorem le (h : Placed lo hi leaves) : lo ≤ hi := by
  induction leaves generalizing lo with
  | nil => exact h
  | cons p rest ih => exact Nat.le_trans h.1 (Nat.le_trans (Nat.le_add_right _ _) (ih h.2))

theorem append (h : Placed lo mid leaves) (k : Placed mid hi others) :
    Placed lo hi (leaves ++ others) := by
  induction leaves generalizing lo with
  | nil =>
      cases others with
      | nil => exact Nat.le_trans h k
      | cons p rest => exact ⟨Nat.le_trans h k.1, k.2⟩
  | cons p rest ih => exact ⟨h.1, ih h.2⟩

theorem mono (h : Placed lo mid leaves) (le : mid ≤ hi) : Placed lo hi leaves := by
  have last : Placed mid hi [] := le
  rw [← List.append_nil leaves]
  exact h.append last

/-- Every value lies between the offsets. -/
theorem within (h : Placed lo hi leaves) {p : Nat × Leaf} (member : p ∈ leaves) :
    lo ≤ p.1 ∧ p.1 + p.2.size ≤ hi := by
  induction leaves generalizing lo with
  | nil => cases member
  | cons first rest ih =>
      obtain rfl | member := List.mem_cons.mp member
      · exact ⟨h.1, h.2.le⟩
      · obtain ⟨behind, inside⟩ := ih h.2 member
        exact ⟨Nat.le_trans h.1 (Nat.le_trans (Nat.le_add_right _ _) behind), inside⟩

end Placed

namespace CType

variable {element : CType}

/-- An array of unknown length whose elements are complete, or a complete type. -/
def isCompletable : CType → Bool
  | array element none => element.isComplete
  | t => t.isComplete

theorem isComplete_element {length : Option Nat} (h : (array element length).isCompletable = true) :
    element.isComplete = true := by
  cases length with
  | none => exact h
  | some n =>
      have complete : (array element (some n)).isComplete = true := h
      exact (Bool.and_eq_true_iff.mp complete).2

theorem isCompletable_of_isComplete {t : CType} (h : t.isComplete = true) :
    t.isCompletable = true := by
  cases t with
  | array element length =>
      obtain ⟨known, complete⟩ := Bool.and_eq_true_iff.mp h
      obtain ⟨n, rfl⟩ := Option.isSome_iff_exists.mp known
      exact h
  | void | int | double | pointer | function => exact h

theorem size_of_isPointer {t : CType} (h : t.isPointer = true) : t.size = 8 := by
  cases t with
  | pointer => rfl
  | void | int | double | array | function => cases h

/-- Characters are bytes. -/
theorem size_of_isCharacter (h : element.isCharacter = true) : element.size = 1 := by
  cases element with
  | int t =>
      obtain ⟨w, s⟩ := t
      cases w with
      | w8 => rfl
      | w16 | w32 | w64 => cases h
  | void | double | pointer | array | function => cases h

end CType

namespace Initial

variable {i : Initial} {ty result : CType} {offset : Nat} {leaves : List (Nat × Leaf)}

/-- An initialiser is a string for an array of characters, a list for an array, or a scalar. -/
theorem read_cases (h : i.read ty offset = some (result, leaves)) :
    (∃ element length bytes, ty = .array element length ∧ element.isCharacter = true ∧
      result = .array element (some (length.getD (bytes.length + 1))) ∧
      leaves = [(offset, .text element length bytes)]) ∨
    (∃ element length items trailing, ty = .array element length ∧ i = braces items trailing ∧
      length.any (· < items.length) = false ∧
      result = .array element (some (length.getD items.length)) ∧
      readItems items element offset = some leaves) ∨
    (ty.isArray = false ∧ result = ty ∧
      ∃ leaf, i.leaf? ty = some leaf ∧ leaves = [(offset, leaf)]) := by
  unfold read at h
  split at h
  case h_1 items trailing element length =>
    split at h
    case h_1 bytes found =>
      cases h
      refine .inl ⟨_, _, _, rfl, ?_, rfl, rfl⟩
      split at found
      case isTrue character => exact character
      case isFalse => cases found
    case h_2 =>
      split at h
      case isTrue => cases h
      case isFalse fits =>
        obtain ⟨found, given, same⟩ := Option.map_eq_some_iff.mp h
        cases same
        exact .inr (.inl ⟨_, _, items, trailing, rfl, rfl, Bool.eq_false_iff.mpr fits, rfl, given⟩)
  case h_2 first others element length =>
    split at h
    case isTrue character =>
      cases h
      exact .inl ⟨_, _, _, rfl, character, rfl, rfl⟩
    case isFalse => cases h
  case h_3 => cases h
  case h_4 list string constant =>
    obtain ⟨leaf, value, same⟩ := Option.map_eq_some_iff.mp h
    cases same
    refine .inr (.inr ⟨?_, rfl, leaf, value, rfl⟩)
    cases ty with
    | void | int | double | pointer | function => rfl
    | array element length =>
        cases i with
        | value c => exact (constant c element length rfl rfl).elim
        | text first others => exact (string first others element length rfl rfl).elim
        | braces items trailing => exact (list items trailing element length rfl rfl).elim

/-- The type is completed. -/
theorem completed_of_read (h : i.read ty offset = some (result, leaves))
    (completable : ty.isCompletable = true) :
    result.isComplete = true ∧ (ty.isComplete = true → result = ty) := by
  obtain ⟨element, length, bytes, rfl, -, rfl, -⟩ | ⟨element, length, items, _, rfl, -, -, rfl, -⟩ |
    ⟨notArray, rfl, -⟩ := read_cases h
  · have inner := CType.isComplete_element completable
    refine ⟨inner, fun complete => ?_⟩
    obtain ⟨n, rfl⟩ := Option.isSome_iff_exists.mp (Bool.and_eq_true_iff.mp complete).1
    rfl
  · have inner := CType.isComplete_element completable
    refine ⟨inner, fun complete => ?_⟩
    obtain ⟨n, rfl⟩ := Option.isSome_iff_exists.mp (Bool.and_eq_true_iff.mp complete).1
    rfl
  · refine ⟨?_, fun _ => rfl⟩
    cases result with
    | array => cases notArray
    | void | int | double | pointer | function => exact completable

/-- The value of a scalar takes up the object. -/
theorem size_of_leaf? {leaf : Leaf} (h : i.leaf? ty = some leaf) :
    leaf.size = ty.size ∧ leaf.isText = false := by
  unfold leaf? at h
  split at h
  case h_1 c =>
    cases h
    exact ⟨congrArg CType.size (Expr.ty_convert ..), rfl⟩
  case h_2 =>
    cases h
    exact ⟨rfl, rfl⟩
  case h_3 => cases h

mutual

/-- The values that an initialiser gives to the parts of an object lie in it. -/
theorem placed_read (i : Initial) {ty result : CType} {offset : Nat} {leaves : List (Nat × Leaf)}
    (h : i.read ty offset = some (result, leaves)) (completable : ty.isCompletable = true)
    (sized : result.Sized) : Placed offset (offset + result.size) leaves := by
  obtain ⟨element, length, bytes, rfl, character, rfl, rfl⟩ |
    ⟨element, length, items, trailing, rfl, rfl, fits, rfl, given⟩ |
    ⟨-, rfl, leaf, value, rfl⟩ := read_cases h
  · obtain ⟨size, -⟩ := Parser.sized_array sized
    rw [CType.size_of_isCharacter character, Nat.one_mul] at size
    exact ⟨Nat.le_refl _, Nat.le_of_eq (congrArg (offset + ·) size.symm)⟩
  · obtain ⟨size, inner⟩ := Parser.sized_array sized
    have enough : items.length ≤ length.getD items.length := by
      cases length with
      | none => exact Nat.le_refl _
      | some n => simpa using fits
    rw [size]
    refine (placed_readItems items given (CType.isComplete_element completable) fun some => ?_).mono
      (Nat.add_le_add_left (Nat.mul_le_mul_left _ enough) offset)
    exact inner (Nat.lt_of_lt_of_le (List.length_pos_iff.mpr some) enough)
  · exact ⟨Nat.le_refl _, Nat.le_of_eq (congrArg (offset + ·) (size_of_leaf? value).1)⟩

theorem placed_readItems (items : List Initial) {element : CType} {offset : Nat}
    {leaves : List (Nat × Leaf)} (h : readItems items element offset = some leaves)
    (complete : element.isComplete = true) (sized : items ≠ [] → element.Sized) :
    Placed offset (offset + element.size * items.length) leaves := by
  cases items with
  | nil =>
      cases h
      exact Nat.le_add_right _ _
  | cons j rest =>
      rw [readItems] at h
      split at h
      case h_1 first _ said given =>
        cases h
        have whole := sized nofun
        obtain ⟨-, same⟩ := completed_of_read said (CType.isCompletable_of_isComplete complete)
        have here := placed_read j said (CType.isCompletable_of_isComplete complete)
          (same complete ▸ whole)
        rw [same complete] at here
        have behind := placed_readItems rest given complete fun _ => whole
        rw [List.length_cons, Nat.mul_succ, Nat.add_comm (element.size * rest.length),
          ← Nat.add_assoc]
        exact here.append behind
      case h_2 => cases h

end

end Initial

/-! ### Pictures -/

/-- The bytes of an object from an offset on, where a function gives each. -/
def window (b : Nat → UInt8) (offset n : Nat) : List UInt8 :=
  (List.range n).map fun j => b (offset + j)

@[simp] theorem length_window (b : Nat → UInt8) (offset n : Nat) :
    (window b offset n).length = n := by
  simp [window]

theorem getElem?_window {b : Nat → UInt8} {offset n j : Nat} (h : j < n) :
    (window b offset n)[j]? = some (b (offset + j)) := by
  simp [window, h]

theorem window_succ (b : Nat → UInt8) (offset n : Nat) :
    window b offset (n + 1) = b offset :: window b (offset + 1) n := by
  simp [window, List.range_succ_eq_map, Function.comp_def, Nat.add_assoc, Nat.add_comm 1]

theorem window_add (b : Nat → UInt8) (offset n k : Nat) :
    window b offset (n + k) = window b offset n ++ window b (offset + n) k := by
  simp [window, List.range_add, Function.comp_def, Nat.add_assoc]

theorem window_eq_zero {b : Nat → UInt8} {offset n : Nat}
    (h : ∀ k, offset ≤ k → k < offset + n → b k = 0) : window b offset n = List.replicate n 0 := by
  refine List.eq_replicate_iff.mpr ⟨length_window .., fun x member => ?_⟩
  obtain ⟨j, inside, rfl⟩ := List.mem_map.mp member
  exact h _ (Nat.le_add_right _ _) (Nat.add_lt_add_left (List.mem_range.mp inside) _)

theorem window_congr {b b' : Nat → UInt8} {offset n : Nat}
    (h : ∀ k, offset ≤ k → k < offset + n → b k = b' k) : window b offset n = window b' offset n :=
  List.map_congr_left fun _ inside => h _ (Nat.le_add_right _ _)
    (Nat.add_lt_add_left (List.mem_range.mp inside) _)

section

variable (clean : Leaf → Bool) (R : Leaf → List UInt8 → Prop)

/-- Values are stored one after the other, each so that its bytes are as they should be. Those that
need it find zeros where they are stored. -/
inductive Paints : (Nat → UInt8) → List (Nat × Leaf) → (Nat → UInt8) → Prop where
  | nil {b : Nat → UInt8} : Paints b [] b
  | cons {b b' b'' : Nat → UInt8} {offset : Nat} {leaf : Leaf} {rest : List (Nat × Leaf)} :
      (∀ k, k < offset ∨ offset + leaf.size ≤ k → b' k = b k) →
      ((clean leaf = true → ∀ k, offset ≤ k → k < offset + leaf.size → b k = 0) →
        R leaf (window b' offset leaf.size)) →
      Paints b' rest b'' → Paints b ((offset, leaf) :: rest) b''

/-- An object up to a size shows values: each has its bytes, and all others are zero. -/
structure Pictured (size : Nat) (leaves : List (Nat × Leaf)) (b : Nat → UInt8) : Prop where
  values : ∀ p ∈ leaves, R p.2 (window b p.1 p.2.size)
  gaps : ∀ k < size, (∀ p ∈ leaves, k < p.1 ∨ p.1 + p.2.size ≤ k) → b k = 0

variable {clean R} {lo hi size : Nat} {leaves : List (Nat × Leaf)} {b b' : Nat → UInt8}

/-- Values in order, stored into zeros, are all there in the end. -/
theorem Paints.shows (h : Paints clean R b leaves b') (placed : Placed lo hi leaves)
    (zero : ∀ k, lo ≤ k → k < hi → b k = 0) :
    (∀ k, k < lo → b' k = b k) ∧ (∀ p ∈ leaves, R p.2 (window b' p.1 p.2.size)) ∧
      ∀ k, lo ≤ k → k < hi → (∀ p ∈ leaves, k < p.1 ∨ p.1 + p.2.size ≤ k) → b' k = 0 := by
  induction h generalizing lo with
  | nil => exact ⟨fun _ _ => rfl, nofun, fun k least most _ => zero k least most⟩
  | @cons b b' b'' offset leaf rest outside shows _ ih =>
      obtain ⟨above, behind⟩ := placed
      have le := behind.le
      obtain ⟨kept, values, gaps⟩ := ih behind fun k least most => by
        rw [outside k (.inr least)]
        exact zero k (by omega) most
      refine ⟨fun k before => ?_, List.forall_mem_cons.mpr ⟨?_, values⟩, fun k least most apart => ?_⟩
      · rw [kept k (by omega), outside k (.inl (by omega))]
      · rw [window_congr fun k _ inside => kept k inside]
        exact shows fun _ k least inside => zero k (by omega) (by omega)
      · obtain ⟨here, others⟩ := List.forall_mem_cons.mp apart
        obtain before | after := here
        · rw [kept k (by omega), outside k (.inl before)]
          exact zero k least most
        · exact gaps k after most others

theorem Paints.pictured (h : Paints clean R b leaves b') (placed : Placed 0 size leaves)
    (zero : ∀ k < size, b k = 0) : Pictured R size leaves b' := by
  obtain ⟨-, values, gaps⟩ := h.shows placed fun k _ => zero k
  exact ⟨values, fun k => gaps k (Nat.zero_le k)⟩

/-- An object that one value takes up. -/
theorem Paints.single {leaf : Leaf} (h : Paints clean R b [(0, leaf)] b')
    (dirty : clean leaf = false) : Pictured R leaf.size [(0, leaf)] b' := by
  cases h with
  | cons outside shows rest =>
      cases rest
      refine ⟨List.forall_mem_singleton.mpr (shows fun needed => ?_), fun k inside apart => ?_⟩
      · exact absurd (dirty.symm.trans needed) nofun
      · have apart := List.forall_mem_singleton.mp apart
        simp only at apart
        omega

end

end LiveC
