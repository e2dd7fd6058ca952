import LiveC.Lowering.Data
import LiveC.Proofs.ParserState
import LiveC.Proofs.ValidObjects

/-!
Where the data of a unit is put. Each variable and string literal is put behind what is in its
buffer, and the other buffers stay as they are, so what lies in a buffer keeps lying in it.
-/

namespace LiveC

theorem Binary.size_writeAt (a : Array UInt8) (offset : Nat) (bs : List UInt8) :
    (writeAt a offset bs).size = a.size := by
  induction bs generalizing a offset with
  | nil => rfl
  | cons b bs ih => rw [writeAt, ih, Array.size_setIfInBounds]

/-- A variable is filled with as many bytes as its type has. -/
theorem GlobalVar.length_contents (g : GlobalVar) : g.contents.length = g.ty.size := by
  have size (items : List InitItem) (a : Array UInt8) :
      (items.foldl (fun a i => Binary.writeAt a i.offset i.value.stored) a).size = a.size := by
    induction items generalizing a with
    | nil => rfl
    | cons i items ih => rw [List.foldl_cons, ih, Binary.size_writeAt]
  rw [contents, Array.length_toList, size, Array.size_replicate]

/-- An alignment that objects have. -/
def IsAlignment (n : Nat) : Prop := n = 1 ∨ n = 2 ∨ n = 4 ∨ n = 8

theorem IsAlignment.max {n m : Nat} (hn : IsAlignment n) (hm : IsAlignment m) :
    IsAlignment (max n m) := by
  unfold IsAlignment at *
  omega

theorem CType.isAlignment (t : CType) : IsAlignment t.align := by
  cases t with
  | array element length => exact element.isAlignment
  | int t =>
      obtain ⟨w, s⟩ := t
      cases w <;> simp [IsAlignment, align, size, checkedSize, IntType.size, Width.bytes]
  | void | function => exact .inl rfl
  | pointer | double => exact .inr (.inr (.inr rfl))

theorem IsAlignment.isPowerOfTwo {n : Nat} (h : IsAlignment n) : Object.isPowerOfTwo n = true := by
  rcases h with rfl | rfl | rfl | rfl <;> decide

namespace DataBuffer

variable {b : DataBuffer}

theorem size_le_nextOffset (b : DataBuffer) (align : Nat) : b.size ≤ b.nextOffset align :=
  le_alignUp _ (Nat.le_trans Nat.one_pos (Nat.le_max_left 1 align))

/-- A buffer whose bytes are all there. -/
def Filled (b : DataBuffer) : Prop := b.reversed.length = b.size

theorem Filled.append (h : b.Filled) (contents : List UInt8) (align : Nat) :
    (b.append contents align).Filled := by
  have le := b.size_le_nextOffset align
  unfold Filled at *
  simp only [DataBuffer.append, reserve, List.reverseAux_eq, List.length_append, List.length_reverse,
    List.length_replicate, h]
  omega

/-- A buffer that is aligned as its objects are. -/
def Aligned (b : DataBuffer) : Prop := IsAlignment b.align

theorem Aligned.reserve (h : b.Aligned) (size : Nat) {align : Nat} (ha : IsAlignment align) :
    (b.reserve size align).Aligned := h.max (IsAlignment.max (.inl rfl) ha)

theorem Aligned.append (h : b.Aligned) (contents : List UInt8) {align : Nat}
    (ha : IsAlignment align) : (b.append contents align).Aligned := h.reserve contents.length ha

end DataBuffer

namespace DataLayout

variable {d : DataLayout} {globals : List GlobalVar} {kind k : DataKind}

theorem buffer_setBuffer (d : DataLayout) (kind k : DataKind) (b : DataBuffer) :
    (d.setBuffer kind b).buffer k = if k = kind then b else d.buffer k := by
  cases kind <;> cases k <;> rfl

/-! ### Variables -/

/-- The buffer of a kind behind a variable of that kind. -/
def extended (b : DataBuffer) (g : GlobalVar) : DataBuffer :=
  if g.dataKind = .zero then b.reserve g.ty.size g.ty.align else b.append g.contents g.ty.align

theorem size_extended (b : DataBuffer) (g : GlobalVar) :
    (extended b g).size = b.nextOffset g.ty.align + g.ty.size := by
  unfold extended
  split
  · rfl
  · simp only [DataBuffer.append, DataBuffer.reserve, g.length_contents]

theorem buffer_addGlobal (d : DataLayout) (g : GlobalVar) (k : DataKind) :
    (d.addGlobal g).buffer k =
      if k = g.dataKind then extended (d.buffer g.dataKind) g else d.buffer k := by
  rw [← buffer_setBuffer]
  cases k <;> rfl

/-- What holds of the data behind some variables. A variable lies in the buffer of its kind, and
so does each address in it, which is why there are none where nothing is stored. -/
structure Holds (d : DataLayout) (globals : List GlobalVar) : Prop where
  filled : ∀ k, k ≠ .zero → (d.buffer k).Filled
  aligned : ∀ k, (d.buffer k).Aligned
  names : d.places.map (·.1) = globals.map (·.name)
  placed : ∀ g ∈ globals, ∃ offset, (g.name, g.dataKind, offset) ∈ d.places ∧
    offset + g.ty.size ≤ (d.buffer g.dataKind).size
  stored : ∀ a ∈ d.addresses, a.kind ≠ .zero
  addressed : ∀ a ∈ d.addresses, (d.buffer a.kind).size < Word.modulus - 1 →
    a.offset + RelocKind.abs64.width ≤ (d.buffer a.kind).size

theorem size_le_addGlobal (d : DataLayout) (g : GlobalVar) (k : DataKind) :
    (d.buffer k).size ≤ ((d.addGlobal g).buffer k).size := by
  rw [buffer_addGlobal]
  split
  case isTrue same =>
    subst same
    rw [size_extended]
    exact Nat.le_trans (DataBuffer.size_le_nextOffset _ _) (Nat.le_add_right _ _)
  case isFalse => exact Nat.le_refl _

/-- An address is listed before, or it is one that the variable stores. -/
theorem mem_addresses_addGlobal {g : GlobalVar} {a : DataAddress}
    (h : a ∈ (d.addGlobal g).addresses) : a ∈ d.addresses ∨ a.kind = g.dataKind ∧
      ∃ items ∈ g.init, ∃ i ∈ items, i.value = .address a.target a.addend ∧
        a.offset = (d.buffer g.dataKind).nextOffset g.ty.align + i.offset := by
  refine (List.mem_append.mp h).imp id fun added => ?_
  obtain ⟨i, member, made⟩ := List.mem_filterMap.mp added
  cases value : i.value with
  | int | float | bytes =>
      rw [value] at made
      cases made
  | address target addend =>
      rw [value] at made
      cases made
      cases init : g.init with
      | none =>
          rw [init] at member
          cases member
      | some items =>
          rw [init] at member
          exact ⟨rfl, items, rfl, i, member, value, rfl⟩

theorem dataKind_ne_zero {g : GlobalVar} {items : List InitItem} (h : items ∈ g.init) :
    g.dataKind ≠ .zero := by
  rw [GlobalVar.dataKind, Option.mem_def.mp h]
  dsimp only
  split <;> nofun

theorem Holds.addGlobal (h : d.Holds globals) {g : GlobalVar} (contained : g.Contained) :
    (d.addGlobal g).Holds (globals ++ [g]) where
  filled k stores := by
    rw [buffer_addGlobal]
    split
    case isTrue same =>
      subst same
      rw [extended, if_neg stores]
      exact (h.filled _ stores).append _ _
    case isFalse => exact h.filled k stores
  aligned k := by
    rw [buffer_addGlobal]
    split
    case isTrue =>
      unfold extended
      split
      · exact (h.aligned _).reserve _ g.ty.isAlignment
      · exact (h.aligned _).append _ g.ty.isAlignment
    case isFalse => exact h.aligned k
  names := by
    rw [List.map_append, ← h.names]
    exact List.map_append
  placed := by
    refine List.forall_mem_append.mpr ⟨fun v member => ?_, List.forall_mem_singleton.mpr ?_⟩
    · obtain ⟨offset, place, le⟩ := h.placed v member
      exact ⟨offset, List.mem_append_left _ place, Nat.le_trans le (size_le_addGlobal d g _)⟩
    · refine ⟨_, List.mem_append_right _ (.head _), Nat.le_of_eq ?_⟩
      rw [buffer_addGlobal, if_pos rfl, size_extended]
  stored a member := by
    rcases mem_addresses_addGlobal member with before | ⟨kind, items, init, -⟩
    · exact h.stored a before
    · exact kind ▸ dataKind_ne_zero init
  addressed a member small := by
    have grown := size_le_addGlobal d g a.kind
    rcases mem_addresses_addGlobal member with before | ⟨kind, items, init, i, inItems, value, offset⟩
    · exact Nat.le_trans (h.addressed a before (Nat.lt_of_le_of_lt grown small)) grown
    · rw [kind, buffer_addGlobal, if_pos rfl, size_extended] at small ⊢
      have inside := (contained (by omega) items init i inItems).2
      rw [value, InitValue.width] at inside
      rw [offset, RelocKind.width]
      omega

/-! ### String literals -/

theorem Holds.addString (h : d.Holds globals) (bs : List UInt8) : (d.addString bs).Holds globals := by
  have grown (k : DataKind) : (d.buffer k).size ≤ ((d.addString bs).buffer k).size := by
    cases k with
    | readOnly =>
        exact Nat.le_trans (DataBuffer.size_le_nextOffset _ 1) (Nat.le_add_right _ bs.length)
    | data | zero => exact Nat.le_refl _
  refine ⟨fun k stores => ?_, fun k => ?_, h.names, fun g member => ?_, h.stored,
    fun a member small => ?_⟩
  · cases k with
    | readOnly => exact (h.filled .readOnly nofun).append bs 1
    | data => exact h.filled .data nofun
    | zero => exact absurd rfl stores
  · cases k with
    | readOnly => exact (h.aligned .readOnly).append bs (.inl rfl)
    | data => exact h.aligned .data
    | zero => exact h.aligned .zero
  · obtain ⟨offset, place, le⟩ := h.placed g member
    exact ⟨offset, place, Nat.le_trans le (grown _)⟩
  · exact Nat.le_trans (h.addressed a member (Nat.lt_of_le_of_lt (grown _) small)) (grown _)

/-! ### Units -/

theorem holds_nil : Holds {} [] where
  filled k _ := by cases k <;> rfl
  aligned k := by cases k <;> exact .inl rfl
  names := rfl
  placed := nofun
  stored := nofun
  addressed := nofun

theorem Holds.addGlobals {more : List GlobalVar} (h : d.Holds globals)
    (contained : ∀ g ∈ more, g.Contained) : (more.foldl DataLayout.addGlobal d).Holds (globals ++ more) := by
  induction more generalizing d globals with
  | nil => rwa [List.append_nil]
  | cons g more ih =>
      obtain ⟨first, others⟩ := List.forall_mem_cons.mp contained
      have rest := ih (h.addGlobal first) others
      rwa [List.append_assoc] at rest

theorem Holds.addStrings (h : d.Holds globals) (strings : List (List UInt8)) :
    (strings.foldl DataLayout.addString d).Holds globals := by
  induction strings generalizing d with
  | nil => exact h
  | cons bs strings ih => exact ih (h.addString bs)

/-- The variables of a unit lie in its data. -/
theorem holds_ofUnit {u : TranslationUnit} (contained : ∀ g ∈ u.globals, g.Contained) :
    (ofUnit u).Holds u.globals :=
  (holds_nil.addGlobals contained).addStrings u.strings

/-- Every variable has its place under its name, if no other one has the name. -/
theorem Holds.lookup (h : d.Holds globals) (distinct : (globals.map (·.name)).Nodup) {g : GlobalVar}
    (member : g ∈ globals) : ∃ offset, d.places.lookup g.name = some (g.dataKind, offset) ∧
      offset + g.ty.size ≤ (d.buffer g.dataKind).size := by
  obtain ⟨offset, place, le⟩ := h.placed g member
  exact ⟨offset, lookup_of_mem (h.names ▸ distinct) place, le⟩

/-! ### Sections -/

theorem mem_kinds (d : DataLayout) (kind : DataKind) :
    kind ∈ d.kinds ↔ 0 < (d.buffer kind).size := by
  have all : kind ∈ DataKind.all := by cases kind <;> decide
  simp [kinds, all]

theorem nodup_kinds (d : DataLayout) : d.kinds.Nodup :=
  List.Nodup.filter _ (by decide)

/-- A kind has the section behind the code that it comes to, or it has no data. -/
theorem sectionId_cases (d : DataLayout) (kind : DataKind) :
    (∃ i, d.kinds[i]? = some kind ∧ d.sectionId kind = i + 1) ∨
      (d.buffer kind).size = 0 ∧ d.sectionId kind = 0 := by
  unfold sectionId
  cases found : d.kinds.findIdx? (· == kind) with
  | some i =>
      obtain ⟨inRange, same, -⟩ := List.findIdx?_eq_some_iff_getElem.mp found
      exact .inl ⟨i, by rw [List.getElem?_eq_getElem inRange, eq_of_beq same], rfl⟩
  | none =>
      refine .inr ⟨Nat.eq_zero_of_not_pos fun data => ?_, rfl⟩
      have absent := List.findIdx?_eq_none_iff.mp found kind ((d.mem_kinds kind).mpr data)
      exact absurd (beq_self_eq_true kind) (Bool.eq_false_iff.mp absent)

theorem sectionId_le (d : DataLayout) (kind : DataKind) : d.sectionId kind ≤ d.kinds.length := by
  rcases d.sectionId_cases kind with ⟨i, found, same⟩ | ⟨-, same⟩
  · have inRange := (List.getElem?_eq_some_iff.mp found).1
    omega
  · omega

end DataLayout
end LiveC
