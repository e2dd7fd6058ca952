import LiveC.Proofs.InitialImage
import LiveC.Proofs.InitialItems
import Mathlib.Data.List.Pairwise

/-!
How the data of a unit is arranged. Variables and string literals lie one behind the other in the
buffers of their kinds, each with its contents, and what lies between them is zero. A variable
stores the values of the items of its initialiser, and what no item stores is zero.
-/

namespace LiveC

theorem IsAlignment.dvd {n m : Nat} (hn : IsAlignment n) (hm : IsAlignment m) (le : n ≤ m) : n ∣ m := by
  rcases hn with rfl | rfl | rfl | rfl <;> rcases hm with rfl | rfl | rfl | rfl <;> omega

/-- A range of the data of a kind, with the bytes that are stored there. -/
structure DataPart where
  kind : DataKind
  offset : Nat
  size : Nat
  contents : List UInt8

namespace DataPart

def stop (p : DataPart) : Nat := p.offset + p.size

/-- A part lies in front of another one of its kind. -/
def Before (p q : DataPart) : Prop := p.kind = q.kind → p.stop ≤ q.offset

/-- A byte of a kind of data is one of the contents of the part. -/
def Holds (p : DataPart) (kind : DataKind) (k : Nat) : Prop :=
  p.kind = kind ∧ p.offset ≤ k ∧ k < p.offset + p.contents.length

end DataPart

namespace DataLayout

/-- The bytes of a kind. -/
def bytes (d : DataLayout) (kind : DataKind) : List UInt8 := (d.buffer kind).reversed.reverse

/-- The buffers consist of parts. -/
structure Consists (d : DataLayout) (parts : List DataPart) : Prop where
  filled : ∀ kind, kind ≠ .zero → (d.buffer kind).Filled
  ordered : parts.Pairwise DataPart.Before
  inside : ∀ p ∈ parts, p.stop ≤ (d.buffer p.kind).size
  shown : ∀ p ∈ parts, p.contents <+: (d.bytes p.kind).drop p.offset
  zero : ∀ kind k b, (d.bytes kind)[k]? = some b → b ≠ 0 → ∃ p ∈ parts, p.Holds kind k

namespace Consists

variable {d d' : DataLayout} {parts : List DataPart} {kind : DataKind} {contents : List UInt8}
  {size align : Nat}

theorem empty : Consists {} [] := by
  refine ⟨fun kind _ => ?_, .nil, List.forall_mem_nil _, List.forall_mem_nil _, fun kind k b => ?_⟩
  · cases kind <;> rfl
  · cases kind <;> exact nofun

/-- A part is put behind what there is of its kind. -/
theorem push (h : d.Consists parts) (stored : kind ≠ .zero)
    (buffers : ∀ k, d'.buffer k =
      if k = kind then (d.buffer kind).append contents align else d.buffer k) :
    d'.Consists (parts ++ [⟨kind, (d.buffer kind).nextOffset align, contents.length, contents⟩]) := by
  have filled := h.filled kind stored
  have behind := (d.buffer kind).size_le_nextOffset align
  have own : d'.bytes kind = d.bytes kind ++
      List.replicate ((d.buffer kind).nextOffset align - (d.buffer kind).size) 0 ++ contents := by
    rw [bytes, buffers, if_pos rfl, DataBuffer.reverse_append]
    rfl
  have length : (d.bytes kind).length = (d.buffer kind).size := by
    rw [bytes, List.length_reverse]
    exact filled
  have front : (d.bytes kind ++ List.replicate
      ((d.buffer kind).nextOffset align - (d.buffer kind).size) (0 : UInt8)).length =
      (d.buffer kind).nextOffset align := by
    rw [List.length_append, length, List.length_replicate]
    omega
  have other {k : DataKind} (ne : k ≠ kind) : d'.bytes k = d.bytes k := by
    rw [bytes, buffers, if_neg ne]
    rfl
  have grown (k : DataKind) : (d.buffer k).size ≤ (d'.buffer k).size := by
    rw [buffers]
    split
    case isTrue same =>
      subst same
      exact Nat.le_trans behind (Nat.le_add_right _ contents.length)
    case isFalse => exact Nat.le_refl _
  have kept (k : DataKind) : d.bytes k <+: d'.bytes k := by
    by_cases same : k = kind
    · subst same
      rw [own, List.append_assoc]
      exact List.prefix_append ..
    · rw [other same]
  refine ⟨fun k isStored => ?_, ?_, ?_, ?_, fun k i b found nonzero => ?_⟩
  · rw [buffers]
    split
    · exact filled.append contents align
    · exact h.filled k isStored
  · refine List.pairwise_append.mpr ⟨h.ordered, List.pairwise_singleton _ _, fun p member q last => ?_⟩
    obtain rfl := List.mem_singleton.mp last
    intro same
    have inside := h.inside p member
    rw [show p.kind = kind from same] at inside
    exact Nat.le_trans inside behind
  · refine List.forall_mem_append.mpr ⟨fun p member => ?_, List.forall_mem_singleton.mpr ?_⟩
    · exact Nat.le_trans (h.inside p member) (grown p.kind)
    · rw [buffers, if_pos rfl]
      exact Nat.le_refl _
  · refine List.forall_mem_append.mpr ⟨fun p member => ?_, List.forall_mem_singleton.mpr ?_⟩
    · exact (h.shown p member).trans ((kept p.kind).drop p.offset)
    · rw [own, List.drop_left' front]
  · by_cases same : k = kind
    · subst same
      rw [own] at found
      rcases Nat.lt_or_ge i (d.bytes k).length with old | new
      · rw [List.append_assoc, List.getElem?_append_left old] at found
        obtain ⟨p, member, holds⟩ := h.zero k i b found nonzero
        exact ⟨p, List.mem_append_left _ member, holds⟩
      · rcases Nat.lt_or_ge i ((d.buffer k).nextOffset align) with gap | last
        · rw [List.getElem?_append_left (Nat.lt_of_lt_of_eq gap front.symm),
            List.getElem?_append_right new, List.getElem?_replicate] at found
          split at found
          · exact absurd (Option.some.inj found).symm nonzero
          · cases found
        · refine ⟨_, List.mem_append_right _ (.head _), rfl, last, ?_⟩
          have inRange := (List.getElem?_eq_some_iff.mp found).1
          rw [List.length_append, front] at inRange
          exact inRange
    · rw [other same] at found
      obtain ⟨p, member, holds⟩ := h.zero k i b found nonzero
      exact ⟨p, List.mem_append_left _ member, holds⟩

/-- A part that is zero is only set aside. -/
theorem pushZero (h : d.Consists parts) (buffers : ∀ k, d'.buffer k =
      if k = .zero then (d.buffer .zero).reserve size align else d.buffer k) :
    d'.Consists (parts ++ [⟨.zero, (d.buffer .zero).nextOffset align, size, []⟩]) := by
  have behind := (d.buffer .zero).size_le_nextOffset align
  have same (k : DataKind) : d'.bytes k = d.bytes k := by
    rw [bytes, buffers]
    split
    case isTrue zero =>
      subst zero
      rfl
    case isFalse => rfl
  have grown (k : DataKind) : (d.buffer k).size ≤ (d'.buffer k).size := by
    rw [buffers]
    split
    case isTrue zero =>
      subst zero
      exact Nat.le_trans behind (Nat.le_add_right _ size)
    case isFalse => exact Nat.le_refl _
  refine ⟨fun k isStored => ?_, ?_, ?_, ?_, fun k i b found nonzero => ?_⟩
  · rw [buffers, if_neg isStored]
    exact h.filled k isStored
  · refine List.pairwise_append.mpr ⟨h.ordered, List.pairwise_singleton _ _, fun p member q last => ?_⟩
    obtain rfl := List.mem_singleton.mp last
    intro zero
    have inside := h.inside p member
    rw [show p.kind = .zero from zero] at inside
    exact Nat.le_trans inside behind
  · refine List.forall_mem_append.mpr ⟨fun p member => ?_, List.forall_mem_singleton.mpr ?_⟩
    · exact Nat.le_trans (h.inside p member) (grown p.kind)
    · rw [buffers, if_pos rfl]
      exact Nat.le_refl _
  · refine List.forall_mem_append.mpr ⟨fun p member => ?_, List.forall_mem_singleton.mpr ?_⟩
    · rw [same]
      exact h.shown p member
    · exact List.nil_prefix
  · rw [same] at found
    obtain ⟨p, member, holds⟩ := h.zero k i b found nonzero
    exact ⟨p, List.mem_append_left _ member, holds⟩

end Consists

end DataLayout

/-! ### Variables and string literals -/

/-- A variable as it lies in the data of its unit. -/
structure PlacedVariable where
  source : GlobalVar
  offset : Nat

namespace PlacedVariable

def part (v : PlacedVariable) : DataPart where
  kind := v.source.dataKind
  offset := v.offset
  size := v.source.ty.size
  contents := if v.source.dataKind = .zero then [] else v.source.contents

theorem contents_part {v : PlacedVariable} (stored : v.part.kind ≠ .zero) :
    v.part.contents = v.source.contents := if_neg stored

def address? (v : PlacedVariable) (i : InitItem) : Option DataAddress :=
  match i.value with
  | .address target addend => some ⟨v.source.dataKind, v.offset + i.offset, target, addend⟩
  | _ => none

/-- The addresses that the variable stores. -/
def addresses (v : PlacedVariable) : List DataAddress :=
  (v.source.init.getD []).filterMap v.address?

end PlacedVariable

/-- A string literal as it lies in the read-only data of its unit. -/
structure PlacedString where
  bytes : List UInt8
  offset : Nat

def PlacedString.part (s : PlacedString) : DataPart :=
  ⟨.readOnly, s.offset, s.bytes.length, s.bytes⟩

theorem CType.dvd_nextOffset (ty : CType) (b : DataBuffer) : ty.align ∣ b.nextOffset ty.align := by
  have positive : max 1 ty.align = ty.align := by
    rcases ty.isAlignment with h | h | h | h <;> rw [h] <;> rfl
  rw [DataBuffer.nextOffset, positive]
  exact dvd_alignUp _ _

namespace DataLayout

/-- The data consists of variables and string literals, which are listed with their places. -/
structure Arranged (d : DataLayout) (vs : List PlacedVariable) (ss : List PlacedString) : Prop where
  consists : d.Consists (vs.map (·.part) ++ ss.map (·.part))
  places : d.places = vs.map fun v => (v.source.name, v.source.dataKind, v.offset)
  strings : d.strings = ss.map (·.offset)
  addresses : d.addresses = vs.flatMap (·.addresses)
  aligned : ∀ kind, (d.buffer kind).Aligned
  placed : ∀ v ∈ vs, v.source.ty.align ∣ v.offset ∧
    v.source.ty.align ≤ (d.buffer v.source.dataKind).align

variable {d : DataLayout} {vs : List PlacedVariable} {ss : List PlacedString}

theorem arranged_empty : Arranged {} [] [] where
  consists := .empty
  places := rfl
  strings := rfl
  addresses := rfl
  aligned kind := by cases kind <;> exact .inl rfl
  placed := List.forall_mem_nil _

theorem Arranged.addGlobal (h : d.Arranged vs []) (g : GlobalVar) :
    (d.addGlobal g).Arranged
      (vs ++ [⟨g, (d.buffer g.dataKind).nextOffset g.ty.align⟩]) [] where
  consists := by
    have before := h.consists
    rw [List.map_nil, List.append_nil] at before ⊢
    rw [List.map_append, List.map_singleton]
    have buffers := buffer_addGlobal d g
    by_cases zero : g.dataKind = .zero
    · simp only [PlacedVariable.part, zero, if_true]
      refine before.pushZero fun k => ?_
      rw [buffers, zero, extended, if_pos zero]
    · simp only [PlacedVariable.part, zero, if_false]
      rw [← g.length_contents]
      refine before.push zero fun k => ?_
      rw [buffers, extended, if_neg zero]
  places := by
    rw [List.map_append, ← h.places]
    rfl
  strings := by
    rw [← h.strings]
    unfold DataLayout.addGlobal setBuffer
    dsimp only
    split <;> rfl
  addresses := by
    rw [List.flatMap_append, ← h.addresses, List.flatMap_singleton]
    rfl
  aligned k := by
    rw [buffer_addGlobal]
    split
    case isTrue =>
      unfold extended
      split
      · exact (h.aligned _).reserve _ g.ty.isAlignment
      · exact (h.aligned _).append _ g.ty.isAlignment
    case isFalse => exact h.aligned k
  placed := by
    have extends' : (extended (d.buffer g.dataKind) g).align =
        max (d.buffer g.dataKind).align (max 1 g.ty.align) := by
      unfold extended
      split <;> rfl
    refine List.forall_mem_append.mpr ⟨fun v member => ?_, List.forall_mem_singleton.mpr ?_⟩
    · obtain ⟨multiple, le⟩ := h.placed v member
      refine ⟨multiple, Nat.le_trans le ?_⟩
      rw [buffer_addGlobal]
      split
      case isTrue same =>
        rw [extends', same]
        exact Nat.le_max_left _ _
      case isFalse => exact Nat.le_refl _
    · refine ⟨g.ty.dvd_nextOffset _, ?_⟩
      rw [buffer_addGlobal, if_pos rfl, extends']
      exact Nat.le_trans (Nat.le_max_right 1 _) (Nat.le_max_right _ _)

theorem buffer_addString (d : DataLayout) (bs : List UInt8) (k : DataKind) :
    (d.addString bs).buffer k =
      if k = .readOnly then (d.buffer .readOnly).append bs 1 else d.buffer k := by
  cases k <;> rfl

theorem Arranged.addString (h : d.Arranged vs ss) (bs : List UInt8) :
    (d.addString bs).Arranged vs (ss ++ [⟨bs, d.readOnly.nextOffset 1⟩]) where
  consists := by
    rw [List.map_append, List.map_singleton, ← List.append_assoc]
    exact h.consists.push nofun (buffer_addString d bs)
  places := h.places
  strings := by
    rw [List.map_append, ← h.strings]
    rfl
  addresses := h.addresses
  aligned k := by
    rw [buffer_addString]
    split
    · exact (h.aligned _).append bs (.inl rfl)
    · exact h.aligned k
  placed v member := by
    obtain ⟨multiple, le⟩ := h.placed v member
    refine ⟨multiple, Nat.le_trans le ?_⟩
    rw [buffer_addString]
    split
    case isTrue same =>
      rw [same]
      exact Nat.le_max_left _ _
    case isFalse => exact Nat.le_refl _

theorem Arranged.addGlobals (h : d.Arranged vs []) (globals : List GlobalVar) :
    ∃ more, (globals.foldl DataLayout.addGlobal d).Arranged (vs ++ more) [] ∧
      more.map (·.source) = globals := by
  induction globals generalizing d vs with
  | nil => exact ⟨[], by rwa [List.append_nil], rfl⟩
  | cons g globals ih =>
      obtain ⟨more, arranged, sources⟩ := ih (h.addGlobal g)
      rw [List.append_assoc] at arranged
      exact ⟨_ :: more, arranged, by rw [List.map_cons, sources]⟩

theorem Arranged.addStrings (h : d.Arranged vs ss) (strings : List (List UInt8)) :
    ∃ more, (strings.foldl DataLayout.addString d).Arranged vs (ss ++ more) ∧
      more.map (·.bytes) = strings := by
  induction strings generalizing d ss with
  | nil => exact ⟨[], by rwa [List.append_nil], rfl⟩
  | cons bs strings ih =>
      obtain ⟨more, arranged, sources⟩ := ih (h.addString bs)
      rw [List.append_assoc] at arranged
      exact ⟨_ :: more, arranged, by rw [List.map_cons, sources]⟩

/-- The data of a unit consists of its variables and its string literals. -/
theorem arranged_ofUnit (u : TranslationUnit) :
    ∃ vs ss, (ofUnit u).Arranged vs ss ∧ vs.map (·.source) = u.globals ∧
      ss.map (·.bytes) = u.strings := by
  obtain ⟨vs, variables', sources⟩ := arranged_empty.addGlobals u.globals
  obtain ⟨ss, arranged, bytes⟩ := variables'.addStrings u.strings
  exact ⟨vs, ss, arranged, sources, bytes⟩

end DataLayout

/-! ### The contents of a variable -/

namespace InitItem

/-- The item stores a byte of its object. -/
def StoresAt (i : InitItem) (k : Nat) : Prop :=
  i.offset ≤ k ∧ k < i.offset + i.value.stored.length

end InitItem

namespace CType.FilledWith

variable {ty : CType} {offset : Nat} {items : List InitItem} {i : InitItem}

/-- A value is stored in as many bytes as it takes up, unless it is an address. -/
theorem length_stored (h : ty.FilledWith offset items) (member : i ∈ items) :
    i.value.isAddress = true ∧ i.value.stored = [] ∨ i.value.stored.length = i.value.width := by
  cases value : i.value with
  | int v size =>
      have narrow := h.int_size_le member value
      refine .inr ((Binary.length_little ..).trans ?_)
      exact Nat.min_eq_left narrow
  | float v => exact .inr (Binary.length_little ..)
  | bytes bs => exact .inr rfl
  | address target addend => exact .inl ⟨rfl, rfl⟩

theorem length_stored_le (h : ty.FilledWith offset items) (member : i ∈ items) :
    i.value.stored.length ≤ i.value.width := by
  rcases h.length_stored member with ⟨-, stored⟩ | length
  · rw [stored]
    exact Nat.zero_le _
  · exact Nat.le_of_eq length

end CType.FilledWith

/-- Items are stored one after the other. -/
def InitItem.storeAll (items : List InitItem) (a : Array UInt8) : Array UInt8 :=
  items.foldl (fun a i => Binary.writeAt a i.offset i.value.stored) a

namespace InitItem

variable {items : List InitItem} {a : Array UInt8} {i : InitItem} {k : Nat}

theorem storeAll_cons (i : InitItem) (items : List InitItem) (a : Array UInt8) :
    storeAll (i :: items) a = storeAll items (Binary.writeAt a i.offset i.value.stored) := rfl

/-- Items in order are apart from each other. -/
theorem before_or_before {j : InitItem} (ordered : items.Pairwise Before) (hi : i ∈ items)
    (hj : j ∈ items) (ne : i ≠ j) : i.Before j ∨ j.Before i := by
  have either : items.Pairwise fun a b => a.Before b ∨ b.Before a := ordered.imp Or.inl
  have symmetric : Std.Symm fun a b : InitItem => a.Before b ∨ b.Before a := ⟨fun _ _ => Or.symm⟩
  exact either.forall hi hj ne

theorem byteAt_storeAll_of_outside (h : ∀ i ∈ items, ¬i.StoresAt k) :
    Binary.byteAt (storeAll items a) k = Binary.byteAt a k := by
  induction items generalizing a with
  | nil => rfl
  | cons i items ih =>
      obtain ⟨outside, others⟩ := List.forall_mem_cons.mp h
      rw [storeAll_cons]
      refine (ih others).trans (Binary.byteAt_writeAt_of_outside ?_)
      unfold StoresAt at outside
      omega

/-- What an item stores is not stored to by the items behind it. -/
theorem byteAt_storeAll (ordered : items.Pairwise Before)
    (narrow : ∀ i ∈ items, i.value.stored.length ≤ i.value.width) (member : i ∈ items)
    (fits : i.offset + i.value.width ≤ a.size) {j : Nat} {b : UInt8}
    (found : i.value.stored[j]? = some b) :
    Binary.byteAt (storeAll items a) (i.offset + j) = b := by
  induction items generalizing a with
  | nil => cases member
  | cons first items ih =>
      obtain ⟨before, ordered⟩ := List.pairwise_cons.mp ordered
      obtain ⟨small, narrow⟩ := List.forall_mem_cons.mp narrow
      rw [storeAll_cons]
      rcases List.mem_cons.mp member with rfl | behind
      · have inside := (List.getElem?_eq_some_iff.mp found).1
        refine (byteAt_storeAll_of_outside fun x isItem stores => ?_).trans
          (Binary.byteAt_writeAt (Nat.le_trans (Nat.add_le_add_left small _) fits) found)
        have apart : i.offset + i.value.width ≤ x.offset := before x isItem
        have start := stores.1
        omega
      · exact ih ordered narrow behind (by rwa [Binary.size_writeAt])

end InitItem

namespace GlobalVar

variable {g : GlobalVar} {items : List InitItem} {i : InitItem} {k : Nat} {b : UInt8}

theorem getElem?_contents (g : GlobalVar) (inside : k < g.ty.size) : g.contents[k]? =
    some (Binary.byteAt (InitItem.storeAll (g.init.getD []) (Array.replicate g.ty.size 0)) k) := by
  have length := g.length_contents
  have same : g.contents =
      (InitItem.storeAll (g.init.getD []) (Array.replicate g.ty.size 0)).toList := rfl
  rw [same, Array.length_toList] at length
  rw [same, Array.getElem?_toList, Binary.byteAt,
    Array.getElem?_eq_getElem (Nat.lt_of_lt_of_eq inside length.symm)]
  rfl

theorem byteAt_zeros (n k : Nat) : Binary.byteAt (Array.replicate n 0) k = 0 := by
  rw [Binary.byteAt, Array.getElem?_replicate]
  split <;> rfl

/-- A byte that is not zero is stored by an item. -/
theorem storesAt_of_contents (found : g.contents[k]? = some b) (nonzero : b ≠ 0) :
    ∃ items ∈ g.init, ∃ i ∈ items, i.StoresAt k := by
  by_contra none
  have inside : k < g.ty.size := by
    rw [← g.length_contents]
    exact (List.getElem?_eq_some_iff.mp found).1
  rw [g.getElem?_contents inside] at found
  have outside : ∀ i ∈ g.init.getD [], ¬i.StoresAt k := by
    intro i member stores
    cases init : g.init with
    | none =>
        rw [init] at member
        cases member
    | some items =>
        rw [init] at member
        exact none ⟨items, init, i, member, stores⟩
  rw [InitItem.byteAt_storeAll_of_outside outside, byteAt_zeros] at found
  exact nonzero (Option.some.inj found).symm

/-- The value of an item lies at its offset. -/
theorem stored_prefix_contents (made : g.Made) (small : g.ty.size < Word.modulus - 1)
    (init : items ∈ g.init) (member : i ∈ items) : i.value.stored <+: g.contents.drop i.offset := by
  have filled := made.filled items init
  obtain ⟨ordered, within⟩ := filled.spread ⟨made.complete, small⟩
  have inside := (within i member).2
  rw [Nat.zero_add] at inside
  have narrow := filled.length_stored_le member
  refine List.prefix_iff_getElem?.mpr fun j lt => ?_
  rw [List.getElem?_drop, g.getElem?_contents (by omega), Option.mem_def.mp init, Option.getD_some]
  refine congrArg some (InitItem.byteAt_storeAll ordered (fun x isItem => filled.length_stored_le isItem)
    member ?_ (List.getElem?_eq_getElem lt))
  rwa [Array.size_replicate]

/-- The field of an address is zero. -/
theorem zeros_prefix_contents (made : g.Made) (small : g.ty.size < Word.modulus - 1)
    (init : items ∈ g.init) (member : i ∈ items) (address : i.value.isAddress = true) :
    List.replicate i.value.width 0 <+: g.contents.drop i.offset := by
  have filled := made.filled items init
  obtain ⟨ordered, within⟩ := filled.spread ⟨made.complete, small⟩
  have inside := (within i member).2
  rw [Nat.zero_add] at inside
  refine List.prefix_iff_getElem?.mpr fun j lt => ?_
  rw [List.length_replicate] at lt
  rw [List.getElem?_drop, List.getElem_replicate]
  have here : i.offset + j < g.contents.length := by
    rw [g.length_contents]
    omega
  have zero : g.contents[i.offset + j] = 0 := by
    by_contra nonzero
    obtain ⟨items', init', x, isItem, stores⟩ :=
      storesAt_of_contents (List.getElem?_eq_getElem here) nonzero
    cases init.symm.trans init'
    have empty : i.value.stored = [] := by
      cases value : i.value with
      | address => rfl
      | int | float | bytes =>
          rw [value] at address
          cases address
    have width := filled.length_stored_le isItem
    obtain ⟨start, stop⟩ := stores
    by_cases same : x = i
    · subst same
      rw [empty, List.length_nil] at stop
      omega
    · have apart := InitItem.before_or_before ordered isItem member same
      unfold InitItem.Before at apart
      omega
  rw [List.getElem?_eq_getElem here, zero]

end GlobalVar
end LiveC
