import Mathlib.Data.List.Infix
import LiveC.Proofs.CompiledObjects
import LiveC.Proofs.InitialLayout
import LiveC.Proofs.InitialReading

/-!
The image of an initialised object in its section. Each value has its bytes there, but for pointers
to string literals: these are zero, and the section has a relocation for each.
-/

namespace LiveC

/-- The bytes of a value in a section. -/
def Leaf.bytes : Leaf → List UInt8
  | text _ length bytes => fitString bytes length
  | value (.int n v) => v.toBytes n.ty.size
  | value (.float _ v) => v.bits.toBytes 8
  | value _ => []
  | address ty _ => List.replicate ty.size 0

/-- An item of a static object stores a value. -/
def InitItem.Stores (strings : List (List UInt8)) (item : InitItem) (p : Nat × Leaf) : Prop :=
  item.offset = p.1 ∧
    match p.2 with
    | .address ty bytes => ty.isPointer = true ∧
        ∃ id, item.value = .address (.str id) 0 ∧ strings[id]? = some bytes
    | leaf => item.value.isAddress = false ∧ item.value.stored = leaf.bytes ∧
        leaf.bytes.length = leaf.size

variable {strings : List (List UInt8)} {leaves : List (Nat × Leaf)} {items : List InitItem}

theorem length_fitString (bytes : List UInt8) (length : Option Nat) :
    (fitString bytes length).length = length.getD (bytes.length + 1) := by
  cases length with
  | none => simp [fitString]
  | some n =>
      simp only [fitString, List.length_append, List.length_take, List.length_replicate,
        Option.getD_some]
      omega

theorem Leaf.length_bytes_of_isLiteral {literal : Expr} (h : literal.IsLiteral) :
    (value literal).bytes.length = (value literal).size := by
  cases h with
  | int => exact Binary.length_little ..
  | @float n v double =>
      have size : (value (.float n v)).size = 8 := by rw [Leaf.size, Expr.ty, Expr.note, double]; rfl
      rw [size]
      exact Binary.length_little ..

theorem Expr.Is.isLiteral_right {e literal : Expr} (h : e.Is literal) : literal.IsLiteral := by
  obtain ⟨ty, first, second, x, source, rfl, rfl⟩ | ⟨first, second, x, rfl, rfl⟩ := h.cases
  · exact .int source
  · exact .float rfl

theorem CType.size_le_of_isScalar {ty : CType} (h : ty.isScalar = true) : ty.size ≤ 8 := by
  cases ty with
  | int t =>
      obtain ⟨w, s⟩ := t
      cases w <;> simp [size, checkedSize, IntType.size, Width.bytes]
  | double | pointer => exact Nat.le_refl 8
  | void | array | function => cases h

theorem Expr.constantValue?_of_is {e literal : Expr} (h : e.Is literal)
    (scalar : e.ty.isScalar = true) :
    ∃ value, e.constantValue? e.ty = some value ∧ value.isAddress = false ∧
      value.stored = (Leaf.value literal).bytes := by
  obtain ⟨ty, first, second, x, -, rfl, rfl⟩ | ⟨first, second, x, rfl, rfl⟩ := h.cases
  · refine ⟨_, rfl, rfl, ?_⟩
    have narrow : min ty.size 8 = ty.size := Nat.min_eq_left (CType.size_le_of_isScalar scalar)
    exact congrArg x.toBytes narrow
  · exact ⟨_, rfl, rfl, rfl⟩

theorem Expr.convert_str (ty : CType) (loc : Location) (n : Note) (id : Nat) :
    let e := Expr.addrOf ⟨.pointer (.int .char), loc⟩ (.str n id)
    e.convert ty = e ∧ ty = .pointer (.int .char) ∨ e.convert ty = .cast ⟨ty, loc⟩ e := by
  intro e
  by_cases same : ty = .pointer (.int .char)
  · subst same
    refine .inl ⟨?_, rfl⟩
    unfold convert
    exact if_pos rfl
  · refine .inr ?_
    unfold convert
    exact if_neg (Ne.symm same)

/-- The address of a string literal is constant where a pointer is initialised. -/
theorem Expr.constantValue?_str {loc : Location} {n : Note} {id : Nat} {ty : CType}
    {value : InitValue} (h : ((Expr.addrOf ⟨.pointer (.int .char), loc⟩ (.str n id)).convert
      ty).constantValue? ty = some value) : ty.isPointer = true ∧ value = .address (.str id) 0 := by
  obtain ⟨same, rfl⟩ | same := convert_str ty loc n id
  · rw [same] at h
    cases h
    exact ⟨rfl, rfl⟩
  · rw [same] at h
    cases ty with
    | pointer p =>
        cases h
        exact ⟨rfl, rfl⟩
    | void | int | double | array | function => cases h

theorem stores_of_yielded (h : Yielded .static strings leaves items) :
    List.Forall₂ (InitItem.Stores strings) items leaves := by
  induction h with
  | nil => exact .nil
  | text element length offset bytes loc character _ ih =>
      exact .cons ⟨rfl, rfl, rfl, length_fitString bytes length⟩ ih
  | @scalar leaves items leaf e item offset loc ws ws' is scalar run _ ih =>
      refine .cons ?_ ih
      obtain ⟨value, constant, rfl⟩ : ∃ value, e.constantValue? e.ty = some value ∧
          item = ⟨offset, value⟩ := by
        cases constant : e.constantValue? e.ty with
        | none =>
            simp only [InitForm.static, constant] at run
            cases run
        | some value =>
            simp only [InitForm.static, constant] at run
            cases run
            exact ⟨value, rfl, rfl⟩
      refine ⟨rfl, ?_⟩
      cases leaf with
      | text => exact is.elim
      | value literal =>
          obtain ⟨same, found, isAddress, stored⟩ := Expr.constantValue?_of_is is scalar
          cases found.symm.trans constant
          exact ⟨isAddress, stored, Leaf.length_bytes_of_isLiteral is.isLiteral_right⟩
      | address ty bytes =>
          obtain ⟨length, place, id, found, rfl, -⟩ := is
          rw [Expr.ty_convert] at constant
          obtain ⟨isPointer, rfl⟩ := Expr.constantValue?_str constant
          exact ⟨isPointer, id, rfl, found⟩

/-! ### Contents -/

/-- The bytes of an array, and zeros behind it. -/
def Binary.byteAt (a : Array UInt8) (k : Nat) : UInt8 := a[k]?.getD 0

theorem Binary.byteAt_writeAt_of_outside {a : Array UInt8} {offset k : Nat} {bs : List UInt8}
    (h : k < offset ∨ offset + bs.length ≤ k) : byteAt (writeAt a offset bs) k = byteAt a k := by
  induction bs generalizing a offset with
  | nil => rfl
  | cons b bs ih =>
      rw [List.length_cons] at h
      rw [writeAt, ih (by omega), byteAt, byteAt, Array.getElem?_setIfInBounds_ne (by omega)]

theorem Binary.byteAt_writeAt {a : Array UInt8} {offset j : Nat} {bs : List UInt8} {b : UInt8}
    (h : offset + bs.length ≤ a.size) (here : bs[j]? = some b) :
    byteAt (writeAt a offset bs) (offset + j) = b := by
  induction bs generalizing a offset j with
  | nil => cases here
  | cons first bs ih =>
      rw [List.length_cons] at h
      rw [writeAt]
      cases j with
      | zero =>
          cases here
          refine (byteAt_writeAt_of_outside (.inl (Nat.lt_add_one offset))).trans ?_
          rw [byteAt, Array.getElem?_setIfInBounds_self_of_lt (by omega)]
          rfl
      | succ j =>
          have fits : offset + 1 + bs.length ≤ (a.setIfInBounds offset first).size := by
            rw [Array.size_setIfInBounds]
            omega
          rw [Nat.add_comm j 1, ← Nat.add_assoc]
          exact ih fits here

theorem Binary.window_writeAt {a : Array UInt8} {offset : Nat} {bs : List UInt8}
    (h : offset + bs.length ≤ a.size) :
    window (byteAt (writeAt a offset bs)) offset bs.length = bs := by
  refine List.ext_getElem (length_window ..) fun j _ inside => ?_
  rw [List.getElem_eq_iff, getElem?_window inside]
  exact congrArg some (byteAt_writeAt h (List.getElem?_eq_getElem inside))

/-- The bytes of a value in a section are as they should be. -/
def Leaf.IsImage (leaf : Leaf) (bs : List UInt8) : Prop := bs = leaf.bytes

namespace InitItem.Stores

variable {item : InitItem} {p : Nat × Leaf} {a : Array UInt8}

/-- The place of an address stays as it is. -/
theorem cases (h : item.Stores strings p) :
    item.value.stored = [] ∧ p.2.bytes = List.replicate p.2.size 0 ∨
      item.value.stored = p.2.bytes ∧ p.2.bytes.length = p.2.size := by
  obtain ⟨offset, leaf⟩ := p
  obtain ⟨-, stores⟩ := h
  cases leaf with
  | address ty bytes =>
      obtain ⟨-, id, value, -⟩ := stores
      exact .inl ⟨by rw [value]; rfl, rfl⟩
  | text | value => exact .inr stores.2

/-- Storing an item puts the image of its value where it belongs. -/
theorem image (h : item.Stores strings p) (fits : p.1 + p.2.size ≤ a.size)
    (zero : ∀ k, p.1 ≤ k → k < p.1 + p.2.size → Binary.byteAt a k = 0) :
    p.2.IsImage (window (Binary.byteAt (Binary.writeAt a item.offset item.value.stored))
      p.1 p.2.size) := by
  rw [h.1]
  obtain ⟨stored, bytes⟩ | ⟨stored, length⟩ := h.cases
  · rw [Leaf.IsImage, bytes, stored]
    exact window_eq_zero zero
  · rw [Leaf.IsImage, stored, ← length]
    exact Binary.window_writeAt (length ▸ fits)

theorem outside (h : item.Stores strings p) {k : Nat} (apart : k < p.1 ∨ p.1 + p.2.size ≤ k) :
    Binary.byteAt (Binary.writeAt a item.offset item.value.stored) k = Binary.byteAt a k := by
  rw [h.1]
  obtain ⟨stored, -⟩ | ⟨stored, length⟩ := h.cases
  · rw [stored]
    rfl
  · rw [stored]
    exact Binary.byteAt_writeAt_of_outside (length ▸ apart)

end InitItem.Stores

/-- Items fill an array with the images of the values. -/
theorem paints_contents (h : List.Forall₂ (InitItem.Stores strings) items leaves) {lo : Nat}
    {a : Array UInt8} (placed : Placed lo a.size leaves) :
    Paints (fun _ => true) Leaf.IsImage (Binary.byteAt a) leaves
      (Binary.byteAt (items.foldl (fun a i => Binary.writeAt a i.offset i.value.stored) a)) := by
  induction h generalizing lo a with
  | nil => exact .nil
  | cons here _ ih =>
      obtain ⟨-, behind⟩ := placed
      exact .cons (fun k => here.outside) (fun zero => here.image behind.le (zero rfl))
        (ih (by rw [Binary.size_writeAt]; exact behind))

/-- A variable shows the images of its values. -/
theorem pictured_contents {v : GlobalVar} (init : v.init = some items)
    (h : List.Forall₂ (InitItem.Stores strings) items leaves) (placed : Placed 0 v.ty.size leaves) :
    Pictured Leaf.IsImage v.ty.size leaves fun k => v.contents[k]?.getD 0 := by
  have zero (k : Nat) : Binary.byteAt (Array.replicate v.ty.size 0) k = 0 := by
    rw [Binary.byteAt, Array.getElem?_replicate]
    split <;> rfl
  have painted := (paints_contents h (a := Array.replicate v.ty.size 0)
    (by rwa [Array.size_replicate])).pictured placed fun k _ => zero k
  have same : (fun k => v.contents[k]?.getD 0) = Binary.byteAt (items.foldl
      (fun a i => Binary.writeAt a i.offset i.value.stored) (Array.replicate v.ty.size 0)) := by
    funext k
    rw [GlobalVar.contents, init, Binary.byteAt, Array.getElem?_toList]
    rfl
  exact same ▸ painted

/-! ### Places -/

theorem DataBuffer.reverse_append (b : DataBuffer) (contents : List UInt8) (align : Nat) :
    (b.append contents align).reversed.reverse =
      b.reversed.reverse ++ List.replicate (b.nextOffset align - b.size) 0 ++ contents := by
  simp [DataBuffer.append, List.reverseAux_eq]

namespace DataLayout

/-- A variable lies at an offset with its contents, and its addresses are listed. -/
structure Contains (d : DataLayout) (v : GlobalVar) (offset : Nat) : Prop where
  place : (v.name, v.dataKind, offset) ∈ d.places
  contents : v.contents <+: (d.buffer v.dataKind).reversed.reverse.drop offset
  addresses : ∀ items ∈ v.init, ∀ item ∈ items, ∀ target addend,
    item.value = .address target addend →
      ⟨v.dataKind, offset + item.offset, target, addend⟩ ∈ d.addresses

variable {d : DataLayout} {v g : GlobalVar} {offset : Nat} {globals : List GlobalVar}

theorem reverse_prefix_addGlobal (d : DataLayout) (g : GlobalVar) {kind : DataKind}
    (stored : kind ≠ .zero) :
    (d.buffer kind).reversed.reverse <+: ((d.addGlobal g).buffer kind).reversed.reverse := by
  rw [buffer_addGlobal]
  split
  case isTrue same =>
    subst same
    rw [extended, if_neg stored, DataBuffer.reverse_append, List.append_assoc]
    exact List.prefix_append ..
  case isFalse => exact List.prefix_rfl

theorem Contains.addGlobal (h : d.Contains v offset) (stored : v.dataKind ≠ .zero) :
    (d.addGlobal g).Contains v offset where
  place := List.mem_append_left _ h.place
  contents := h.contents.trans ((reverse_prefix_addGlobal d g stored).drop offset)
  addresses items init item member target addend value :=
    List.mem_append_left _ (h.addresses items init item member target addend value)

theorem Contains.addString (h : d.Contains v offset) (bs : List UInt8) :
    (d.addString bs).Contains v offset where
  place := h.place
  contents := by
    refine h.contents.trans (List.IsPrefix.drop ?_ offset)
    cases v.dataKind with
    | readOnly =>
        rw [show ((d.addString bs).buffer .readOnly) = d.readOnly.append bs 1 from rfl,
          DataBuffer.reverse_append, List.append_assoc]
        exact List.prefix_append ..
    | data | zero => exact List.prefix_rfl
  addresses := h.addresses

/-- A variable is put behind what is there. -/
theorem contains_addGlobal (filled : (d.buffer g.dataKind).Filled) (stored : g.dataKind ≠ .zero) :
    (d.addGlobal g).Contains g ((d.buffer g.dataKind).nextOffset g.ty.align) where
  place := List.mem_append_right _ (.head _)
  contents := by
    have le := DataBuffer.size_le_nextOffset (d.buffer g.dataKind) g.ty.align
    have front : ((d.buffer g.dataKind).reversed.reverse ++ List.replicate
        ((d.buffer g.dataKind).nextOffset g.ty.align - (d.buffer g.dataKind).size) 0).length =
        (d.buffer g.dataKind).nextOffset g.ty.align := by
      rw [List.length_append, List.length_reverse, filled, List.length_replicate]
      omega
    rw [buffer_addGlobal, if_pos rfl, extended, if_neg stored, DataBuffer.reverse_append,
      List.drop_left' front]
  addresses items init item member target addend value := by
    refine List.mem_append_right _ (List.mem_filterMap.mpr ⟨item, ?_, ?_⟩)
    · rw [Option.mem_def.mp init]
      exact member
    · rw [value]

theorem contains_addGlobals {more : List GlobalVar} (holds : d.Holds globals)
    (contained : ∀ g ∈ more, g.Contained) (member : v ∈ more) (stored : v.dataKind ≠ .zero) :
    ∃ offset, (more.foldl addGlobal d).Contains v offset := by
  induction more generalizing d globals with
  | nil => cases member
  | cons g more ih =>
      obtain ⟨first, others⟩ := List.forall_mem_cons.mp contained
      obtain rfl | member := List.mem_cons.mp member
      · exact ⟨_, more.foldlRecOn (motive := fun d : DataLayout => d.Contains v _) _
          (contains_addGlobal (holds.filled _ stored) stored) fun _ h _ _ => h.addGlobal stored⟩
      · exact ih (holds.addGlobal first) others member

theorem extends_addStrings (d : DataLayout) (strings : List (List UInt8)) :
    d.strings <+: (strings.foldl addString d).strings ∧
      d.readOnly.reversed.reverse <+: (strings.foldl addString d).readOnly.reversed.reverse := by
  induction strings generalizing d with
  | nil => exact ⟨List.prefix_rfl, List.prefix_rfl⟩
  | cons bs strings ih =>
      obtain ⟨places, bytes⟩ := ih (d.addString bs)
      refine ⟨(List.prefix_append ..).trans places, List.IsPrefix.trans ?_ bytes⟩
      rw [addString, DataBuffer.reverse_append, List.append_assoc]
      exact List.prefix_append ..

/-- The characters of a string literal lie at its offset in the read-only data. -/
theorem string_of_addStrings (filled : d.readOnly.Filled) {id : Nat} {bytes : List UInt8}
    (found : strings[id]? = some bytes) : ∃ start,
      (strings.foldl addString d).strings[d.strings.length + id]? = some start ∧
      bytes <+: (strings.foldl addString d).readOnly.reversed.reverse.drop start := by
  induction strings generalizing d id with
  | nil => cases found
  | cons bs strings ih =>
      cases id with
      | zero =>
          cases found
          obtain ⟨places, data⟩ := extends_addStrings (d.addString bytes) strings
          refine ⟨d.readOnly.nextOffset 1, ?_, List.IsPrefix.trans ?_ (data.drop _)⟩
          · exact getElem?_of_prefix places List.getElem?_concat_length
          · have le := DataBuffer.size_le_nextOffset d.readOnly 1
            rw [addString, DataBuffer.reverse_append, List.drop_left' (by
              rw [List.length_append, List.length_reverse, filled, List.length_replicate]
              omega)]
      | succ id =>
          obtain ⟨start, place, data⟩ := ih (d := d.addString bs) (filled.append bs 1) found
          rw [addString, List.length_append, List.length_singleton, Nat.add_assoc,
            Nat.add_comm 1] at place
          exact ⟨start, place, data⟩

/-- Every variable of a unit that is initialised lies in its data. -/
theorem exists_contains {u : TranslationUnit} (contained : ∀ g ∈ u.globals, g.Contained)
    (member : v ∈ u.globals) (stored : v.dataKind ≠ .zero) :
    ∃ offset, (ofUnit u).Contains v offset := by
  obtain ⟨offset, contains⟩ := contains_addGlobals holds_nil contained member stored
  exact ⟨offset, u.strings.foldlRecOn (motive := fun d : DataLayout => d.Contains v offset) _ contains
    fun _ h bs _ => h.addString bs⟩

end DataLayout

/-- A section of an object has bytes from an offset on. -/
def Object.Shows (o : Object) (sectionId offset : Nat) (bytes : List UInt8) : Prop :=
  ∃ place, o.sections[sectionId]? = some place ∧ bytes <+: place.data.drop offset

namespace Lowering

variable {u : TranslationUnit}

/-- The section of a kind of data that there is. -/
theorem section_of_kind (code : UnitCode) {kind : DataKind} {i : Nat}
    (found : (DataLayout.ofUnit u).kinds[i]? = some kind) :
    (objectOf u (.ofUnit u) code).sections[i + 1]? =
      some (dataSection u (unitLayout u (.ofUnit u)) code.layout (.ofUnit u) kind) :=
  (List.getElem?_map ..).trans (by rw [found]; rfl)

/-- The characters of a string literal are where the unit has its place. -/
theorem shows_string (code : UnitCode) (contained : ∀ g ∈ u.globals, g.Contained) {id : Nat}
    {bytes : List UInt8} (found : u.strings[id]? = some bytes) :
    ∃ sectionId offset, (unitLayout u (.ofUnit u)).strings[id]? = some (sectionId, offset) ∧
      (objectOf u (.ofUnit u) code).Shows sectionId offset bytes := by
  have holds := DataLayout.holds_nil.addGlobals contained
  obtain ⟨start, place, data⟩ :=
    DataLayout.string_of_addStrings (holds.filled .readOnly (by decide)) found
  rw [strings_foldl_addGlobal, List.length_nil, Nat.zero_add] at place
  refine ⟨(DataLayout.ofUnit u).sectionId .readOnly, start, ?_, ?_⟩
  · exact (List.getElem?_map ..).trans (congrArg _ place)
  obtain ⟨i, kind, same⟩ | ⟨empty, same⟩ := (DataLayout.ofUnit u).sectionId_cases .readOnly
  · exact ⟨_, same ▸ section_of_kind code kind, data⟩
  · have none : (DataLayout.ofUnit u).readOnly.reversed = [] :=
      List.eq_nil_of_length_eq_zero
        (((holds.addStrings u.strings).filled .readOnly (by decide)).trans empty)
    change bytes <+: (DataLayout.ofUnit u).readOnly.reversed.reverse.drop start at data
    rw [none, List.reverse_nil, List.drop_nil, List.prefix_nil] at data
    exact ⟨_, by rw [same]; rfl, data ▸ List.nil_prefix⟩

/-- A variable that is initialised has a symbol, at which its section holds its contents, with a
relocation for each address. -/
theorem image_of_global (code : UnitCode) (contained : ∀ g ∈ u.globals, g.Contained)
    (distinct : (u.globals.map (·.name)).Nodup) {v : GlobalVar} (member : v ∈ u.globals)
    (init : v.init = some items) :
    let o := objectOf u (.ofUnit u) code
    ∃ s ∈ o.symbols, s.name = v.name ∧ s.size = v.ty.size ∧
      ∃ place, o.sections[s.sectionId]? = some place ∧
        (∀ k < v.ty.size, place.data[s.offset + k]? = v.contents[k]?) ∧
        ∀ item ∈ items, ∀ id, item.value = .address (.str id) 0 →
          ∃ r ∈ place.relocations, r.offset = s.offset + item.offset ∧ r.kind = .abs64 ∧
            ∀ sectionId offset, (unitLayout u (.ofUnit u)).strings[id]? = some (sectionId, offset) →
              r.target = .sectionStart sectionId ∧ r.addend = asAddend offset := by
  intro o
  have holds := DataLayout.holds_ofUnit contained
  have stored := DataLayout.dataKind_ne_zero (Option.mem_def.mpr init)
  obtain ⟨offset, contains⟩ := DataLayout.exists_contains contained member stored
  have found : (DataLayout.ofUnit u).places.lookup v.name = some (v.dataKind, offset) :=
    lookup_of_mem (holds.names ▸ distinct) contains.place
  have symbol : globalSymbol (.ofUnit u) v = some
      { name := v.name, kind := .data, sectionId := (DataLayout.ofUnit u).sectionId v.dataKind, offset,
        size := v.ty.size, isGlobal := !v.isStatic } := by
    rw [globalSymbol, found]
    rfl
  refine ⟨_, List.mem_append_right _ (List.mem_filterMap.mpr ⟨v, member, symbol⟩), rfl, rfl, ?_⟩
  obtain ⟨i, kind, same⟩ | ⟨empty, same⟩ := (DataLayout.ofUnit u).sectionId_cases v.dataKind
  · refine ⟨dataSection u (unitLayout u (.ofUnit u)) code.layout (.ofUnit u) v.dataKind, ?_, ?_⟩
    · dsimp only
      rw [same]
      exact section_of_kind code kind
    rw [dataSection_of_stored stored]
    refine ⟨fun k inside => ?_, fun item isItem id value => ?_⟩
    · obtain ⟨rest, whole⟩ := contains.contents
      rw [← v.length_contents] at inside
      change (DataLayout.buffer _ _).reversed.reverse[offset + k]? = _
      rw [← List.getElem?_drop, ← whole, List.getElem?_append_left inside]
    · have listed := contains.addresses items init item isItem _ _ value
      refine ⟨_, List.mem_map.mpr ⟨_, List.mem_filter.mpr ⟨listed, decide_eq_true rfl⟩, rfl⟩, rfl, rfl,
        fun sectionId start place => ?_⟩
      unfold dataRelocation
      simp only [place, Option.getD_some]
      exact ⟨rfl, congrArg asAddend (Int.add_zero _)⟩
  · obtain ⟨_, -, inside⟩ := holds.placed v member
    refine ⟨_, by dsimp only; rw [same]; rfl, fun k small => by omega, fun item isItem id value => ?_⟩
    have listed := contains.addresses items init item isItem _ _ value
    have width := holds.addressed _ listed (by dsimp only; rw [empty]; decide)
    dsimp only [RelocKind.width] at width
    omega

end Lowering

end LiveC
