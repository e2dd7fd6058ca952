import LiveC.Proofs.ValidObjects

/-!
Validation in machine words. The extents of the kinds, the masks that round them and the ends of
fields and symbols are words, and names that are defined twice are looked for among sorted names.
Whatever words an object holds, the same faults are found as over unbounded numbers, and no word
leaves its range without being caught.
-/

namespace LiveC

/-- What ends a validation that computes in words. -/
inductive WordFault where
  /-- A sum or a difference is no word, and nothing catches it. -/
  | overflow
  | found (fault : ObjectFault)
  deriving DecidableEq, Repr

namespace Word

/-- A sum that is caught if it is no word. -/
def sum? (a b : Word) : Option Word := if a.toNat + b.toNat < modulus then some (a + b) else none

/-- A difference that is not caught. -/
def difference (a b : Word) : Except WordFault Word :=
  if b.toNat ≤ a.toNat then .ok (a - b) else .error .overflow

/-- Whether a range ends beyond a bound, be it that its end is no word. -/
def endsBeyond (bound : Nat) (offset size : Word) : Bool :=
  (sum? offset size).all fun stop => bound < stop.toNat

/-- The number as a word. -/
def ofSize (n : Nat) : Word := BitVec.ofNat 64 n

theorem toNat_ofSize {n : Nat} (h : n < modulus) : (ofSize n).toNat = n := by
  rw [ofSize, BitVec.toNat_ofNat]
  exact Nat.mod_eq_of_lt h

theorem sum?_ofSize {a b : Word} : sum? a b =
    if a.toNat + b.toNat < modulus then some (ofSize (a.toNat + b.toNat)) else none := by
  unfold sum? ofSize
  split
  · rw [BitVec.ofNat_add, BitVec.ofNat_toNat, BitVec.ofNat_toNat, BitVec.setWidth_eq,
      BitVec.setWidth_eq]
  · rfl

/-- A mask of low bits rounds down to their unit. -/
theorem toNat_and_not (n mask : Word) {i : Nat} (low : mask.toNat = 2 ^ i - 1) :
    (n &&& ~~~mask).toNat = n.toNat / 2 ^ i * 2 ^ i := by
  have bits : n &&& ~~~mask = n >>> i <<< i := by
    refine BitVec.eq_of_getLsbD_eq fun j lt => ?_
    have below : mask.getLsbD j = decide (j < i) := by
      rw [BitVec.getLsbD, low, Nat.testBit_two_pow_sub_one]
    rw [BitVec.getLsbD_and, BitVec.getLsbD_not, below, BitVec.getLsbD_shiftLeft,
      BitVec.getLsbD_ushiftRight]
    by_cases inside : j < i
    · simp [inside]
    · simp [inside, lt, Nat.add_sub_of_le (Nat.le_of_not_lt inside)]
  have bound : n.toNat / 2 ^ i * 2 ^ i < 2 ^ 64 :=
    Nat.lt_of_le_of_lt (Nat.div_mul_le_self ..) n.isLt
  rw [bits, BitVec.toNat_shiftLeft, BitVec.toNat_ushiftRight, Nat.shiftLeft_eq,
    Nat.shiftRight_eq_div_pow, Nat.mod_eq_of_lt bound]

end Word

/-! ### The checks in words -/

/-- Where a section ends behind an extent. -/
def Section.wordEnd (s : Section) (extent : Word) : Except WordFault Word := do
  let mask ← Word.difference (.ofSize s.align) 1
  let stop? := do
    let beyond ← Word.sum? extent mask
    Word.sum? (beyond &&& ~~~mask) (.ofSize s.size)
  match stop?.filter fun stop => stop.toNat ≤ Object.maxExtent with
  | some stop => return stop
  | none => throw (.found (.extent s.kind s.name s.size))

namespace Object

def checkRelocationWords (o : Object) (index : Nat) (s : Section) (r : Relocation) :
    Except WordFault Unit := do
  if Word.endsBeyond s.data.length (.ofSize r.offset) (.ofSize r.kind.width) then
    throw (.found (.relocationOutside r.kind r.offset s.name index))
  if let .sectionStart id := r.target then
    if o.sections.length ≤ id then throw (.found (.targetMissing s.name id))

/-- Checks a section that is put behind the extents, and gives the extents behind it. -/
def checkSectionWords (o : Object) (x : SectionKind → Word) (index : Nat) (s : Section) :
    Except WordFault (SectionKind → Word) := do
  if !isPowerOfTwo s.align then throw (.found (.alignment s.name s.align))
  let stop ← s.wordEnd (x s.kind)
  match s.kind with
  | .zero =>
    if !s.data.isEmpty then throw (.found (.zeroFilledBytes s.name))
    if !s.relocations.isEmpty then throw (.found (.zeroFilledRelocations s.name))
  | _ =>
    if s.size ≠ s.data.length then throw (.found (.sizeMismatch s.name s.size s.data.length))
  s.relocations.forM (checkRelocationWords o index s)
  return fun k => if k = s.kind then stop else x k

def checkSectionsWords (o : Object) (x : SectionKind → Word) (index : Nat) :
    List Section → Except WordFault Unit
  | [] => return ()
  | s :: rest => do
    let x ← checkSectionWords o x index s
    checkSectionsWords o x (index + 1) rest

def checkSymbolWords (o : Object) (s : ObjectSymbol) : Except WordFault Unit := do
  let some place := o.sections[s.sectionId]?
    | throw (.found (.symbolSectionMissing s.name s.sectionId))
  if Word.endsBeyond place.size (.ofSize s.offset) (.ofSize s.size) then
    throw (.found (.symbolExtent s.name place.name))
  if s.kind = .function && place.kind ≠ .text then throw (.found (.functionOutsideText s.name))

/-- The first of the names that is equal to the one behind it. -/
def adjacent? : List String → Option String
  | a :: b :: rest => if a = b then some a else adjacent? (b :: rest)
  | _ => none

/-- The first fault of an object, found with words. -/
def validateWords (o : Object) : Except WordFault Unit := do
  checkSectionsWords o (fun _ => 0) 0 o.sections
  o.symbols.forM (checkSymbolWords o)
  match adjacent? (o.globalNames.mergeSort fun a b => a < b || a == b) with
  | some name => throw (.found (.definedTwice name))
  | none => return ()

/-! ### The same faults -/

variable {o : Object} {s : Section} {index : Nat}

/-- Computations that find the same fault, or give related results. -/
inductive Mirrors {α β : Type} (R : α → β → Prop) :
    Except WordFault α → Except ObjectFault β → Prop
  | fault (fault : ObjectFault) : Mirrors R (.error (.found fault)) (.error fault)
  | value {a : α} {b : β} (related : R a b) : Mirrors R (.ok a) (.ok b)

namespace Mirrors

variable {α β α' β' : Type} {R : α → β → Prop} {R' : α' → β' → Prop} {x : Except WordFault α}
  {y : Except ObjectFault β}

theorem bind {f : α → Except WordFault α'} {g : β → Except ObjectFault β'} (h : Mirrors R x y)
    (rest : ∀ a b, R a b → Mirrors R' (f a) (g b)) : Mirrors R' (x >>= f) (y >>= g) := by
  cases h with
  | fault fault => exact .fault fault
  | value related => exact rest _ _ related

/-- One check in front of both. -/
theorem guard {c c' : Prop} [Decidable c] [Decidable c'] {fault : ObjectFault}
    {f : PUnit → Except WordFault α} {g : PUnit → Except ObjectFault β} (same : c ↔ c')
    (passed : ¬c' → Mirrors R x y) : Mirrors R (if c then throw (.found fault) >>= f else x)
      (if c' then throw fault >>= g else y) := by
  by_cases found : c'
  · rw [if_pos found, if_pos (same.mpr found)]
    exact .fault fault
  · rw [if_neg found, if_neg (mt same.mp found)]
    exact passed found

theorem forM {ι : Type} {f : ι → Except WordFault PUnit} {g : ι → Except ObjectFault PUnit}
    {l : List ι} (h : ∀ i ∈ l, Mirrors Eq (f i) (g i)) : Mirrors Eq (l.forM f) (l.forM g) := by
  induction l with
  | nil => exact .value rfl
  | cons i l ih =>
      obtain ⟨first, others⟩ := List.forall_mem_cons.mp h
      exact bind first fun _ _ _ => ih others

/-- A result that is given behind computations without results. -/
theorem giving {x : Except WordFault PUnit} {y : Except ObjectFault PUnit}
    {R : α → PUnit → Prop} {a : α} (h : Mirrors Eq x y) (related : R a ⟨⟩) :
    Mirrors R (x >>= fun _ => pure a) y := by
  cases h with
  | fault fault => exact .fault fault
  | value => exact .value related

/-- What is found does not depend on the results. -/
theorem eq_mapError {x : Except WordFault PUnit} {y : Except ObjectFault PUnit}
    (h : Mirrors Eq x y) : x = y.mapError .found := by
  cases h <;> rfl

end Mirrors

theorem endsBeyond_iff {bound offset size : Nat} (isOffset : offset < Word.modulus)
    (isSize : size < Word.modulus) (bounded : bound < Word.modulus) :
    Word.endsBeyond bound (.ofSize offset) (.ofSize size) = true ↔ bound < offset + size := by
  unfold Word.endsBeyond
  rw [Word.sum?_ofSize, Word.toNat_ofSize isOffset, Word.toNat_ofSize isSize]
  split
  case isTrue word => rw [Option.all_some, Word.toNat_ofSize word, decide_eq_true_iff]
  case isFalse beyond => exact iff_of_true rfl (by omega)

/-- The mask of an alignment, which is never zero, is a word. -/
theorem difference_one {align : Nat} (positive : 0 < align) (word : align < Word.modulus) :
    Word.difference (.ofSize align) 1 = .ok (.ofSize (align - 1)) := by
  have one : (1 : Word) = BitVec.ofNat 64 1 := rfl
  have least : (1 : Word).toNat ≤ align := positive
  rw [Word.difference, Word.toNat_ofSize word, if_pos least, Word.ofSize, Word.ofSize, one,
    BitVec.ofNat_sub_ofNat_of_le _ _ (by decide) positive]

/-- An extent that is within the bound is rounded without leaving the words, and a section that
ends beyond the bound is found whether or not its end is a word. -/
theorem wordEnd_eq {extent : Word} (power : isPowerOfTwo s.align = true)
    (small : s.size < Word.modulus) (start : extent.toNat ≤ maxExtent) :
    s.wordEnd extent = if maxExtent < sectionEnd extent.toNat s
      then .error (.found (.extent s.kind s.name s.size))
      else .ok (.ofSize (sectionEnd extent.toNat s)) := by
  obtain ⟨i, within, align⟩ := isPowerOfTwo_iff.mp power
  have modulus : Word.modulus = 2 ^ 64 := rfl
  have bound : maxExtent < 2 ^ 62 := by decide
  have positive : 0 < s.align := align ▸ Nat.two_pow_pos i
  have half : s.align ≤ 2 ^ 63 := align ▸ Nat.pow_le_pow_right (by decide) (Nat.le_of_lt_succ within)
  have mask : (Word.ofSize (s.align - 1)).toNat = s.align - 1 := Word.toNat_ofSize (by omega)
  have rounds : extent.toNat + (s.align - 1) < Word.modulus := by omega
  have start : ((Word.ofSize (extent.toNat + (s.align - 1))) &&& ~~~(Word.ofSize (s.align - 1))).toNat
      = alignUp extent.toNat s.align := by
    rw [Word.toNat_and_not _ _ (mask.trans (by rw [align])), Word.toNat_ofSize rounds, alignUp, align,
      Nat.add_sub_assoc (Nat.two_pow_pos i)]
  have stop : (Word.sum? (.ofSize (extent.toNat + (s.align - 1)) &&& ~~~(.ofSize (s.align - 1)))
      (.ofSize s.size)) = if sectionEnd extent.toNat s < Word.modulus
        then some (.ofSize (sectionEnd extent.toNat s)) else none := by
    rw [Word.sum?_ofSize, start, Word.toNat_ofSize small]
    rfl
  unfold Section.wordEnd
  rw [except_bind_of_ok (difference_one positive (by omega)), Word.sum?_ofSize, mask, if_pos rounds]
  dsimp only [Option.bind_eq_bind, Option.bind_some]
  rw [stop]
  by_cases word : sectionEnd extent.toNat s < Word.modulus
  · rw [if_pos word, Option.filter_some, Word.toNat_ofSize word]
    by_cases beyond : maxExtent < sectionEnd extent.toNat s
    · rw [if_neg (by simpa using beyond), if_pos beyond]
      rfl
    · rw [if_pos (by simpa using beyond), if_neg beyond]
      rfl
  · rw [if_neg word, if_pos (by omega)]
    rfl

theorem checkRelocationWords_mirrors {r : Relocation} (offset : r.offset < Word.modulus)
    (length : s.data.length < Word.modulus) :
    Mirrors Eq (checkRelocationWords o index s r) (checkRelocation o index s r) := by
  have width : r.kind.width < Word.modulus := by cases r.kind <;> decide
  refine .guard (endsBeyond_iff offset width length) fun _ => ?_
  cases r.target with
  | symbol name => exact .value rfl
  | sectionStart id =>
      dsimp only
      split
      · exact .fault _
      · exact .value rfl

theorem checkSymbolWords_mirrors (words : o.InWords) {s : ObjectSymbol} (member : s ∈ o.symbols) :
    Mirrors Eq (checkSymbolWords o s) (checkSymbol o s) := by
  obtain ⟨offset, size⟩ := words.symbols s member
  unfold checkSymbolWords checkSymbol
  cases found : o.sections[s.sectionId]? with
  | none => exact .fault _
  | some place =>
      have bounded := (words.sizes place (List.mem_of_getElem? found)).1
      refine .guard (endsBeyond_iff offset size bounded) fun _ => ?_
      split
      · exact .fault _
      · exact .value rfl

/-- Words that stand for the extents of the kinds, all of them within the bound. -/
def Holds (x : SectionKind → Word) (extents : Extents) : Prop :=
  ∀ kind, (x kind).toNat = extents kind ∧ extents kind ≤ maxExtent

/-- A section is refused for the same fault, or the words hold the extents behind it. -/
theorem checkSectionWords_mirrors {x : SectionKind → Word} {extents : Extents}
    (holds : Holds x extents) (words : o.InWords) (member : s ∈ o.sections) :
    Mirrors (fun x' _ => Holds x' (extents.add s)) (checkSectionWords o x index s)
      (checkSection o extents index s) := by
  obtain ⟨size, length⟩ := words.sizes s member
  obtain ⟨same, bound⟩ := holds s.kind
  unfold checkSectionWords checkSection
  refine .guard Iff.rfl fun power => ?_
  have power : isPowerOfTwo s.align = true := by simpa using power
  rw [wordEnd_eq power size (same ▸ bound), same]
  by_cases beyond : maxExtent < sectionEnd (extents s.kind) s
  case pos =>
    rw [if_pos beyond, if_pos beyond]
    exact .fault _
  case neg =>
    rw [if_neg beyond, if_neg beyond]
    have behind : Holds (fun k => if k = s.kind then .ofSize (sectionEnd (extents s.kind) s)
        else x k) (extents.add s) := by
      intro kind
      dsimp only [Extents.add]
      by_cases own : kind = s.kind
      · have within := Nat.le_of_not_lt beyond
        rw [if_pos own, if_pos own, own]
        exact ⟨Word.toNat_ofSize (Nat.lt_of_le_of_lt within (by decide)), within⟩
      · rw [if_neg own, if_neg own]
        exact holds kind
    have each (r : Relocation) (member' : r ∈ s.relocations) :
        Mirrors Eq (checkRelocationWords o index s r) (checkRelocation o index s r) :=
      checkRelocationWords_mirrors (words.fields s member r member') length
    have relocations := (Mirrors.forM each).giving (R := fun x' _ => Holds x' (extents.add s)) behind
    cases kind : s.kind <;> rw [kind] at relocations
    case zero => exact .guard Iff.rfl fun _ => .guard Iff.rfl fun _ => relocations
    all_goals exact .guard Iff.rfl fun _ => relocations

theorem checkSectionsWords_mirrors {l : List Section} {x : SectionKind → Word} {extents : Extents}
    (holds : Holds x extents) (words : o.InWords) (members : ∀ s ∈ l, s ∈ o.sections) :
    Mirrors Eq (checkSectionsWords o x index l) (checkSections o extents index l) := by
  induction l generalizing x extents index with
  | nil => exact .value rfl
  | cons s l ih =>
      obtain ⟨member, members⟩ := List.forall_mem_cons.mp members
      exact (checkSectionWords_mirrors holds words member).bind fun _ _ holds => ih holds members

/-! ### Names that are defined twice -/

/-- In front of sorted names, a name other than the first of them is new. -/
theorem not_mem_of_sorted {a b : String} {rest : List String}
    (sorted : (a :: b :: rest).Pairwise (· ≤ ·)) (apart : a ≠ b) : a ∉ b :: rest := by
  obtain ⟨first, others⟩ := List.pairwise_cons.mp sorted
  intro member
  rcases List.mem_cons.mp member with same | member
  · exact apart same
  · exact apart (Std.le_antisymm (first b (.head _)) ((List.pairwise_cons.mp others).1 a member))

theorem adjacent?_eq_none {names : List String} (sorted : names.Pairwise (· ≤ ·))
    (h : adjacent? names = none) : names.Nodup := by
  fun_induction adjacent? names with
  | case1 => cases h
  | case2 a b rest apart ih =>
      exact List.nodup_cons.mpr ⟨not_mem_of_sorted sorted apart,
        ih (List.pairwise_cons.mp sorted).2 h⟩
  | case3 names short =>
      match names with
      | [] => exact .nil
      | [a] => exact List.nodup_singleton a
      | a :: b :: rest => exact absurd rfl (short a b rest)

/-- Among sorted names, the first that stands in front of itself is the least one that occurs
twice. -/
theorem adjacent?_eq_some {names : List String} {name : String}
    (sorted : names.Pairwise (· ≤ ·)) (h : adjacent? names = some name) :
    1 < names.count name ∧ ∀ other, 1 < names.count other → name ≤ other := by
  fun_induction adjacent? names with
  | case1 a rest =>
      cases h
      refine ⟨by simp, fun other twice => ?_⟩
      have member : other ∈ name :: name :: rest := List.count_pos_iff.mp (by omega)
      rcases List.mem_cons.mp member with rfl | behind
      · exact Std.le_refl _
      · exact (List.pairwise_cons.mp sorted).1 other behind
  | case2 a b rest apart ih =>
      obtain ⟨twice, least⟩ := ih (List.pairwise_cons.mp sorted).2 h
      refine ⟨Nat.lt_of_lt_of_le twice List.count_le_count_cons, fun other twice' => ?_⟩
      by_cases same : a = other
      · have once := List.count_eq_zero.mpr (not_mem_of_sorted sorted apart)
        rw [← same, List.count_cons_self, once] at twice'
        exact absurd twice' (Nat.lt_irrefl 1)
      · rw [List.count_cons_of_ne same] at twice'
        exact least other twice'
  | case3 => cases h

/-- Keeping the lesser of two names all along a list finds its least one. -/
theorem foldl_least {f : Option String → String → Option String} {names : List String}
    {start name : String} (h : names.foldl f (some start) = some name)
    (lesser : ∀ l n, f (some l) n = some (if n < l then n else l)) :
    name ∈ start :: names ∧ ∀ other ∈ start :: names, name ≤ other := by
  induction names generalizing start with
  | nil =>
      cases h
      exact ⟨.head _, List.forall_mem_singleton.mpr (Std.le_refl _)⟩
  | cons n names ih =>
      rw [List.foldl_cons, lesser] at h
      obtain ⟨member, least⟩ := ih h
      obtain ⟨below, rest⟩ := List.forall_mem_cons.mp least
      have both : name ≤ start ∧ name ≤ n := by
        split at below <;> grind
      have member : name ∈ start :: n :: names := by
        split at member <;> grind
      exact ⟨member, List.forall_mem_cons.mpr
        ⟨both.1, List.forall_mem_cons.mpr ⟨both.2, rest⟩⟩⟩

/-- The name that is found twice is the least one that occurs twice. -/
theorem duplicate?_eq_some {names : List String} {name : String} (h : duplicate? names = some name) :
    1 < names.count name ∧ ∀ other, 1 < names.count other → name ≤ other := by
  have twice (other) : other ∈ names.filter (fun n => 1 < names.count n) ↔ 1 < names.count other := by
    rw [List.mem_filter, decide_eq_true_iff]
    exact and_iff_right_of_imp fun twice => List.count_pos_iff.mp (by omega)
  unfold duplicate? at h
  suffices rest : name ∈ names.filter (fun n => 1 < names.count n) ∧
      ∀ other ∈ names.filter (fun n => 1 < names.count n), name ≤ other from
    ⟨(twice name).mp rest.1, fun other occurs => rest.2 other ((twice other).mpr occurs)⟩
  cases split : names.filter fun n => 1 < names.count n with
  | nil =>
      rw [split] at h
      cases h
  | cons start others =>
      rw [split] at h
      exact foldl_least h fun _ _ => rfl

/-- Looking among sorted names finds the same name. -/
theorem adjacent?_mergeSort (names : List String) :
    adjacent? (names.mergeSort fun a b => a < b || a == b) = duplicate? names := by
  have sorted := sorted_mergeSort names
  have perm := List.mergeSort_perm names fun a b => decide (a < b) || a == b
  generalize names.mergeSort _ = l at sorted perm
  cases found : adjacent? l with
  | none => exact (duplicate?_eq_none.mpr (perm.nodup_iff.mp (adjacent?_eq_none sorted found))).symm
  | some name =>
      obtain ⟨twice, least⟩ := adjacent?_eq_some sorted found
      simp only [perm.count_eq] at twice least
      cases found' : duplicate? names with
      | none =>
          have once := List.nodup_iff_count_le_one.mp (duplicate?_eq_none.mp found') name
          exact absurd twice (Nat.not_lt.mpr once)
      | some name' =>
          obtain ⟨twice', least'⟩ := duplicate?_eq_some found'
          rw [Std.le_antisymm (least name' twice') (least' name twice)]

/-! ### Validation as a whole -/

theorem validateWords_mirrors (words : o.InWords) : Mirrors Eq o.validateWords o.validate := by
  have empty : Holds (fun _ => 0) .empty := fun _ => ⟨rfl, Nat.zero_le _⟩
  refine (checkSectionsWords_mirrors empty words fun _ => id).bind fun _ _ _ => ?_
  refine (Mirrors.forM fun _ => checkSymbolWords_mirrors words).bind fun _ _ _ => ?_
  rw [adjacent?_mergeSort]
  cases duplicate? o.globalNames with
  | some name => exact .fault _
  | none => exact .value rfl

/-- An object of words is accepted if and only if it is well-formed. Computed in words, validation
finds the same fault, and no sum or difference leaves the words without being caught. -/
theorem validate_exact (o : Object) (words : o.InWords) :
    (o.validate = .ok () ↔ o.WellFormed) ∧ o.validateWords = o.validate.mapError .found :=
  ⟨validate_iff_wellFormed words, (validateWords_mirrors words).eq_mapError⟩

/-- A function with a branch and two large zero-filled sections are well-formed. A section whose end
is no word makes an object malformed. -/
theorem validate_exact_largeSections :
    let code := Section.ofBytes .text [0xE8, 0, 0, 0, 0, 0xC3] 16 [⟨1, .branch32, .symbol "g", -4, none⟩]
    let half := Section.zeroed (maxExtent / 2) 16
    let large : Object := ⟨[half, code, half], [⟨"f", .function, 1, 0, 6, true, none⟩]⟩
    let wrapping : Object := ⟨[.zeroed 16 16, .zeroed (2 ^ 64 - 5) 16], []⟩
    large.InWords ∧ wrapping.InWords ∧ large.WellFormed ∧ ¬wrapping.WellFormed ∧
      wrapping.validateWords = .error (.found (.extent .zero ".bss" (2 ^ 64 - 5))) := by
  intro code half large wrapping
  have words : large.InWords := ⟨by decide, by decide, by decide, by decide⟩
  have words' : wrapping.InWords := ⟨by decide, by decide, by decide, by decide⟩
  have accepted : large.validate = .ok () := by decide +kernel
  have refused : wrapping.validate = .error (.extent .zero ".bss" (2 ^ 64 - 5)) := rfl
  refine ⟨words, words', (validate_exact large words).1.mp accepted, fun wellFormed => ?_, ?_⟩
  · have accepted := (validate_exact wrapping words').1.mpr wellFormed
    cases accepted.symm.trans refused
  · rw [(validate_exact wrapping words').2, refused]
    rfl

end Object
end LiveC
