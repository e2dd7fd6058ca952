import LiveC.Elf.Read
import LiveC.Elf.Write
import Mathlib.Data.List.Basic
import Mathlib.Data.Finset.Max

/-!
Reading back what was written. A file whose numbers fit their fields is read from its bytes as it
was: the headers say where the bodies lie, and the tables give the names back.
-/

namespace LiveC

namespace Binary

/-- A reader takes bytes off the front, whatever stands behind them, and gives a value. -/
def Reads {α : Type} (r : Reader α) (bytes : List UInt8) (a : α) : Prop :=
  ∀ rest, r.run (bytes ++ rest) = some (a, rest)

variable {α β : Type} {r : Reader α} {bytes more : List UInt8} {a : α}

theorem Reads.alone (h : Reads r bytes a) : r.run bytes = some (a, []) := by
  have all := h []
  rwa [List.append_nil] at all

theorem Reads.pure (a : α) : Reads (pure a) [] a := fun _ => rfl

theorem Reads.bind {f : α → Reader β} {b : β} (first : Reads r bytes a)
    (next : Reads (f a) more b) : Reads (r >>= f) (bytes ++ more) b := by
  intro rest
  rw [StateT.run_bind, List.append_assoc, first]
  exact next rest

/-- The last field decides what is given. -/
theorem Reads.last {f : α → β} (h : Reads r bytes a) :
    Reads (r >>= fun a => Pure.pure (f a)) bytes (f a) := by
  have all : Reads (r >>= fun a => Pure.pure (f a)) (bytes ++ []) (f a) :=
    h.bind (f := fun a => Pure.pure (f a)) (.pure (f a))
  rwa [List.append_nil] at all

theorem reads_take {n : Nat} (h : bytes.length = n) : Reads (take n) bytes bytes := by
  intro rest
  change (if _ then _ else _) = _
  rw [← h, List.take_left, List.drop_left, if_pos rfl]

theorem reads_number {n v : Nat} (h : v < 256 ^ n) : Reads (number n) (little n v) v := by
  have value : ofLittle (little n v) = v := (ofLittle_little n v).trans (Nat.mod_eq_of_lt h)
  have read : Reads (number n) (little n v) (ofLittle (little n v)) :=
    (reads_take (length_little n v)).last
  rwa [value] at read

/-- A field whose value does not matter. -/
theorem Reads.skip {f : List UInt8 → Reader β} {n : Nat} {b : β} (h : bytes.length = n)
    (next : Reads (f bytes) more b) : Reads (take n >>= f) (bytes ++ more) b :=
  (reads_take h).bind next

end Binary

namespace Elf

open Binary

variable {α β : Type} {f : File}

theorem reads_many {entry : Reader β} {l : List α} {bytes : α → List UInt8} {value : α → β}
    (each : ∀ a ∈ l, Reads entry (bytes a) (value a)) :
    Reads (readMany entry l.length) (l.flatMap bytes) (l.map value) := by
  induction l with
  | nil => exact Reads.pure _
  | cons a l ih =>
      obtain ⟨first, others⟩ := List.forall_mem_cons.mp each
      exact first.bind (ih others).last

theorem mapM_map_eq_some {γ : Type} {g : α → β} {k : β → Option γ} {result : α → γ} {l : List α}
    (each : ∀ a ∈ l, k (g a) = some (result a)) : (l.map g).mapM k = some (l.map result) := by
  induction l with
  | nil => rfl
  | cons a l ih =>
      obtain ⟨first, others⟩ := List.forall_mem_cons.mp each
      rw [List.map_cons, List.mapM_cons, first, ih others]
      rfl

theorem reads_entries {entry : Reader α} {l : List α} {bytes : α → List UInt8}
    (each : ∀ a ∈ l, Reads entry (bytes a) a) :
    Reads (readMany entry l.length) (l.flatMap bytes) l := by
  have all := @reads_many α α entry l bytes id each
  rwa [List.map_id] at all

/-! ### Strings -/

section

variable {name : List UInt8} {names : List (List UInt8)}

/-- A table has a string that ends with a given one of its strings. -/
theorem exists_kept (member : name ∈ names) : ∃ k ∈ kept names, name <:+ k := by
  let ends := names.eraseDups.filter (name.isSuffixOf ·)
  have own : name ∈ ends :=
    List.mem_filter.mpr ⟨List.mem_eraseDups.mpr member,
      List.isSuffixOf_iff_suffix.mpr List.suffix_rfl⟩
  obtain ⟨k, inside, longest⟩ :=
    ends.toFinset.exists_max_image List.length ⟨name, List.mem_toFinset.mpr own⟩
  obtain ⟨distinct, suffix⟩ := List.mem_filter.mp (List.mem_toFinset.mp inside)
  rw [List.isSuffixOf_iff_suffix] at suffix
  refine ⟨k, List.mem_filter.mpr ⟨distinct, ?_⟩, suffix⟩
  rw [Bool.not_eq_true', List.any_eq_false]
  intro m present
  rw [Bool.and_eq_true, bne_iff_ne, List.isSuffixOf_iff_suffix]
  rintro ⟨other, ending⟩
  have bound := longest m (List.mem_toFinset.mpr (List.mem_filter.mpr
    ⟨present, List.isSuffixOf_iff_suffix.mpr (suffix.trans ending)⟩))
  exact other (ending.eq_of_length_le bound).symm

/-- The string at an offset behind which it stands. -/
theorem stringAt_append {front rest : List UInt8} (noZero : 0 ∉ name) {offset : Nat}
    (h : front.length = offset) : stringAt (front ++ (name ++ 0 :: rest)) offset = name := by
  have all : ∀ b ∈ name, (b != 0) = true := fun b member => by
    simpa using fun zero : b = 0 => noZero (zero ▸ member)
  rw [stringAt, ← h, List.drop_left, List.takeWhile_append_of_pos all,
    List.takeWhile_cons_of_neg (by simp), List.append_nil]

theorem stringAt_findString (noZero : 0 ∉ name) {strings : List (List UInt8)}
    (ending : ∃ k ∈ strings, name <:+ k) (front : List UInt8) :
    stringAt (front ++ strings.flatMap (· ++ [0])) (findString name front.length strings) =
      name := by
  induction strings generalizing front with
  | nil => simp at ending
  | cons k strings ih =>
      rw [findString, List.flatMap_cons]
      by_cases suffix : name <:+ k
      · rw [if_pos (List.isSuffixOf_iff_suffix.mpr suffix)]
        obtain ⟨start, rfl⟩ := suffix
        rw [List.append_assoc, List.append_assoc, List.singleton_append, ← List.append_assoc]
        refine stringAt_append noZero ?_
        rw [List.length_append, List.length_append]
        omega
      · rw [if_neg (List.isSuffixOf_iff_suffix.not.mpr suffix)]
        have others : ∃ k ∈ strings, name <:+ k := by
          obtain ⟨m, member, ends⟩ := ending
          obtain rfl | member := List.mem_cons.mp member
          · exact absurd ends suffix
          · exact ⟨m, member, ends⟩
        have next := ih others (front ++ (k ++ [0]))
        rwa [List.length_append, List.length_append, List.append_assoc, ← Nat.add_assoc] at next

/-- The table gives every string back that it is made for. -/
theorem stringAt_stringOffset (noZero : 0 ∉ name) (member : name ∈ names) :
    stringAt (stringTable names) (stringOffset names name) = name := by
  rw [stringTable, stringOffset]
  cases name with
  | nil => rfl
  | cons b name =>
      refine stringAt_findString noZero (exists_kept ?_) [0]
      exact List.mem_filter.mpr ⟨member, rfl⟩

theorem findString_le (name : List UInt8) (offset : Nat) (strings : List (List UInt8)) :
    findString name offset strings ≤ offset + (strings.flatMap (· ++ [0])).length := by
  induction strings generalizing offset with
  | nil => exact Nat.zero_le _
  | cons k strings ih =>
      have next := ih (offset + k.length + 1)
      rw [findString, List.flatMap_cons, List.length_append, List.length_append,
        List.length_singleton]
      split <;> omega

theorem stringOffset_le (names : List (List UInt8)) (name : List UInt8) :
    stringOffset names name ≤ (stringTable names).length := by
  rw [stringOffset, stringTable, List.length_cons]
  split
  · exact Nat.zero_le _
  · have := findString_le name 1 (kept (names.filter (!·.isEmpty)))
    omega

end

/-! ### Entries -/

/-- The numbers of an entry fit their fields. -/
structure Symbol.Fits (s : Symbol) : Prop where
  binding : s.binding < 16
  type : s.type < 16
  other : s.other < 256
  sectionId : s.sectionId < 2 ^ 16
  value : s.value < 2 ^ 64
  size : s.size < 2 ^ 64

structure Rela.Fits (r : Rela) : Prop where
  offset : r.offset < 2 ^ 64
  type : r.type < 2 ^ 32
  symbol : r.symbol < 2 ^ 32
  least : Word.least ≤ r.addend
  greatest : r.addend ≤ Word.greatest

theorem reads_symbol {names : List (List UInt8)} {s : Symbol} (fits : s.Fits)
    (small : (stringTable names).length < 2 ^ 32) (noZero : 0 ∉ s.name)
    (member : s.name ∈ names) :
    Reads (readSymbol (stringTable names)) (s.bytes names) s := by
  obtain ⟨binding, type, other, sectionId, value, size⟩ := fits
  have offset := stringOffset_le names s.name
  have read : Reads (readSymbol (stringTable names)) (s.bytes names)
      { s with
        name := stringAt (stringTable names) (stringOffset names s.name)
        binding := (s.binding * 16 + s.type) / 16
        type := (s.binding * 16 + s.type) % 16 } := by
    rw [Symbol.bytes]
    simp only [List.append_assoc]
    refine (reads_number (by omega)).bind ?_
    refine (reads_number (by omega)).bind ?_
    refine (reads_number (by omega)).bind ?_
    refine (reads_number (by omega)).bind ?_
    refine (reads_number (by omega)).bind ?_
    exact (reads_number (by omega)).last
  have high : (s.binding * 16 + s.type) / 16 = s.binding := by omega
  have low : (s.binding * 16 + s.type) % 16 = s.type := by omega
  rwa [stringAt_stringOffset noZero member, high, low] at read

theorem reads_rela {r : Rela} (fits : r.Fits) : Reads readRela r.bytes r := by
  obtain ⟨offset, type, symbol, least, greatest⟩ := fits
  unfold Word.least at least
  unfold Word.greatest at greatest
  have addend : (BitVec.ofNat 64 (BitVec.ofInt 64 r.addend).toNat).toInt = r.addend := by
    rw [BitVec.ofNat_toNat, BitVec.setWidth_eq, BitVec.toInt_ofInt]
    exact Int.bmod_eq_of_le (by omega) (by omega)
  have read : Reads readRela r.bytes
      { r with addend := (BitVec.ofNat 64 (BitVec.ofInt 64 r.addend).toNat).toInt } := by
    rw [Rela.bytes]
    simp only [List.append_assoc]
    refine (reads_number (by omega)).bind ?_
    refine (reads_number (by omega)).bind ?_
    refine (reads_number (by omega)).bind ?_
    exact (reads_number (BitVec.isLt _)).last
  rwa [addend] at read

/-! ### Headers -/

/-- The numbers of a section fit the fields of its header. -/
structure Section.Fits (s : Section) : Prop where
  flags : s.flags < 2 ^ 64
  align : s.align < 2 ^ 64
  link : s.link < 2 ^ 32
  info : s.info < 2 ^ 32
  size : s.body.size < 2 ^ 64

/-- What the header of a section says that starts at an offset of the file. -/
def Section.described (names : List (List UInt8)) (s : Section) (start : Nat) : SectionHeader where
  nameOffset := stringOffset names s.name
  type := s.body.type
  flags := s.flags
  start := start
  size := s.body.size
  link := s.link
  info := s.info
  align := s.align

theorem type_lt (b : Body) : b.type < 9 := by
  cases b <;> simp [Body.type]

theorem entrySize_lt (b : Body) : b.entrySize < 25 := by
  cases b <;> simp [Body.entrySize]

theorem reads_sectionHeader {names : List (List UInt8)} {s : Section} {start : Nat}
    (fits : s.Fits) (small : (stringTable names).length < 2 ^ 32) (inside : start < 2 ^ 64) :
    Reads readSectionHeader (s.header names start) (s.described names start) := by
  obtain ⟨flags, align, link, info, size⟩ := fits
  have offset := stringOffset_le names s.name
  have type := type_lt s.body
  have entry := entrySize_lt s.body
  rw [Section.header]
  simp only [List.append_assoc]
  refine (reads_number (by omega)).bind ?_
  refine (reads_number (by omega)).bind ?_
  refine (reads_number (by omega)).bind ?_
  refine (reads_number (by omega)).bind ?_
  refine (reads_number (by omega)).bind ?_
  refine (reads_number (by omega)).bind ?_
  refine (reads_number (by omega)).bind ?_
  refine (reads_number (by omega)).bind ?_
  refine (reads_number (by omega)).bind ?_
  exact (reads_number (by omega)).last

theorem length_header (f : File) (start : Nat) : (header f start).length = headerSize := by
  simp only [header, List.length_append, length_little, signature, List.length_replicate,
    List.length_cons, List.length_nil, headerSize]

theorem reads_header {start : Nat} (type : f.type < 2 ^ 16) (machine : f.machine < 2 ^ 16)
    (count : f.sections.length < 2 ^ 16) (inside : start < 2 ^ 64) :
    Reads readHeader (header f start)
      (f.type, f.machine, start, f.sections.length, f.sections.length - 1) := by
  have parts : header f start = signature ++ (little 2 f.type ++ (little 2 f.machine ++
      ((little 4 1 ++ (little 8 0 ++ little 8 0)) ++ (little 8 start ++
        ((little 4 0 ++ (little 2 headerSize ++ (little 2 0 ++ (little 2 0 ++
          little 2 sectionHeaderSize)))) ++
          (little 2 f.sections.length ++ little 2 (f.sections.length - 1))))))) := by
    simp only [header, List.append_assoc]
  rw [parts]
  refine .skip rfl ?_
  refine (reads_number (by omega)).bind ?_
  refine (reads_number (by omega)).bind ?_
  refine .skip rfl ?_
  refine (reads_number (by omega)).bind ?_
  refine .skip rfl ?_
  refine (reads_number (by omega)).bind ?_
  exact (reads_number (by omega)).last

/-! ### Bodies -/

theorem slice?_append (front part rest : List UInt8) :
    slice? (front ++ (part ++ rest)) front.length part.length = some part := by
  rw [slice?, List.drop_left, List.take_left]
  exact if_pos rfl

theorem length_symbol (names : List (List UInt8)) (s : Symbol) : (s.bytes names).length = 24 := by
  simp only [Symbol.bytes, List.length_append, length_little]

theorem length_rela (r : Rela) : r.bytes.length = 24 := by
  simp only [Rela.bytes, List.length_append, length_little]

theorem length_flatMap {bytes : α → List UInt8} {n : Nat} (each : ∀ a, (bytes a).length = n)
    (l : List α) : (l.flatMap bytes).length = n * l.length := by
  induction l with
  | nil => rfl
  | cons a l ih =>
      rw [List.flatMap_cons, List.length_append, each, ih, List.length_cons, Nat.mul_succ,
        Nat.add_comm]

theorem length_contents {b : Body} (stored : ∀ n, b ≠ .zeros n) :
    b.contents.length = b.size := by
  cases b with
  | null | bytes | strings => rfl
  | symbols entries => exact length_flatMap (length_symbol _) entries
  | relas entries => exact length_flatMap length_rela entries
  | zeros n => exact absurd rfl (stored n)

/-- The order of writing misses no section. -/
theorem mem_writtenOrder {i : Nat} {s : Section} (h : f.sections[i]? = some s) :
    i ∈ writtenOrder f := by
  have rank : s.body.rank < 5 := by cases s.body <;> simp [Body.rank]
  have member : (s, i) ∈ f.sections.zipIdx := List.mem_zipIdx_iff_getElem?.mpr h
  refine List.mem_flatMap.mpr ⟨if i = f.sections.length - 1 then 4 else s.body.rank, ?_, ?_⟩
  · rw [List.mem_range]
    split <;> omega
  · exact List.mem_map.mpr ⟨_, List.mem_filter.mpr ⟨member, decide_eq_true rfl⟩, rfl⟩

/-- Each body that is written stands where it is said to start. -/
theorem writeBodies_holds {i : Nat} {s : Section} (h : f.sections[i]? = some s)
    {order : List Nat} (member : i ∈ order) (pos : Nat) :
    ∃ before after, (writeBodies f pos order).1 = before ++ (s.body.contents ++ after) ∧
      (writeBodies f pos order).2.lookup i = some (pos + before.length) := by
  induction order generalizing pos with
  | nil => cases member
  | cons j order ih =>
      rw [writeBodies]
      cases found : f.sections[j]? with
      | none =>
          obtain rfl | later := List.mem_cons.mp member
          · cases h.symm.trans found
          · exact ih later pos
      | some t =>
          dsimp only
          by_cases same : i = j
          · subst same
            cases h.symm.trans found
            refine ⟨_, _, List.append_assoc .., ?_⟩
            rw [List.lookup_cons_self, List.length_replicate]
          · have later : i ∈ order := (List.mem_cons.mp member).resolve_left same
            obtain ⟨before, after, bytes, start⟩ :=
              ih later (pos + padding pos t.align + t.body.contents.length)
            refine ⟨List.replicate (padding pos t.align) 0 ++ t.body.contents ++ before, after,
              ?_, ?_⟩
            · rw [bytes]
              simp only [List.append_assoc]
            · rw [List.lookup_cons, beq_false_of_ne same, start, List.length_append,
                List.length_append, List.length_replicate]
              simp only [Nat.add_assoc]

namespace File

/-- Where the body of a section starts. -/
def startOf (f : File) (i : Nat) : Nat :=
  ((writeBodies f headerSize (writtenOrder f)).2.lookup i).getD 0

/-- The bodies with what stands between and behind them. -/
def bodies (f : File) : List UInt8 :=
  let bytes := (writeBodies f headerSize (writtenOrder f)).1
  bytes ++ List.replicate (padding (headerSize + bytes.length) 8) 0

def sectionNames (f : File) : List (List UInt8) := f.sections.map Section.name

theorem bytes_eq (f : File) : f.bytes = header f (headerSize + f.bodies.length) ++ (f.bodies ++
    f.sections.zipIdx.flatMap fun s => s.1.header f.sectionNames (f.startOf s.2)) := by
  rw [bodies, List.length_append, List.length_replicate, ← Nat.add_assoc, ← List.append_assoc,
    ← List.append_assoc]
  rfl

/-- What the section headers say. -/
def headers (f : File) : List SectionHeader :=
  f.sections.zipIdx.map fun s => s.1.described f.sectionNames (f.startOf s.2)

variable {i : Nat} {s : Section}

theorem bytes_holds (h : f.sections[i]? = some s) : ∃ before after,
    f.bytes = before ++ (s.body.contents ++ after) ∧ f.startOf i = before.length := by
  obtain ⟨before, after, bytes, start⟩ := writeBodies_holds h (mem_writtenOrder h) headerSize
  refine ⟨header f (headerSize + f.bodies.length) ++ before, after ++ (List.replicate
    (padding (headerSize + (writeBodies f headerSize (writtenOrder f)).1.length) 8) 0 ++
      f.sections.zipIdx.flatMap fun s => s.1.header f.sectionNames (f.startOf s.2)), ?_, ?_⟩
  · rw [bytes_eq, List.append_assoc, List.append_cancel_left_eq]
    conv_lhs => rw [bodies]
    rw [List.append_assoc]
    conv_lhs => lhs; rw [bytes]
    simp only [List.append_assoc]
  · rw [startOf, start, List.length_append, length_header]
    rfl

theorem slice?_bytes (h : f.sections[i]? = some s) (stored : ∀ n, s.body ≠ .zeros n) :
    slice? f.bytes (f.startOf i) s.body.size = some s.body.contents := by
  obtain ⟨before, after, bytes, start⟩ := bytes_holds h
  rw [← length_contents stored, bytes, start]
  exact slice?_append ..

theorem startOf_le (h : f.sections[i]? = some s) :
    f.startOf i + s.body.contents.length ≤ f.bytes.length := by
  obtain ⟨before, after, bytes, start⟩ := bytes_holds h
  rw [bytes, start, List.length_append, List.length_append]
  omega

theorem headers_getElem? (h : f.sections[i]? = some s) :
    f.headers[i]? = some (s.described f.sectionNames (f.startOf i)) := by
  rw [headers, List.getElem?_map, List.getElem?_zipIdx, h, Nat.zero_add]
  rfl

/-- A file that can be read back: its numbers fit, and the names of sections and symbols are found
in the tables that go with them. -/
structure Storable (f : File) : Prop where
  type : f.type < 2 ^ 16
  machine : f.machine < 2 ^ 16
  count : f.sections.length < 2 ^ 16
  small : f.bytes.length < 2 ^ 32
  names : ∃ t, f.sections[f.sections.length - 1]? = some t ∧
    t.body = .strings (stringTable f.sectionNames)
  sections : ∀ s ∈ f.sections, s.Fits ∧ 0 ∉ s.name
  symbols : ∀ s ∈ f.sections, ∀ entries, s.body = .symbols entries →
    (∃ t, f.sections[s.link]? = some t ∧
      t.body = .strings (stringTable (entries.map Symbol.name))) ∧
    ∀ e ∈ entries, e.Fits ∧ 0 ∉ e.name
  relocations : ∀ s ∈ f.sections, ∀ entries, s.body = .relas entries →
    ∀ r ∈ entries, r.Fits

variable (storable : f.Storable)
include storable

theorem Storable.table_lt {table : List UInt8} (h : f.sections[i]? = some s)
    (body : s.body = .strings table) : table.length < 2 ^ 32 := by
  have inside := startOf_le h
  have := storable.small
  rw [body, Body.contents] at inside
  omega

theorem Storable.names_lt : (stringTable f.sectionNames).length < 2 ^ 32 := by
  obtain ⟨t, found, body⟩ := storable.names
  exact storable.table_lt found body

theorem Storable.readBody? (h : f.sections[i]? = some s) :
    readBody? f.bytes f.headers (s.described f.sectionNames (f.startOf i)) = some s.body := by
  have member := List.mem_of_getElem? h
  have part := slice?_bytes h
  unfold Elf.readBody?
  cases body : s.body with
  | null | zeros => simp only [Section.described, body, Body.type, Body.size]; rfl
  | bytes bs | strings bs =>
      rw [body] at part
      simp only [Section.described, body, Body.type, part nofun]
      rfl
  | symbols entries =>
      rw [body] at part
      obtain ⟨⟨t, found, table⟩, each⟩ := storable.symbols s member entries body
      have strings := slice?_bytes found (by simp [table])
      rw [table] at strings
      have whole := (reads_entries fun e inside => reads_symbol (each e inside).1
        (storable.table_lt found table) (each e inside).2 (List.mem_map_of_mem inside)).alone
      have count : (Body.symbols entries).size / 24 = entries.length :=
        Nat.mul_div_cancel_left _ (by decide)
      simp only [Section.described, body, Body.type, headers_getElem? found, table, strings,
        part nofun, count, Body.contents, Option.bind_eq_bind, Option.bind_some, whole]
      rfl
  | relas entries =>
      rw [body] at part
      have whole := (reads_entries fun r inside =>
        reads_rela (storable.relocations s member entries body r inside)).alone
      have count : (Body.relas entries).size / 24 = entries.length :=
        Nat.mul_div_cancel_left _ (by decide)
      simp only [Section.described, body, Body.type, part nofun, count, Body.contents,
        Option.bind_eq_bind, Option.bind_some, whole]
      rfl

theorem Storable.reads_headers :
    Reads (readMany readSectionHeader f.sections.length)
      (f.sections.zipIdx.flatMap fun s => s.1.header f.sectionNames (f.startOf s.2)) f.headers := by
  have each : ∀ s ∈ f.sections.zipIdx, Reads readSectionHeader
      (s.1.header f.sectionNames (f.startOf s.2))
      (s.1.described f.sectionNames (f.startOf s.2)) := by
    intro s member
    have found := List.mem_zipIdx_iff_getElem?.mp member
    have inside := startOf_le found
    have small := storable.small
    exact reads_sectionHeader (storable.sections _ (List.mem_of_getElem? found)).1 storable.names_lt
      (by omega)
  have read := reads_many each
  rwa [List.length_zipIdx] at read

/-- The section that is read through a header. -/
def sectionOf? (f : File) (h : SectionHeader) : Option Section := do
  return { name := stringAt (stringTable f.sectionNames) h.nameOffset, flags := h.flags,
           align := h.align, link := h.link, info := h.info,
           body := ← Elf.readBody? f.bytes f.headers h }

theorem Storable.sectionOf? (h : f.sections[i]? = some s) :
    f.sectionOf? (s.described f.sectionNames (f.startOf i)) = some s := by
  have member := List.mem_of_getElem? h
  have name := stringAt_stringOffset (storable.sections s member).2 (List.mem_map_of_mem member)
  rw [File.sectionOf?, storable.readBody? h]
  change some { s with
    name := stringAt (stringTable f.sectionNames) (stringOffset f.sectionNames s.name) } = _
  rw [sectionNames, name]

theorem Storable.sections_eq : f.headers.mapM f.sectionOf? = some f.sections := by
  have all := @mapM_map_eq_some _ _ _ _ f.sectionOf? Prod.fst f.sections.zipIdx fun s member =>
    storable.sectionOf? (List.mem_zipIdx_iff_getElem?.mp member)
  rwa [List.zipIdx_map_fst] at all

/-- Reading gives back a file that was written. -/
theorem Storable.read?_bytes : read? f.bytes = some f := by
  have small := storable.small
  have start : headerSize + f.bodies.length < 2 ^ 64 := by
    have := congrArg List.length (bytes_eq f)
    rw [List.length_append, List.length_append, length_header] at this
    omega
  have header : readHeader.run f.bytes = some ((f.type, f.machine, headerSize + f.bodies.length,
      f.sections.length, f.sections.length - 1), _) :=
    (congrArg readHeader.run (bytes_eq f)).trans
      (reads_header storable.type storable.machine storable.count start _)
  have rest : f.bytes.drop (headerSize + f.bodies.length) =
      f.sections.zipIdx.flatMap fun s => s.1.header f.sectionNames (f.startOf s.2) := by
    rw [bytes_eq, ← List.append_assoc]
    exact List.drop_left' (by rw [List.length_append, length_header])
  have headers := storable.reads_headers.alone
  rw [← rest] at headers
  obtain ⟨t, found, table⟩ := storable.names
  have strings := slice?_bytes found (by simp [table])
  rw [table] at strings
  rw [read?, header]
  simp only [Option.bind_eq_bind, Option.bind_some, headers, headers_getElem? found]
  have names : slice? f.bytes (t.described f.sectionNames (f.startOf (f.sections.length - 1))).start
      (t.described f.sectionNames (f.startOf (f.sections.length - 1))).size =
        some (stringTable f.sectionNames) := by
    rw [Section.described, table]
    exact strings
  rw [names]
  change (f.headers.mapM f.sectionOf?).bind _ = _
  rw [storable.sections_eq]
  rfl

end File

end Elf
end LiveC
