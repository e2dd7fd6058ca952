import LiveC.Link.Image
import LiveC.Proofs.Sequence
import Mathlib.Data.List.GetD

/-!
What writing patches does to blocks of memory. A patch changes the bytes that it covers and
nothing else, so behind several patches a byte is that of the last one that covers it.
-/

namespace LiveC

/-- A byte of a block. Behind the contents all bytes are zero. -/
def Region.byte (r : Region) (k : Nat) : UInt8 := r.contents.getD k 0

/-- A block without its contents. -/
def Region.bare (r : Region) : Region := { r with contents := [] }

theorem getD_overwrite (bs new : List UInt8) (offset k : Nat) :
    (Binary.overwrite bs offset new).getD k 0 =
      if offset ≤ k ∧ k < offset + new.length then new.getD (k - offset) 0 else bs.getD k 0 := by
  have front : (bs.take offset ++ List.replicate (offset - bs.length) 0).length = offset := by
    rw [List.length_append, List.length_take, List.length_replicate]
    omega
  unfold Binary.overwrite
  rw [List.append_assoc]
  by_cases before : k < offset
  case pos =>
    rw [if_neg (by omega), List.getD_append _ _ _ _ (by omega)]
    by_cases old : k < bs.length
    · rw [List.getD_append _ _ _ _ (by rw [List.length_take]; omega)]
      simp only [List.getD_eq_getElem?_getD, List.getElem?_take_of_lt before]
    · rw [List.getD_append_right _ _ _ _ (by rw [List.length_take]; omega),
        List.getD_eq_default bs _ (by omega), List.getD_eq_getElem?_getD]
      exact List.getElem?_getD_replicate_default_eq ..
  case neg =>
    rw [List.getD_append_right _ _ _ _ (by omega), front]
    by_cases inside : k < offset + new.length
    · rw [if_pos ⟨by omega, inside⟩, List.getD_append _ _ _ _ (by omega)]
    · rw [if_neg (by omega), List.getD_append_right _ _ _ _ (by omega)]
      simp only [List.getD_eq_getElem?_getD, List.getElem?_drop]
      congr 2
      omega

namespace Link

/-- A byte of the block of a number. -/
def byteAt (regions : List Region) (block k : Nat) : UInt8 :=
  ((regions[block]?).map (·.byte k)).getD 0

/-- Bytes from an offset on. -/
def bytesAt (regions : List Region) (block offset n : Nat) : List UInt8 :=
  (List.range n).map fun k => byteAt regions block (offset + k)

/-- The bytes of a patch. -/
def Patch.Covers (p : Patch) (block k : Nat) : Prop :=
  p.block = block ∧ p.offset ≤ k ∧ k < p.offset + p.bytes.length

/-- A patch that lies inside of a block that is not sealed. -/
def Patch.Fits (p : Patch) (regions : List Region) : Prop :=
  ∃ r, regions[p.block]? = some r ∧ r.isSealed = false ∧ p.offset + p.bytes.length ≤ r.size

variable {regions written : List Region} {p : Patch} {ps : List Patch} {block k : Nat}

/-- A block behind a patch. -/
def Patch.applied (p : Patch) (r : Region) : Region :=
  { r with contents := Binary.overwrite r.contents p.offset p.bytes }

theorem patch_eq_ok : patch regions p = .ok written ↔ ∃ r, regions[p.block]? = some r ∧
    r.isSealed = false ∧ p.offset + p.bytes.length ≤ r.size ∧
    written = regions.set p.block (p.applied r) := by
  unfold patch
  cases found : regions[p.block]? with
  | none => simp
  | some r =>
      by_cases closed : r.isSealed = true
      · simp [Region.write?, closed]
      · have writes : r.write? (Binary.overwrite r.contents p.offset p.bytes) =
            some (p.applied r) := if_neg closed
        by_cases inside : p.offset + p.bytes.length ≤ r.size
        · simp only [writes, inside, if_true, Except.ok.injEq, Option.some.injEq,
            exists_eq_left', closed, true_and]
          exact eq_comm
        · simp [writes, inside]

theorem patch_of_fits (h : p.Fits regions) : ∃ written, patch regions p = .ok written := by
  obtain ⟨r, found, writable, inside⟩ := h
  exact ⟨_, patch_eq_ok.2 ⟨r, found, writable, inside, rfl⟩⟩

theorem bare_patch (h : patch regions p = .ok written) :
    written.map Region.bare = regions.map Region.bare := by
  obtain ⟨r, found, -, -, rfl⟩ := patch_eq_ok.1 h
  obtain ⟨lt, rfl⟩ := List.getElem?_eq_some_iff.mp found
  have lt' : p.block < (regions.map Region.bare).length := by rwa [List.length_map]
  have same : (p.applied regions[p.block]).bare = (regions.map Region.bare)[p.block] := by
    rw [List.getElem_map]
    rfl
  rw [List.map_set, same, List.set_getElem_self]

theorem byteAt_patch_of_covers (h : patch regions p = .ok written) (covered : p.Covers block k) :
    byteAt written block k = p.bytes.getD (k - p.offset) 0 := by
  obtain ⟨r, found, -, -, rfl⟩ := patch_eq_ok.1 h
  obtain ⟨rfl, inside⟩ := covered
  have lt := (List.getElem?_eq_some_iff.mp found).1
  rw [byteAt, List.getElem?_set_self lt]
  exact (getD_overwrite ..).trans (if_pos inside)

theorem byteAt_patch_of_not_covers (h : patch regions p = .ok written)
    (elsewhere : ¬p.Covers block k) : byteAt written block k = byteAt regions block k := by
  obtain ⟨r, found, -, -, rfl⟩ := patch_eq_ok.1 h
  unfold byteAt
  by_cases same : p.block = block
  case neg => rw [List.getElem?_set_ne same]
  case pos =>
    subst same
    have lt := (List.getElem?_eq_some_iff.mp found).1
    rw [List.getElem?_set_self lt, found]
    exact (getD_overwrite ..).trans (if_neg fun inside => elsewhere ⟨rfl, inside⟩)

/-! ### Several patches -/

/-- Patches that are written are known. -/
theorem foldlM_write {fields : List (Except LinkError Patch)}
    (h : fields.foldlM write regions = .ok written) :
    ∃ ps : List Patch, fields = ps.map .ok ∧ ps.foldlM patch regions = .ok written := by
  induction fields generalizing regions with
  | nil => exact ⟨[], rfl, h⟩
  | cons field fields ih =>
      rw [List.foldlM_cons] at h
      obtain ⟨next, first, rest⟩ := ok_of_bind h
      obtain ⟨p, rfl, patched⟩ := ok_of_bind first
      obtain ⟨ps, rfl, others⟩ := ih rest
      refine ⟨p :: ps, rfl, ?_⟩
      rw [List.foldlM_cons, except_bind_of_ok patched]
      exact others

theorem bare_patches (h : ps.foldlM patch regions = .ok written) :
    written.map Region.bare = regions.map Region.bare := by
  induction ps generalizing regions with
  | nil =>
      cases h
      rfl
  | cons p ps ih =>
      rw [List.foldlM_cons] at h
      obtain ⟨next, first, rest⟩ := ok_of_bind h
      exact (ih rest).trans (bare_patch first)

/-- What no patch covers stays as it is. -/
theorem byteAt_patches_of_not_covers (h : ps.foldlM patch regions = .ok written)
    (elsewhere : ∀ p ∈ ps, ¬p.Covers block k) : byteAt written block k = byteAt regions block k := by
  induction ps generalizing regions with
  | nil =>
      cases h
      rfl
  | cons p ps ih =>
      rw [List.foldlM_cons] at h
      obtain ⟨next, first, rest⟩ := ok_of_bind h
      obtain ⟨notFirst, notRest⟩ := List.forall_mem_cons.mp elsewhere
      exact (ih rest notRest).trans (byteAt_patch_of_not_covers first notFirst)

/-- The last patch that covers a byte decides it. -/
theorem byteAt_patches_of_covers {before after : List Patch}
    (h : (before ++ p :: after).foldlM patch regions = .ok written) (covered : p.Covers block k)
    (last : ∀ q ∈ after, ¬q.Covers block k) :
    byteAt written block k = p.bytes.getD (k - p.offset) 0 := by
  rw [List.foldlM_append] at h
  obtain ⟨middle, -, h⟩ := ok_of_bind h
  rw [List.foldlM_cons] at h
  obtain ⟨next, first, rest⟩ := ok_of_bind h
  exact (byteAt_patches_of_not_covers rest last).trans (byteAt_patch_of_covers first covered)

/-- A byte that is covered is the one that all patches have for it, if they agree. -/
theorem byteAt_patches_of_agree {value : UInt8} (h : ps.foldlM patch regions = .ok written)
    (covered : ∃ p ∈ ps, p.Covers block k)
    (agree : ∀ p ∈ ps, p.Covers block k → p.bytes.getD (k - p.offset) 0 = value) :
    byteAt written block k = value := by
  induction ps generalizing regions with
  | nil =>
      obtain ⟨p, member, -⟩ := covered
      cases member
  | cons p ps ih =>
      obtain ⟨first, others⟩ := List.forall_mem_cons.mp agree
      by_cases later : ∃ q ∈ ps, q.Covers block k
      · rw [List.foldlM_cons] at h
        obtain ⟨next, -, rest⟩ := ok_of_bind h
        exact ih rest later others
      · have last : ∀ q ∈ ps, ¬q.Covers block k :=
          fun q member inQ => later ⟨q, member, inQ⟩
        obtain ⟨q, member, inQ⟩ := covered
        rcases List.mem_cons.mp member with rfl | member
        · have alone : ([] ++ q :: ps).foldlM patch regions = .ok written := h
          rw [byteAt_patches_of_covers alone inQ last]
          exact first inQ
        · exact absurd inQ (last q member)

/-- Patches without a common byte. -/
def Patch.Apart (p q : Patch) : Prop := ∀ block k, p.Covers block k → ¬q.Covers block k

/-- A patch that no later one touches is read back. -/
theorem bytesAt_patches {before rest : List Patch}
    (h : (before ++ rest).foldlM patch regions = .ok written) (apart : rest.Pairwise Patch.Apart)
    (member : p ∈ rest) : bytesAt written p.block p.offset p.bytes.length = p.bytes := by
  obtain ⟨first, last, rfl⟩ := List.append_of_mem member
  have untouched := (List.pairwise_cons.mp (List.pairwise_append.mp apart).2.1).1
  rw [← List.append_assoc] at h
  refine List.ext_getElem (by simp [bytesAt]) fun i _ lt => ?_
  have covered : p.Covers p.block (p.offset + i) := ⟨rfl, by omega, by omega⟩
  simp only [bytesAt, List.getElem_map, List.getElem_range]
  rw [byteAt_patches_of_covers h covered fun q later => untouched q later _ _ covered,
    Nat.add_sub_cancel_left, List.getD_eq_getElem _ _ lt]

/-- Whether a patch fits does not depend on the contents of blocks. -/
theorem Patch.Fits.congr (same : written.map Region.bare = regions.map Region.bare)
    (h : p.Fits regions) : p.Fits written := by
  obtain ⟨r, found, writable, inside⟩ := h
  have there : (written.map Region.bare)[p.block]? = some r.bare := by
    rw [same, List.getElem?_map, found]
    rfl
  rw [List.getElem?_map] at there
  obtain ⟨r', found', bare⟩ := Option.map_eq_some_iff.mp there
  have open' : r'.bare.isSealed = false := by rwa [bare]
  have size : r'.bare.size = r.bare.size := congrArg Region.size bare
  exact ⟨r', found', open', Nat.le_trans inside (Nat.le_of_eq size.symm)⟩

/-- Patches that fit are written. -/
theorem patches_of_fits (h : ∀ p ∈ ps, p.Fits regions) :
    ∃ written, ps.foldlM patch regions = .ok written := by
  induction ps generalizing regions with
  | nil => exact ⟨regions, rfl⟩
  | cons p ps ih =>
      obtain ⟨first, others⟩ := List.forall_mem_cons.mp h
      obtain ⟨next, written⟩ := patch_of_fits first
      rw [List.foldlM_cons, except_bind_of_ok written]
      exact ih fun q member => (others q member).congr (bare_patch written)

end Link
end LiveC
