import LiveC.Proofs.LinkedImage
import Mathlib.Data.List.Range

/-!
The memory of an object at every moment of linking and loading. Blocks are set aside, then
written, then sealed one after the other; no step goes back behind an earlier one, so nothing
can be executed before all is written and everything else is sealed.
-/

namespace LiveC

section

variable {σ α ε : Type}

/-- The states that steps lead through, up to the first step that fails. -/
def statesOf (step : σ → α → Except ε σ) (s : σ) : List α → List σ
  | [] => [s]
  | a :: as => s :: match step s a with
    | .ok t => statesOf step t as
    | .error _ => []

variable {step : σ → α → Except ε σ} {s t : σ} {as : List α}

/-- What one step keeps holds of all states. -/
theorem forall_statesOf {P : σ → Prop} (start : P s)
    (keeps : ∀ s a t, P s → step s a = .ok t → P t) : ∀ t ∈ statesOf step s as, P t := by
  induction as generalizing s with
  | nil => exact List.forall_mem_singleton.mpr start
  | cons a as ih =>
      unfold statesOf
      refine List.forall_mem_cons.mpr ⟨start, ?_⟩
      split
      case h_1 t stepped => exact ih (keeps s a t start stepped)
      case h_2 => exact List.forall_mem_nil _

/-- Steps that are known in advance. -/
theorem statesOf_range (f : Nat → σ) {step : σ → Nat → Except ε σ} {n : Nat}
    (h : ∀ k < n, step (f k) k = .ok (f (k + 1))) :
    statesOf step (f 0) (List.range n) = (List.range (n + 1)).map f ∧
      (List.range n).foldlM step (f 0) = .ok (f n) := by
  suffices ∀ m k, k + m = n → statesOf step (f k) (List.range' k m) = (List.range' k (m + 1)).map f ∧
      (List.range' k m).foldlM step (f k) = .ok (f n) by
    have all := this n 0 (Nat.zero_add n)
    rwa [← List.range_eq_range', ← List.range_eq_range'] at all
  intro m
  induction m with
  | zero =>
      rintro k rfl
      exact ⟨rfl, rfl⟩
  | succ m ih =>
      intro k bound
      obtain ⟨states, result⟩ := ih (k + 1) (by omega)
      have first := h k (by omega)
      refine ⟨?_, ?_⟩
      · rw [List.range'_succ, List.range'_succ, List.map_cons, ← states, statesOf, first]
      · rw [List.range'_succ, List.foldlM_cons, except_bind_of_ok first, result]

end

open Link in
/-- The blocks of an object while it is linked and then loaded, from the first block that is
set aside to the last that is sealed or the first failure. -/
def Object.memoryStates {σ : Type} (allocate : σ → Nat → Option (Word × σ)) (o : Object)
    (registry : Registry) (space : σ) : List (List Region) :=
  match o.plan registry with
  | .error _ => []
  | .ok (l, resolved) =>
    (statesOf (allocateBlock allocate) ([], space) l.blocks).map Prod.fst ++
    match allocateBlocks allocate space l.blocks with
    | .error _ => []
    | .ok (given, _) =>
      statesOf write given (contextOf o l given resolved).patches ++
      match (contextOf o l given resolved).fill given with
      | .error _ => []
      | .ok filled =>
        statesOf sealBlock (Image.sealingOrder filled)
          (List.range (Image.sealingOrder filled).length)

namespace Link

/-! ### Sealing -/

/-- A block with the permission of its kind. -/
def close (r : Region) : Region := { r with seal? := some (.ofKind r.kind) }

/-- Blocks of which the first ones are sealed. -/
def closeFirst (regions : List Region) (k : Nat) : List Region :=
  regions.mapIdx fun i r => if i < k then close r else r

/-- Blocks that can all be written. -/
def Open (regions : List Region) : Prop := ∀ r ∈ regions, r.seal? = none

variable {regions written : List Region} {r : Region} {i j k : Nat}

theorem getElem?_closeFirst : (closeFirst regions k)[i]? =
    (regions[i]?).map fun r => if i < k then close r else r := List.getElem?_mapIdx

@[simp] theorem length_closeFirst : (closeFirst regions k).length = regions.length :=
  List.length_mapIdx

theorem closeFirst_zero : closeFirst regions 0 = regions := by
  refine List.ext_getElem? fun i => ?_
  rw [getElem?_closeFirst]
  cases regions[i]? <;> rfl

theorem sealBlock_closeFirst (isOpen : Open regions) (lt : k < regions.length) :
    sealBlock (closeFirst regions k) k = .ok (closeFirst regions (k + 1)) := by
  have there : (closeFirst regions k)[k]? = some regions[k] := by
    rw [getElem?_closeFirst, List.getElem?_eq_getElem lt, Option.map_some,
      if_neg (Nat.lt_irrefl k)]
  have writable : regions[k].isSealed = false := by
    rw [Region.isSealed, isOpen _ (List.getElem_mem lt)]
    rfl
  have closes : regions[k].protect? (.ofKind regions[k].kind) = some (close regions[k]) := by
    rw [Region.protect?, writable]
    rfl
  unfold sealBlock
  simp only [there, closes]
  congr 1
  refine List.ext_getElem? fun i => ?_
  by_cases same : k = i
  · subst same
    rw [List.getElem?_set_self (by rwa [length_closeFirst]), getElem?_closeFirst,
      List.getElem?_eq_getElem lt, Option.map_some, if_pos (Nat.lt_succ_self k)]
  · have still : i < k ↔ i < k + 1 := by omega
    rw [List.getElem?_set_ne same, getElem?_closeFirst, getElem?_closeFirst]
    simp only [still]

theorem closeFirst_of_length_le (h : regions.length ≤ k) :
    closeFirst regions k = regions.map close := by
  refine List.ext_getElem? fun i => ?_
  rw [getElem?_closeFirst, List.getElem?_map]
  cases found : regions[i]? with
  | none => rfl
  | some r =>
      have lt := (List.getElem?_eq_some_iff.mp found).1
      rw [Option.map_some, if_pos (by omega)]
      rfl

/-! ### What holds at every moment -/

/-- What is sealed is in a later state as it is. -/
def Kept (earlier later : List Region) : Prop :=
  ∀ (i : Nat) (r : Region), earlier[i]? = some r → r.isSealed = true → later[i]? = some r

/-- If something can be executed, everything but code was sealed before. -/
def Prepared (earlier state : List Region) : Prop :=
  (∃ r ∈ state, r.permission.isExecutable = true) →
    ∀ q ∈ earlier, q.kind ≠ .text → q.isSealed = true

theorem not_writable_and_executable (p : Permission) :
    ¬(p.isWritable = true ∧ p.isExecutable = true) := by cases p <;> decide

theorem permission_of_open (h : r.seal? = none) : r.permission = .readWrite := by
  rw [Region.permission, h]
  rfl

theorem isSealed_of_executable (runs : r.permission.isExecutable = true) : r.isSealed = true := by
  cases isOpen : r.seal? with
  | none =>
      rw [permission_of_open isOpen] at runs
      cases runs
  | some p => rw [Region.isSealed, isOpen, Option.isSome_some]

theorem not_isSealed_of_open (isOpen : Open regions) (member : r ∈ regions) :
    ¬r.isSealed = true := by
  rw [Region.isSealed, isOpen r member]
  exact Bool.false_ne_true

theorem not_executable_of_open (isOpen : Open regions) (member : r ∈ regions) :
    ¬r.permission.isExecutable = true :=
  fun runs => not_isSealed_of_open isOpen member (isSealed_of_executable runs)

theorem kept_of_open (isOpen : Open regions) : Kept regions written :=
  fun _ _ found isSealed => absurd isSealed (not_isSealed_of_open isOpen (List.mem_of_getElem? found))

theorem prepared_of_open (isOpen : Open written) : Prepared regions written := by
  rintro ⟨r, member, runs⟩
  exact absurd runs (not_executable_of_open isOpen member)

theorem open_of_bare (same : written.map Region.bare = regions.map Region.bare)
    (isOpen : Open regions) : Open written := by
  intro r member
  have known : r.bare ∈ regions.map Region.bare := same ▸ List.mem_map_of_mem member
  obtain ⟨t, member, bare⟩ := List.mem_map.mp known
  have seals : t.bare.seal? = r.bare.seal? := congrArg Region.seal? bare
  exact seals.symm.trans (isOpen t member)

theorem open_of_zeroed {blocks : List (SectionKind × Nat)} (zeroed : Zeroed blocks regions) :
    Open regions := by
  intro r member
  rw [zeroed.allocated r member]
  rfl

/-- Setting memory aside and writing it keep all blocks writable. -/
theorem open_of_allocateBlock {σ : Type} {allocate : σ → Nat → Option (Word × σ)}
    {s t : List Region × σ} {block : SectionKind × Nat} (isOpen : Open s.1)
    (h : allocateBlock allocate s block = .ok t) : Open t.1 := by
  obtain ⟨base, new⟩ := allocateBlock_ok h
  rw [new]
  exact List.forall_mem_append.mpr ⟨isOpen, List.forall_mem_singleton.mpr rfl⟩

theorem open_of_write {p : Except LinkError Patch} (isOpen : Open regions)
    (h : write regions p = .ok written) : Open written := by
  obtain ⟨q, rfl, h⟩ := ok_of_bind h
  exact open_of_bare (bare_patch h) isOpen

/-! ### What holds behind linking -/

theorem mem_sealingOrder : r ∈ Image.sealingOrder regions ↔ r ∈ regions := by
  unfold Image.sealingOrder
  rw [List.mem_append, List.mem_filter, List.mem_filter]
  by_cases code : r.kind = .text <;> simp [code]

theorem open_sealingOrder (isOpen : Open regions) : Open (Image.sealingOrder regions) :=
  fun r member => isOpen r (mem_sealingOrder.mp member)

/-- Only the last block to be sealed can hold code. -/
theorem text_last (distinct : (regions.map Region.kind).Nodup)
    (found : (Image.sealingOrder regions)[i]? = some r) (code : r.kind = .text) :
    i + 1 = (Image.sealingOrder regions).length := by
  unfold Image.sealingOrder at found ⊢
  have single : (regions.filter (·.kind = .text)).length ≤ 1 := by
    have same : (regions.filter (·.kind = .text)).map Region.kind =
        List.replicate (regions.filter (·.kind = .text)).length .text := by
      refine List.eq_replicate_iff.mpr ⟨List.length_map .., fun kind member => ?_⟩
      obtain ⟨r, isText, rfl⟩ := List.mem_map.mp member
      exact of_decide_eq_true (List.mem_filter.mp isText).2
    have distinct := distinct.sublist
      (List.Sublist.map Region.kind (List.filter_sublist (p := (·.kind = .text))))
    rw [same] at distinct
    exact List.nodup_replicate.mp distinct
  have lt := (List.getElem?_eq_some_iff.mp found).1
  rw [List.length_append] at lt ⊢
  by_cases early : i < (regions.filter (·.kind ≠ .text)).length
  · rw [List.getElem?_append_left early] at found
    have other := of_decide_eq_true (List.mem_filter.mp (List.mem_of_getElem? found)).2
    exact absurd code other
  · omega

/-- Loading closes all blocks, one after the other. -/
theorem states_of_load (isOpen : Open regions) :
    statesOf sealBlock (Image.sealingOrder regions)
        (List.range (Image.sealingOrder regions).length) =
      (List.range ((Image.sealingOrder regions).length + 1)).map
        (closeFirst (Image.sealingOrder regions)) ∧
    (List.range (Image.sealingOrder regions).length).foldlM sealBlock (Image.sealingOrder regions) =
      .ok ((Image.sealingOrder regions).map close) := by
  have close (k : Nat) (lt : k < (Image.sealingOrder regions).length) :=
    sealBlock_closeFirst (open_sealingOrder isOpen) lt
  have steps := statesOf_range (closeFirst (Image.sealingOrder regions)) close
  rwa [closeFirst_zero, closeFirst_of_length_le (Nat.le_refl _)] at steps

section

variable (isOpen : Open regions)
include isOpen

/-- A block that is sealed while the blocks are closed is one of the first ones. -/
theorem sealed_of_closeFirst (found : (closeFirst (Image.sealingOrder regions) k)[i]? = some r)
    (isSealed : r.isSealed = true) :
    ∃ t, (Image.sealingOrder regions)[i]? = some t ∧ i < k ∧ close t = r := by
  rw [getElem?_closeFirst] at found
  obtain ⟨t, there, same⟩ := Option.map_eq_some_iff.mp found
  split at same
  case isTrue lt => exact ⟨t, there, lt, same⟩
  case isFalse =>
    have unsealed := open_sealingOrder isOpen t (List.mem_of_getElem? there)
    rw [← same, Region.isSealed, unsealed] at isSealed
    cases isSealed

/-- Only code can be executed, and it comes last. -/
theorem executable_last (distinct : (regions.map Region.kind).Nodup)
    (member : r ∈ closeFirst (Image.sealingOrder regions) k)
    (runs : r.permission.isExecutable = true) :
    ∃ i t, (Image.sealingOrder regions)[i]? = some t ∧ t.kind = .text ∧ i < k ∧
      i + 1 = (Image.sealingOrder regions).length := by
  obtain ⟨i, found⟩ := List.mem_iff_getElem?.mp member
  obtain ⟨t, there, lt, rfl⟩ := sealed_of_closeFirst isOpen found (isSealed_of_executable runs)
  have code : t.kind = .text := by
    change (Permission.ofKind t.kind).isExecutable = true at runs
    cases kind : t.kind <;> rw [kind] at runs <;> first | rfl | cases runs
  exact ⟨i, t, there, code, lt, text_last distinct there code⟩

/-- Before code can be executed, all other blocks are sealed. -/
theorem prepared_closeFirst (distinct : (regions.map Region.kind).Nodup) :
    Prepared (closeFirst (Image.sealingOrder regions) k)
      (closeFirst (Image.sealingOrder regions) (k + 1)) := by
  rintro ⟨r, isNext, runs⟩ q member other
  obtain ⟨i, t, there, code, lt, last⟩ := executable_last isOpen distinct isNext runs
  obtain ⟨j, found⟩ := List.mem_iff_getElem?.mp member
  have inside := (List.getElem?_eq_some_iff.mp found).1
  rw [length_closeFirst] at inside
  rw [getElem?_closeFirst] at found
  obtain ⟨u, there', same⟩ := Option.map_eq_some_iff.mp found
  by_cases closed : j < k
  · rw [if_pos closed] at same
    rw [← same]
    rfl
  · obtain rfl : i = j := by omega
    rw [there] at there'
    rw [if_neg closed, ← Option.some.inj there'] at same
    exact absurd (same ▸ code) other

/-- What is sealed stays in its place, as it is. -/
theorem kept_closeFirst (le : j ≤ k) : Kept (closeFirst (Image.sealingOrder regions) j)
    (closeFirst (Image.sealingOrder regions) k) := by
  intro i r found isSealed
  obtain ⟨t, there, lt, rfl⟩ := sealed_of_closeFirst isOpen found isSealed
  rw [getElem?_closeFirst, there, Option.map_some, if_pos (by omega)]

end

variable {o : Object} {registry : Registry} {σ : Type} {allocate : σ → Nat → Option (Word × σ)}
  {space : σ}

/-- Until linking is done all blocks are writable, and behind it they are closed. -/
theorem memoryStates_split (o : Object) (registry : Registry)
    (allocate : σ → Nat → Option (Word × σ)) (space : σ) : ∃ early late,
    o.memoryStates allocate registry space = early ++ late ∧ (∀ state ∈ early, Open state) ∧
      ((late = [] ∧ ∀ r, o.linkWith allocate registry space ≠ .ok r) ∨
        ∃ image space', o.linkWith allocate registry space = .ok (image, space') ∧
          Open image.regions ∧ (image.regions.map Region.kind).Nodup ∧
          late = (List.range ((Image.sealingOrder image.regions).length + 1)).map
            (closeFirst (Image.sealingOrder image.regions))) := by
  unfold Object.memoryStates Object.linkWith
  cases planned : o.plan registry with
  | error e => exact ⟨[], [], rfl, List.forall_mem_nil _, .inl ⟨rfl, nofun⟩⟩
  | ok found =>
  obtain ⟨l, resolved⟩ := found
  have plan := Object.plan_of_plan planned
  have first : ∀ state ∈ (statesOf (allocateBlock allocate) ([], space) l.blocks).map Prod.fst,
      Open state := by
    refine List.forall_mem_map.mpr (forall_statesOf (P := fun s : List Region × σ => Open s.1) ?_ ?_)
    · exact List.forall_mem_nil _
    · exact fun s block t isOpen stepped => open_of_allocateBlock isOpen stepped
  rw [except_bind_of_ok rfl]
  dsimp only
  cases allocated : allocateBlocks allocate space l.blocks with
  | error e => exact ⟨_, [], rfl, by simpa using first, .inl ⟨rfl, nofun⟩⟩
  | ok found =>
  obtain ⟨given, space'⟩ := found
  have zeroed := zeroed_of_allocateBlocks allocated
  have second : ∀ state ∈ statesOf write given (contextOf o l given resolved).patches, Open state :=
    forall_statesOf (open_of_zeroed zeroed) fun s p t isOpen stepped => open_of_write isOpen stepped
  rw [except_bind_of_ok rfl]
  dsimp only
  cases written : (contextOf o l given resolved).fill given with
  | error e =>
      refine ⟨_, [], (List.append_assoc ..).symm, List.forall_mem_append.mpr ⟨first, second⟩,
        .inl ⟨rfl, fun r links => ?_⟩⟩
      · obtain ⟨filled, done, -⟩ := ok_of_bind links
        cases written.symm.trans done
  | ok filled =>
      have isOpen : Open filled := (foldlM_write written).elim fun ps h =>
        open_of_bare (bare_patches h.2) (open_of_zeroed zeroed)
      refine ⟨_, _, (List.append_assoc ..).symm, List.forall_mem_append.mpr ⟨first, second⟩,
        .inr ⟨_, space', except_bind_of_ok written, isOpen, ?_, (states_of_load isOpen).1⟩⟩
      have sound := Object.sound_of_layout plan.valid plan.layout
      have kinds : filled.map Region.kind = l.blocks.map Prod.fst := by
        obtain ⟨ps, -, done⟩ := foldlM_write written
        have bare := congrArg (List.map Region.kind) (bare_patches done)
        rw [List.map_map, List.map_map] at bare
        rw [← zeroed.blocks, List.map_map]
        exact bare
      rw [kinds]
      exact sound.present.nodup (by decide)

theorem load_eq_ok {image loaded : Image} (isOpen : Open image.regions)
    (h : image.load = .ok loaded) :
    loaded.regions = (Image.sealingOrder image.regions).map close := by
  unfold Image.load at h
  obtain ⟨regions, closed, h⟩ := ok_of_bind h
  rw [(states_of_load isOpen).2] at closed
  cases closed
  cases h
  rfl

theorem sealingOrder_perm (regions : List Region) : (Image.sealingOrder regions).Perm regions := by
  have perm := List.filter_append_perm (fun r : Region => decide (r.kind ≠ .text)) regions
  simpa [Image.sealingOrder] using perm

/-- Memory is guarded all through linking and loading: nothing is ever writable and executable,
code can be executed only when all is linked and sealed, and what is sealed stays as it is. -/
theorem memoryStates_guarded (o : Object) (registry : Registry)
    (allocate : σ → Nat → Option (Word × σ)) (space : σ) :
    (∀ state ∈ o.memoryStates allocate registry space, ∀ r ∈ state,
      ¬(r.permission.isWritable = true ∧ r.permission.isExecutable = true) ∧
      (r.permission.isExecutable = true → r.isSealed = true ∧ (∀ q ∈ state, q.isSealed = true) ∧
        ∃ image space', o.linkWith allocate registry space = .ok (image, space') ∧
          state = (Image.sealingOrder image.regions).map close)) ∧
    (o.memoryStates allocate registry space).IsChain Prepared ∧
    (o.memoryStates allocate registry space).Pairwise Kept ∧
    (∀ r : Region, r.isSealed = true →
      (∀ contents, r.write? contents = none) ∧ ∀ p, r.protect? p = none) ∧
    (∀ image space' loaded, o.linkWith allocate registry space = .ok (image, space') →
      image.load = .ok loaded →
        (o.memoryStates allocate registry space).getLast? = some loaded.regions ∧
        (∀ r ∈ loaded.regions, r.isSealed = true ∧ r.permission = .ofKind r.kind) ∧
        (loaded.regions.map Region.kind).Nodup) := by
  obtain ⟨early, late, split, isOpen, ends⟩ := memoryStates_split o registry allocate space
  have earlyChain : early.IsChain Prepared :=
    List.isChain_iff_getElem.mpr fun i lt => prepared_of_open (isOpen _ (List.getElem_mem _))
  have earlyKept : early.Pairwise Kept :=
    List.pairwise_iff_getElem.mpr fun i j hi hj lt => kept_of_open (isOpen _ (List.getElem_mem hi))
  have earlyCode (state) (before : state ∈ early) (r) (member : r ∈ state) :
      ¬r.permission.isExecutable = true := not_executable_of_open (isOpen state before) member
  rw [split]
  refine ⟨fun state known r member => ⟨not_writable_and_executable _, fun runs =>
    ⟨isSealed_of_executable runs, ?_⟩⟩, ?_, ?_, fun r isSealed =>
    ⟨fun _ => if_pos isSealed, fun _ => if_pos isSealed⟩, fun image space' loaded links loads => ?_⟩
  · rcases List.mem_append.mp known with before | behind
    · exact absurd runs (earlyCode state before r member)
    · rcases ends with ⟨rfl, -⟩ | ⟨image, space', linked, imageOpen, distinct, rfl⟩
      · cases behind
      · obtain ⟨k, -, rfl⟩ := List.mem_map.mp behind
        obtain ⟨i, t, -, -, lt, last⟩ := executable_last imageOpen distinct member runs
        rw [closeFirst_of_length_le (by omega)]
        exact ⟨List.forall_mem_map.mpr fun _ _ => rfl, image, space', linked, rfl⟩
  · refine List.isChain_append.mpr ⟨earlyChain, ?_, ?_⟩
    · rcases ends with ⟨rfl, -⟩ | ⟨image, space', linked, imageOpen, distinct, rfl⟩
      · exact .nil
      · exact (List.isChain_map _).mpr ((List.isChain_range _ _).mpr fun k _ =>
          prepared_closeFirst imageOpen distinct)
    · rcases ends with ⟨rfl, -⟩ | ⟨image, space', linked, imageOpen, distinct, rfl⟩
      · exact fun _ _ _ => nofun
      · intro x _ y first
        rw [List.range_succ_eq_map, List.map_cons, closeFirst_zero, List.head?_cons] at first
        cases first
        exact prepared_of_open (open_sealingOrder imageOpen)
  · refine List.pairwise_append.mpr ⟨earlyKept, ?_, fun x before y _ => kept_of_open (isOpen x before)⟩
    rcases ends with ⟨rfl, -⟩ | ⟨image, space', linked, imageOpen, distinct, rfl⟩
    · exact .nil
    · exact List.pairwise_map.mpr (List.pairwise_lt_range.imp fun lt =>
        kept_closeFirst imageOpen (Nat.le_of_lt lt))
  · rcases ends with ⟨-, fails⟩ | ⟨image, space', linked, imageOpen, distinct, rfl⟩
    · exact absurd links (fails _)
    · rw [links] at linked
      cases linked
      rw [load_eq_ok imageOpen loads]
      refine ⟨?_, List.forall_mem_map.mpr fun _ _ => ⟨rfl, rfl⟩, ?_⟩
      · rw [List.range_succ, List.map_append, ← List.append_assoc, List.map_singleton,
          List.getLast?_concat, closeFirst_of_length_le (Nat.le_refl _)]
      · rw [List.map_map]
        exact ((sealingOrder_perm _).map Region.kind).nodup_iff.mpr distinct

end Link
end LiveC
