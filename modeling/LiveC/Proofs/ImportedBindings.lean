import Mathlib.Logic.Relation
import LiveC.Proofs.LinkedImage
import LiveC.Proofs.RegistryRuns

/-!
What a link sees of the registry: for each name that the object imports, whether it is bound, and
then the kind and the address. Two registries that agree there give the same link, so that what
is registered or removed under any other name changes nothing.
-/

namespace LiveC

/-- A symbol as linking sees it, which does not ask for its size. -/
def HostSymbol.bare (s : HostSymbol) : HostSymbol := { s with size := none }

namespace Registry

variable {r r' r'' : Registry} {names : List String} {name other : String}

/-- What linking sees of a name. -/
def seen? (r : Registry) (name : String) : Option (SymbolKind × Word) :=
  (r.find? name).map fun s => (s.kind, s.address)

/-- Two registries bind each of the names to symbols of one kind and address, or both do not. -/
def AgreeOn (names : List String) (r r' : Registry) : Prop := ∀ n ∈ names, r.seen? n = r'.seen? n

theorem AgreeOn.refl (names : List String) (r : Registry) : AgreeOn names r r := fun _ _ => rfl

theorem AgreeOn.trans (h : AgreeOn names r r') (h' : AgreeOn names r' r'') : AgreeOn names r r'' :=
  fun n member => (h n member).trans (h' n member)

/-- A name is bound or unbound, with success. -/
inductive Changes (name : String) : Registry → Registry → Prop
  | register {r r' : Registry} {s : HostSymbol} (done : r.register name s = .ok r') :
      Changes name r r'
  | unregister {r r' : Registry} (done : r.unregister name = .ok r') : Changes name r r'

/-- A change of one name leaves the bindings of the others. -/
theorem Changes.find? (h : Changes name r r') (ne : other ≠ name) :
    r'.find? other = r.find? other := by
  cases h with
  | @register s done =>
      rw [register_eq] at done
      split at done
      · cases done
      · split at done
        · cases done
        · cases done
          exact (find?_bind r name other s).trans (if_neg ne)
  | unregister done =>
      unfold Registry.unregister at done
      split at done
      · cases done
        exact (find?_erase r name other).trans (if_neg ne)
      · cases done

theorem Changes.agreeOn (h : Changes name r r') (apart : name ∉ names) : AgreeOn names r r' := by
  intro n member
  rw [seen?, seen?, h.find? fun same => apart (same ▸ member)]

theorem isSome_seen? (r : Registry) (name : String) : (r.seen? name).isSome = r.contains name := by
  rw [seen?, Option.isSome_map, contains]

section

variable (h : AgreeOn names r r')
include h

theorem AgreeOn.missing : (r.snapshot names).2 = (r'.snapshot names).2 := by
  change (names.filter fun n => !r.contains n).eraseDups =
    (names.filter fun n => !r'.contains n).eraseDups
  have bound (n : String) (member : n ∈ names) : (!r.contains n) = !r'.contains n := by
    rw [← isSome_seen?, ← isSome_seen?, h n member]
  rw [List.filter_congr bound]

/-- What both find is the same but for the sizes. -/
theorem AgreeOn.found : (r.snapshot names).1.map (Prod.map id HostSymbol.bare) =
    (r'.snapshot names).1.map (Prod.map id HostSymbol.bare) := by
  have entry (r : Registry) (n : String) :
      ((r.find? n).map fun s => (n, s)).map (Prod.map id HostSymbol.bare) =
        (r.seen? n).map fun s => (n, (⟨s.1, s.2, none⟩ : HostSymbol)) := by
    rw [seen?, Option.map_map, Option.map_map]
    rfl
  change (names.filterMap fun n => (r.find? n).map fun s => (n, s)).map _ =
    (names.filterMap fun n => (r'.find? n).map fun s => (n, s)).map _
  rw [List.map_filterMap, List.map_filterMap]
  exact List.filterMap_congr fun n member => by rw [entry, entry, h n member]

end

end Registry

namespace Link

/-! ### Sizes of host symbols -/

namespace Context

variable (c : Context)

/-- The same work without the sizes of the symbols that the host provides. -/
def bare : Context := { c with resolved := c.resolved.map (Prod.map id HostSymbol.bare) }

theorem lookup_bare (name : String) :
    c.bare.resolved.lookup name = (c.resolved.lookup name).map HostSymbol.bare := by
  change (c.resolved.map (Prod.map id HostSymbol.bare)).lookup name = _
  induction c.resolved with
  | nil => rfl
  | cons e es ih =>
      rw [List.map_cons, List.lookup_cons, List.lookup_cons]
      change (match name == e.1 with | true => _ | false => _) = _
      cases name == e.1 with
      | true => rfl
      | false => exact ih

theorem target_bare (r : Relocation) : c.bare.target r = c.target r := by
  unfold target
  cases r.target with
  | sectionStart => rfl
  | symbol name =>
      have own : c.bare.object.global? name = c.object.global? name := rfl
      simp only [own, lookup_bare]
      cases c.object.global? name with
      | some symbol => rfl
      | none => cases c.resolved.lookup name <;> rfl

theorem field_bare (p : Placement) (r : Relocation) : c.bare.field p r = c.field p r := by
  unfold field
  rw [target_bare]
  rfl

theorem stub_bare (code : Nat) (s : String × Nat) : c.bare.stub code s = c.stub code s := by
  obtain ⟨name, offset⟩ := s
  simp only [stub, lookup_bare]
  cases c.resolved.lookup name <;> rfl

theorem patches_bare : c.bare.patches = c.patches := by
  have copies : c.bare.copies = c.copies := rfl
  have stubs : c.bare.stubs = c.stubs := by
    simp only [stubs, funext (stub_bare c _)]
    rfl
  have fields : c.bare.fields = c.fields := by
    unfold fields
    simp only [funext (field_bare c _)]
    rfl
  rw [patches, patches, copies, stubs, fields]

theorem stats_bare : c.bare.stats = c.stats := by
  unfold stats
  rw [bare, List.length_map]

end Context

/-- What is written behind a plan and the blocks that it is given. -/
def filled (c : Context) (regions : List Region) : Except LinkError Image := do
  let regions ← c.fill regions
  return { regions, symbols := c.loadedSymbols, stats := c.stats }

theorem filled_bare (c : Context) (regions : List Region) :
    filled c.bare regions = filled c regions := by
  unfold filled Context.fill
  rw [Context.patches_bare, Context.stats_bare]
  rfl

section

variable {σ σ' : Type} {allocate : σ → Nat → Option (Word × σ)} {space : σ}
  {allocate' : σ' → Nat → Option (Word × σ')} {space' : σ'} {o : Object} {r r' : Registry}

theorem linkWith_of_refused {e : LinkError} (refused : o.plan r = .error e) :
    o.linkWith allocate r space = .error e := by
  unfold Object.linkWith
  exact except_bind_of_error refused

/-- Behind its plan a link asks for memory, and then writes. -/
theorem linkWith_of_planned {l : ImageLayout} {resolved : List (String × HostSymbol)}
    (planned : o.plan r = .ok (l, resolved)) :
    o.linkWith allocate r space = allocateBlocks allocate space l.blocks >>= fun given =>
      (filled (contextOf o l given.1 resolved) given.1).map (·, given.2) := by
  unfold Object.linkWith
  rw [except_bind_of_ok planned]
  refine bind_congr fun given => ?_
  obtain ⟨regions, rest⟩ := given
  change (contextOf o l regions resolved).fill regions >>= _ =
    ((contextOf o l regions resolved).fill regions >>= _).map _
  cases (contextOf o l regions resolved).fill regions <;> rfl

/-- Two memories give a layout the same blocks. -/
def SameBlocks (allocate : σ → Nat → Option (Word × σ)) (space : σ)
    (allocate' : σ' → Nat → Option (Word × σ')) (space' : σ') (l : ImageLayout) : Prop :=
  (allocateBlocks allocate space l.blocks).map Prod.fst =
    (allocateBlocks allocate' space' l.blocks).map Prod.fst

/-- Both plans are refused for one reason, or both find one layout and symbols with which the same
is written. -/
theorem plans_of_agreeOn (h : r.AgreeOn o.undefinedNames r') :
    (∃ e, o.plan r = .error e ∧ o.plan r' = .error e) ∨
    ∃ l resolved resolved', o.plan r = .ok (l, resolved) ∧ o.plan r' = .ok (l, resolved') ∧
      ∀ regions, filled (contextOf o l regions resolved) regions =
        filled (contextOf o l regions resolved') regions := by
  unfold Object.plan
  cases o.validate with
  | error fault => exact .inl ⟨_, rfl, rfl⟩
  | ok =>
      have missing := h.missing
      have found := h.found
      generalize r.snapshot o.undefinedNames = s at missing found
      generalize r'.snapshot o.undefinedNames = s' at missing found
      obtain ⟨resolved, names⟩ := s
      obtain ⟨resolved', names'⟩ := s'
      cases missing
      cases names with
      | cons => exact .inl ⟨_, rfl, rfl⟩
      | nil =>
          cases o.layout with
          | error e => exact .inl ⟨e, rfl, rfl⟩
          | ok l =>
              refine .inr ⟨l, resolved, resolved', rfl, rfl, fun regions => ?_⟩
              rw [← filled_bare, ← filled_bare (contextOf o l regions resolved')]
              exact congrArg (fun found =>
                filled { contextOf o l regions resolved with resolved := found } regions) found

theorem map_fst_bind {ε α β γ : Type} (x : Except ε (α × β)) (f : α → Except ε γ) :
    (x >>= fun given => (f given.1).map (·, given.2)).map Prod.fst = x.map Prod.fst >>= f := by
  cases x with
  | error e => rfl
  | ok given =>
      change ((f given.1).map (·, given.2)).map Prod.fst = f given.1
      cases f given.1 <;> rfl

/-- A name that no link of the object asks the registry for: the object does not use it, or defines
it. -/
def Ignores (o : Object) (name : String) : Prop :=
  name ∉ o.usedNames ∨ (o.global? name).isSome = true

theorem Ignores.not_imported {name : String} (h : Ignores o name) : name ∉ o.undefinedNames := by
  intro member
  rw [Object.undefinedNames_eq, List.mem_eraseDups, List.mem_filter] at member
  rcases h with unused | own
  · exact unused member.1
  · rw [Option.isNone_iff_eq_none] at member
    rw [member.2] at own
    cases own

/-- Registries between which names were bound or unbound that an object ignores. -/
def ChangedOutside (o : Object) : Registry → Registry → Prop :=
  Relation.ReflTransGen fun r r' => ∃ name, Ignores o name ∧ Registry.Changes name r r'

theorem agreeOn_of_changedOutside (h : ChangedOutside o r r') : r.AgreeOn o.undefinedNames r' := by
  induction h with
  | refl => exact .refl _ _
  | tail _ step ih =>
      obtain ⟨name, ignored, changes⟩ := step
      exact ih.trans (changes.agreeOn ignored.not_imported)

end

/-- A link depends on the registry through the kinds and addresses of the imported names only. If
two registries agree on those, a link is refused before memory is asked for with the same error or
lays out the same; and with the same blocks of memory it comes to the same image or error, of which
the reports are a part. So changes under names that the object defines or does not use leave
every link as it is. -/
theorem linkWith_of_agreeOn (o : Object) :
    (∀ r r' : Registry, r.AgreeOn o.undefinedNames r' →
      (o.plan r).map Prod.fst = (o.plan r').map Prod.fst ∧
      ∀ {σ σ' : Type} (allocate : σ → Nat → Option (Word × σ)) (space : σ)
        (allocate' : σ' → Nat → Option (Word × σ')) (space' : σ'),
        (∀ l, o.layout = .ok l → SameBlocks allocate space allocate' space' l) →
        (o.linkWith allocate r space).map Prod.fst =
          (o.linkWith allocate' r' space').map Prod.fst) ∧
    ∀ r r' : Registry, ChangedOutside o r r' →
      ∀ {σ : Type} (allocate : σ → Nat → Option (Word × σ)) (space : σ),
        o.linkWith allocate r space = o.linkWith allocate r' space := by
  constructor
  · intro r r' agree
    rcases plans_of_agreeOn agree with ⟨e, refused, refused'⟩ |
      ⟨l, resolved, resolved', planned, planned', same⟩
    · refine ⟨by rw [refused, refused'], fun _ _ _ _ _ => ?_⟩
      rw [linkWith_of_refused refused, linkWith_of_refused refused']
      rfl
    · refine ⟨by rw [planned, planned']; rfl, fun allocate space allocate' space' blocks => ?_⟩
      rw [linkWith_of_planned planned, linkWith_of_planned planned',
        map_fst_bind _ fun regions => filled (contextOf o l regions resolved) regions,
        map_fst_bind _ fun regions => filled (contextOf o l regions resolved') regions,
        blocks l (Object.plan_of_plan planned).layout]
      exact bind_congr same
  · intro r r' changed _ allocate space
    rcases plans_of_agreeOn (agreeOn_of_changedOutside changed) with ⟨e, refused, refused'⟩ |
      ⟨l, resolved, resolved', planned, planned', same⟩
    · rw [linkWith_of_refused refused, linkWith_of_refused refused']
    · rw [linkWith_of_planned planned, linkWith_of_planned planned']
      exact bind_congr fun given => by rw [same]

/-- The size of an imported symbol does not matter, and neither does a binding of the object's own
variable. -/
theorem linkWith_of_agreeOn_branchingObject :
    let sized : Registry := { bindings := [("puts", ⟨.function, 0x1000, some 16⟩)] }
    let shadowed : Registry :=
      { bindings := [("self", ⟨.function, 0x2000, none⟩), ("puts", ⟨.function, 0x1000, none⟩)] }
    branchedTo.AgreeOn branchingObject.undefinedNames sized ∧
      ChangedOutside branchingObject branchedTo shadowed ∧
      (branchingObject.linkWith AddressSpace.allocate? branchedTo {}).isOk = true ∧
      (branchingObject.linkWith AddressSpace.allocate? branchedTo {}).map Prod.fst =
        (branchingObject.linkWith AddressSpace.allocate? sized {}).map Prod.fst ∧
      branchingObject.linkWith AddressSpace.allocate? branchedTo {} =
        branchingObject.linkWith AddressSpace.allocate? shadowed {} := by
  intro sized shadowed
  have agree : branchedTo.AgreeOn branchingObject.undefinedNames sized := by
    unfold Registry.AgreeOn
    decide +kernel
  have own : Ignores branchingObject "self" := .inr (by decide +kernel)
  have changed : ChangedOutside branchingObject branchedTo shadowed :=
    .single ⟨"self", own, .register (s := ⟨.function, 0x2000, none⟩) (by rfl)⟩
  exact ⟨agree, changed, by decide +kernel,
    ((linkWith_of_agreeOn branchingObject).1 branchedTo sized agree).2 _ _ _ _ fun _ _ => rfl,
    (linkWith_of_agreeOn branchingObject).2 branchedTo shadowed changed _ _⟩

end Link
end LiveC
