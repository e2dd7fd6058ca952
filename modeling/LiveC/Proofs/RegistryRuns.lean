import LiveC.Proofs.LinkTargets
import LiveC.Registry
import Mathlib.Data.List.Induction

/-!
The registry over whole runs of requests. What a run has answered decides what is bound: a name is
bound to the symbol of its last registration that succeeded, unless a removal has succeeded since.
Each request keeps the registry in line with the answers so far.
-/

namespace LiveC

namespace Registry

/-! ### Bindings -/

variable {r r' : Registry} {name other : String} {s t : HostSymbol}

/-- The registry with a name bound to a symbol. -/
def bind (r : Registry) (name : String) (s : HostSymbol) : Registry :=
  { r.erase name with bindings := (name, s) :: (r.erase name).bindings }

theorem find?_erase (r : Registry) (name other : String) :
    (r.erase name).find? other = if other = name then none else r.find? other := by
  change (r.bindings.filter (·.1 != name)).lookup other = if _ then _ else r.bindings.lookup other
  induction r.bindings with
  | nil => simp
  | cons e es ih =>
      obtain ⟨bound, s⟩ := e
      by_cases same : bound = name
      · rw [List.filter_cons_of_neg (by simpa using same), ih, List.lookup_cons]
        by_cases found : other = name
        · rw [if_pos found, if_pos found]
        · have skipped : (other == bound) = false := beq_eq_false_iff_ne.mpr (same ▸ found)
          rw [if_neg found, if_neg found, skipped]
      · rw [List.filter_cons_of_pos (by simpa using same), List.lookup_cons, List.lookup_cons, ih]
        by_cases found : other = bound
        · rw [found, if_neg same, beq_self_eq_true]
          exact (if_neg same).symm
        · rw [beq_eq_false_iff_ne.mpr found]

theorem find?_bind (r : Registry) (name other : String) (s : HostSymbol) :
    (r.bind name s).find? other = if other = name then some s else r.find? other := by
  change List.lookup other ((name, s) :: (r.erase name).bindings) = _
  rw [List.lookup_cons]
  by_cases same : other = name
  · rw [if_pos same, same, beq_self_eq_true]
  · rw [if_neg same, beq_eq_false_iff_ne.mpr same]
    exact (find?_erase r name other).trans (if_neg same)

theorem contains_iff : r.contains name = true ↔ ∃ s, r.find? name = some s := by
  rw [contains, Option.isSome_iff_exists]

/-- A name is bound if it stands among the bindings. -/
theorem mem_map_fst : name ∈ r.bindings.map Prod.fst ↔ ∃ s, r.find? name = some s := by
  change _ ↔ ∃ s, r.bindings.lookup name = some s
  induction r.bindings with
  | nil => simp
  | cons e es ih =>
      rw [List.map_cons, List.mem_cons, List.lookup_cons, ih]
      by_cases same : name = e.1
      · simp [same]
      · simp [same, beq_eq_false_iff_ne.mpr same]

theorem nodup_erase (distinct : (r.bindings.map Prod.fst).Nodup) (name : String) :
    ((r.erase name).bindings.map Prod.fst).Nodup ∧ name ∉ (r.erase name).bindings.map Prod.fst := by
  refine ⟨distinct.sublist (List.filter_sublist.map _), fun member => ?_⟩
  obtain ⟨s, found⟩ := mem_map_fst.mp member
  rw [find?_erase, if_pos rfl] at found
  cases found

/-! ### Identifiers -/

/-- A character that identifiers of C start with. -/
def IsLetter (c : Char) : Prop := c = '_' ∨ ('a' ≤ c ∧ c ≤ 'z') ∨ ('A' ≤ c ∧ c ≤ 'Z')

/-- A letter, followed by letters and digits. -/
def IsIdentifier (name : String) : Prop :=
  ∃ c cs, name.toList = c :: cs ∧ IsLetter c ∧ ∀ d ∈ cs, IsLetter d ∨ ('0' ≤ d ∧ d ≤ '9')

theorem isWordStart_iff {c : Char} : Text.isWordStart c = true ↔ IsLetter c := by
  delta Text.isWordStart Char.isAlpha Char.isUpper Char.isLower
  simp only [Bool.or_eq_true, Bool.and_eq_true, decide_eq_true_eq, beq_iff_eq, IsLetter,
    Char.le_def]
  exact or_comm.trans (or_congr_right or_comm)

theorem isWordChar_iff {c : Char} :
    Text.isWordChar c = true ↔ IsLetter c ∨ ('0' ≤ c ∧ c ≤ '9') := by
  have digit : c.isDigit = true ↔ '0' ≤ c ∧ c ≤ '9' := by
    simp only [Char.isDigit, Bool.and_eq_true, decide_eq_true_eq, Char.le_def, ge_iff_le]
  rw [← isWordStart_iff, ← digit, ← Bool.or_eq_true, Text.isWordChar, Text.isWordStart,
    Char.isAlphanum, Bool.or_right_comm]

theorem isValidName_iff : isValidName name = true ↔ IsIdentifier name := by
  unfold isValidName IsIdentifier
  cases name.toList with
  | nil => simp
  | cons c cs =>
      simp only [Bool.and_eq_true, List.all_eq_true, isWordStart_iff, isWordChar_iff,
        List.cons.injEq]
      constructor
      · exact fun h => ⟨c, cs, ⟨rfl, rfl⟩, h⟩
      · rintro ⟨_, _, ⟨rfl, rfl⟩, h⟩
        exact h

/-! ### Requests -/

/-- What can be asked of a registry. -/
inductive Request where
  | register (name : String) (s : HostSymbol)
  | registerFunction (name : String) (address : Word)
  | unregister (name : String)
  | lookup (name : String)
  | contains (name : String)
  | size
  | names
  | snapshot (names : List String)

inductive Answer where
  | done (r : Except RegistryError Unit)
  | symbol (r : Except RegistryError HostSymbol)
  | bound (b : Bool)
  | size (n : Nat)
  | names (l : List String)
  | snapshot (found : List (String × HostSymbol)) (missing : List String)

/-- Whether a request has failed. -/
def Answer.isError : Answer → Bool
  | done (.error _) | symbol (.error _) => true
  | _ => false

/-- The registry behind a change, or as it is if the change fails. -/
def settle (r : Registry) : Except RegistryError Registry → Answer × Registry
  | .ok r' => (.done (.ok ()), r')
  | .error e => (.done (.error e), r)

/-- Does what is asked. -/
def perform (r : Registry) : Request → Answer × Registry
  | .register name s => r.settle (r.register name s)
  | .registerFunction name address => r.settle (r.registerFunction name address)
  | .unregister name => r.settle (r.unregister name)
  | .lookup name => (.symbol (r.lookup name), r)
  | .contains name => (.bound (r.contains name), r)
  | .size => (.size r.size, r)
  | .names => (.names r.names, r)
  | .snapshot names => (.snapshot (r.snapshot names).1 (r.snapshot names).2, r)

/-- What has been asked, with the answers. -/
abbrev History := List (Request × Answer)

/-- Does all that is asked, one after the other. -/
def run (r : Registry) (requests : List Request) : History × Registry :=
  requests.foldl (fun (history, r) q => (history ++ [(q, (r.perform q).1)], (r.perform q).2)) ([], r)

/-- The name and the symbol that a request is to bind. -/
def Request.registers? : Request → Option (String × HostSymbol)
  | register name s => some (name, s)
  | registerFunction name address => some (name, { kind := .function, address })
  | _ => none

/-- The one name that a request is about. -/
def Request.subject? : Request → Option String
  | register name _ | registerFunction name _ | unregister name | lookup name | contains name =>
    some name
  | size | names | snapshot _ => none

/-- A registration that has succeeded. -/
def Binds (e : Request × Answer) (name : String) (s : HostSymbol) : Prop :=
  e.1.registers? = some (name, s) ∧ e.2 = .done (.ok ())

/-- A removal that has succeeded. -/
def Frees (e : Request × Answer) (name : String) : Prop := e = (.unregister name, .done (.ok ()))

/-- The last registration of a name that succeeded, with no removal of it since. -/
def BoundIn (history : History) (name : String) (s : HostSymbol) : Prop :=
  ∃ before e since, history = before ++ e :: since ∧ Binds e name s ∧
    ∀ later ∈ since, (∀ t, ¬Binds later name t) ∧ ¬Frees later name

/-! ### One request -/

theorem register_eq (r : Registry) (name : String) (s : HostSymbol) : r.register name s =
    if isValidName name = false then .error (.invalidName name)
    else if r.allowOverwrite = false ∧ r.contains name = true then .error (.duplicate name)
    else .ok (r.bind name s) := by
  unfold register
  simp only [Bool.not_eq_true', Bool.and_eq_true]
  rfl

/-- All that a request can do. -/
inductive Step (r : Registry) (q : Request) : Answer → Registry → Prop
  | bound {name : String} {s : HostSymbol} (asked : q.registers? = some (name, s))
      (valid : isValidName name = true)
      (free : r.allowOverwrite = true ∨ r.find? name = none) :
      Step r q (.done (.ok ())) (r.bind name s)
  | freed {name : String} (asked : q = .unregister name) (found : r.contains name = true) :
      Step r q (.done (.ok ())) (r.erase name)
  | kept {a : Answer} (quiet : a ≠ .done (.ok ())) : Step r q a r

theorem step_register {q : Request} (asked : q.registers? = some (name, s)) :
    Step r q (r.settle (r.register name s)).1 (r.settle (r.register name s)).2 := by
  rw [register_eq]
  by_cases valid : isValidName name = false
  · rw [if_pos valid]
    exact .kept nofun
  · rw [if_neg valid]
    by_cases taken : r.allowOverwrite = false ∧ r.contains name = true
    · rw [if_pos taken]
      exact .kept nofun
    · rw [if_neg taken]
      refine .bound asked (by simpa using valid) ?_
      rw [contains, Option.isSome_iff_ne_none] at taken
      grind

theorem step_perform (r : Registry) (q : Request) : Step r q (r.perform q).1 (r.perform q).2 := by
  cases q with
  | register name s => exact step_register rfl
  | registerFunction name address => exact step_register rfl
  | unregister name =>
      change Step r _ (r.settle (r.unregister name)).1 (r.settle (r.unregister name)).2
      unfold unregister
      by_cases found : r.contains name = true
      · rw [if_pos found]
        exact .freed rfl found
      · rw [if_neg found]
        exact .kept nofun
  | _ => exact .kept nofun

/-! ### The account that a history gives -/

variable {overwrite : Bool} {history : History} {e : Request × Answer}

/-- The last entry binds the name, or passes it by. -/
theorem boundIn_concat : BoundIn (history ++ [e]) name s ↔
    Binds e name s ∨ (((∀ t, ¬Binds e name t) ∧ ¬Frees e name) ∧ BoundIn history name s) := by
  constructor
  · rintro ⟨before, e', since, split, binds, quiet⟩
    rcases List.eq_nil_or_concat since with rfl | ⟨since, last, rfl⟩
    · obtain ⟨-, same⟩ := List.append_inj' split rfl
      exact .inl (List.singleton_inj.mp same ▸ binds)
    · have split : history ++ [e] = (before ++ e' :: since) ++ [last] := by simpa using split
      obtain ⟨same, isLast⟩ := List.append_inj' split rfl
      obtain rfl := List.singleton_inj.mp isLast
      rw [List.concat_eq_append] at quiet
      obtain ⟨quiet, passed⟩ := List.forall_mem_append.mp quiet
      exact .inr ⟨passed e (.head _), before, e', since, same, binds, quiet⟩
  · rintro (binds | ⟨passed, before, e', since, rfl, binds, quiet⟩)
    · exact ⟨history, e, [], rfl, binds, List.forall_mem_nil _⟩
    · exact ⟨before, e', since ++ [e], by simp, binds,
        List.forall_mem_append.mpr ⟨quiet, List.forall_mem_singleton.mpr passed⟩⟩

/-- A registry that holds what a history says. -/
structure Tracks (overwrite : Bool) (history : History) (r : Registry) : Prop where
  policy : r.allowOverwrite = overwrite
  bindings : ∀ name s, r.find? name = some s ↔ BoundIn history name s
  valid : ∀ name s, r.find? name = some s → isValidName name = true
  distinct : (r.bindings.map Prod.fst).Nodup

theorem Tracks.start (overwrite : Bool) : Tracks overwrite [] { allowOverwrite := overwrite } where
  policy := rfl
  bindings name s := by
    constructor
    · intro found
      cases found
    · rintro ⟨before, e, since, split, -⟩
      cases before <;> cases split
  valid _ _ found := by cases found
  distinct := List.nodup_nil

/-- A request keeps the registry in line with the answers. -/
theorem Tracks.step {q : Request} {a : Answer} (h : Tracks overwrite history r)
    (does : Step r q a r') : Tracks overwrite (history ++ [(q, a)]) r' := by
  obtain ⟨policy, bindings, valid, distinct⟩ := h
  cases does with
  | @bound name s asked isValid free =>
      have binds (n t) : Binds (q, .done (.ok ())) n t ↔ n = name ∧ t = s := by
        unfold Binds
        rw [and_iff_left rfl, asked, Option.some_inj, Prod.mk.injEq]
        exact and_congr eq_comm eq_comm
      have frees (n) : ¬Frees (q, .done (.ok ())) n := by
        intro freed
        rw [show q = .unregister n from congrArg Prod.fst freed] at asked
        cases asked
      refine ⟨policy, fun n t => ?_, fun n t found => ?_, ?_⟩
      · rw [boundIn_concat, find?_bind, binds, ← bindings]
        by_cases same : n = name
        · rw [if_pos same]
          simp [binds, same, eq_comm]
        · rw [if_neg same]
          simp [binds, frees, same]
      · rw [find?_bind] at found
        split at found
        case isTrue same => rwa [same]
        case isFalse => exact valid n t found
      · obtain ⟨others, fresh⟩ := nodup_erase distinct name
        exact List.nodup_cons.mpr ⟨fresh, others⟩
  | @freed name asked found =>
      subst asked
      have binds (n t) : ¬Binds (.unregister name, .done (.ok ())) n t := fun h => by cases h.1
      have frees (n) : Frees (.unregister name, .done (.ok ())) n ↔ n = name := by
        simp [Frees, eq_comm]
      refine ⟨policy, fun n t => ?_, fun n t found => ?_, (nodup_erase distinct name).1⟩
      · rw [boundIn_concat, find?_erase, ← bindings]
        by_cases same : n = name
        · simp [binds, frees, same]
        · simp [binds, frees, same]
      · rw [find?_erase] at found
        split at found
        case isTrue => cases found
        case isFalse => exact valid n t found
  | kept quiet =>
      have binds (n t) : ¬Binds (q, a) n t := fun h => quiet h.2
      have frees (n) : ¬Frees (q, a) n := fun h => quiet (congrArg Prod.snd h)
      refine ⟨policy, fun n t => ?_, valid, distinct⟩
      rw [boundIn_concat, ← bindings]
      simp [binds, frees]

theorem run_concat (r : Registry) (requests : List Request) (q : Request) :
    r.run (requests ++ [q]) = ((r.run requests).1 ++ [(q, ((r.run requests).2.perform q).1)],
      ((r.run requests).2.perform q).2) := List.foldl_concat ..

/-- What holds of a new registry holds behind every run. -/
theorem Tracks.run (overwrite : Bool) (requests : List Request) :
    Tracks overwrite (Registry.run { allowOverwrite := overwrite } requests).1
      (Registry.run { allowOverwrite := overwrite } requests).2 := by
  induction requests using List.reverseRecOn with
  | nil => exact .start overwrite
  | append_singleton requests q ih =>
      rw [run_concat]
      exact ih.step (step_perform _ q)

/-! ### What a registry answers -/

/-- Names without repetition stand in the order in which they are first met. -/
theorem eraseDups_ordered {α : Type} [BEq α] [LawfulBEq α] (l : List α) :
    l.eraseDups.Pairwise fun a b => l.idxOf a < l.idxOf b := by
  induction l with
  | nil => exact .nil
  | cons a l ih =>
      have other (b) (member : b ∈ l.eraseDups.filter fun b => !b == a) : (a == b) = false := by
        have ne : b ≠ a := by simpa using (List.mem_filter.mp member).2
        exact beq_eq_false_iff_ne.mpr ne.symm
      rw [List.eraseDups_cons, eraseDups_filter, List.pairwise_cons]
      constructor
      · intro b member
        rw [List.idxOf_cons_self, List.idxOf_cons, other b member]
        exact Nat.succ_pos _
      · refine (ih.filter _).imp_of_mem fun hb hc lt => ?_
        rw [List.idxOf_cons, List.idxOf_cons, other _ hb, other _ hc]
        exact Nat.succ_lt_succ lt

/-- The map of names that a registry is, by the history of what it was asked. -/
structure NameMap (overwrite : Bool) (history : History) (r : Registry) : Prop where
  lookup : ∀ name s, r.lookup name = .ok s ↔ BoundIn history name s
  notFound : ∀ name, r.lookup name = .error (.notFound name) ↔ ∀ s, ¬BoundIn history name s
  contains : ∀ name, r.contains name = true ↔ ∃ s, BoundIn history name s
  identifiers : ∀ name s, BoundIn history name s → IsIdentifier name
  /-- A registration fails for its name, whatever is bound, or for a name that is taken. -/
  registers : ∀ q name s, q.registers? = some (name, s) →
    (¬IsIdentifier name → (r.perform q).1 = .done (.error (.invalidName name))) ∧
    (IsIdentifier name → overwrite = false → (∃ t, BoundIn history name t) →
      (r.perform q).1 = .done (.error (.duplicate name))) ∧
    (IsIdentifier name → (overwrite = true ∨ ∀ t, ¬BoundIn history name t) →
      (r.perform q).1 = .done (.ok ()))
  unregisters : ∀ name,
    ((∃ s, BoundIn history name s) → (r.perform (.unregister name)).1 = .done (.ok ())) ∧
    ((∀ s, ¬BoundIn history name s) →
      (r.perform (.unregister name)).1 = .done (.error (.notFound name)))
  failed : ∀ q, (r.perform q).1.isError = true → (r.perform q).2 = r
  others : ∀ q name, q.subject? = some name →
    ∀ other ≠ name, (r.perform q).2.lookup other = r.lookup other
  /-- The rest only reads. -/
  reads : ∀ q, q.registers? = none → (∀ name, q ≠ .unregister name) → (r.perform q).2 = r
  names : r.names.Pairwise (· < ·) ∧ ∀ name, name ∈ r.names ↔ ∃ s, BoundIn history name s
  size : r.size = r.names.length
  found : ∀ wanted name s,
    (name, s) ∈ (r.snapshot wanted).1 ↔ name ∈ wanted ∧ BoundIn history name s
  missing : ∀ wanted, (r.snapshot wanted).2.Nodup ∧
    (r.snapshot wanted).2.Pairwise (fun a b => wanted.idxOf a < wanted.idxOf b) ∧
    ∀ name, name ∈ (r.snapshot wanted).2 ↔ name ∈ wanted ∧ ∀ s, ¬BoundIn history name s

theorem lookup_eq_ok : r.lookup name = .ok s ↔ r.find? name = some s := by
  unfold Registry.lookup
  cases r.find? name <;> simp

/-- The names of bindings that are apart come in strict order. -/
theorem names_increasing (distinct : (r.bindings.map Prod.fst).Nodup) :
    r.names.Pairwise (· < ·) := by
  have perm := List.mergeSort_perm (r.bindings.map Prod.fst) fun a b => a < b || a == b
  have apart := List.nodup_iff_pairwise_ne.mp (perm.nodup_iff.mpr distinct)
  exact ((Object.sorted_mergeSort (r.bindings.map Prod.fst)).and apart).imp (by grind)

theorem mem_names : name ∈ r.names ↔ ∃ s, r.find? name = some s := by
  rw [names, List.mem_mergeSort, mem_map_fst]

theorem perform_register {q : Request} (asked : q.registers? = some (name, s)) :
    (r.perform q).1 = (r.settle (r.register name s)).1 := by
  cases q <;> cases asked <;> rfl

/-- A request about one name keeps what is bound to another. -/
theorem Step.find?_of_subject {q : Request} {a : Answer} (h : Step r q a r')
    (about : q.subject? = some name) (ne : other ≠ name) : r'.find? other = r.find? other := by
  cases h with
  | @bound subject s asked =>
      have same : subject = name := by
        cases q <;> cases asked <;> exact Option.some.inj about
      rw [find?_bind, if_neg (same ▸ ne)]
  | @freed subject asked =>
      subst asked
      cases about
      rw [find?_erase, if_neg ne]
  | kept => rfl

theorem Tracks.nameMap (h : Tracks overwrite history r) : NameMap overwrite history r := by
  obtain ⟨policy, bindings, valid, distinct⟩ := h
  have isBound (name) : r.contains name = true ↔ ∃ s, BoundIn history name s := by
    simp only [contains_iff, bindings]
  have unbound (name) : r.contains name = false ↔ ∀ s, ¬BoundIn history name s := by
    rw [← Bool.not_eq_true, isBound, not_exists]
  exact {
    lookup := fun name s => lookup_eq_ok.trans (bindings name s)
    notFound := fun name => by
      rw [← unbound, contains, Registry.lookup]
      cases r.find? name <;> simp
    contains := isBound
    identifiers := fun name s bound => isValidName_iff.mp (valid name s ((bindings name s).mpr bound))
    registers := fun q name s asked => by
      rw [perform_register asked, register_eq, policy, ← isBound, ← unbound, ← isValidName_iff,
        Bool.not_eq_true]
      refine ⟨fun invalid => ?_, fun isValid fixed taken => ?_, fun isValid free => ?_⟩
      · rw [if_pos invalid]
        rfl
      · rw [if_neg (by simp [isValid]), if_pos ⟨fixed, taken⟩]
        rfl
      · rw [if_neg (by simp [isValid]), if_neg (by grind)]
        rfl
    unregisters := fun name => by
      change (_ → (r.settle (r.unregister name)).1 = _) ∧ (_ → (r.settle (r.unregister name)).1 = _)
      rw [← isBound, ← unbound, unregister]
      exact ⟨fun found => by rw [if_pos found]; rfl, fun free => by rw [if_neg (by simp [free])]; rfl⟩
    failed := fun q fails => by
      have does := step_perform r q
      generalize (r.perform q).1 = a at fails does
      generalize (r.perform q).2 = r' at does
      cases does with
      | bound => cases fails
      | freed => cases fails
      | kept => rfl
    others := fun q name about other ne => by
      have same := (step_perform r q).find?_of_subject about ne
      rw [Registry.lookup, Registry.lookup, same]
    reads := fun q noRegistration noRemoval => by
      cases q with
      | register | registerFunction => cases noRegistration
      | unregister name => exact absurd rfl (noRemoval name)
      | _ => rfl
    names := ⟨names_increasing distinct, fun name => by simp only [mem_names, bindings]⟩
    size := by rw [size, names, List.length_mergeSort, List.length_map]
    found := fun wanted name s => by
      rw [← bindings]
      simp only [snapshot, List.mem_filterMap, Option.map_eq_some_iff, Prod.mk.injEq]
      constructor
      · rintro ⟨n, asked, t, found, rfl, rfl⟩
        exact ⟨asked, found⟩
      · rintro ⟨asked, found⟩
        exact ⟨name, asked, s, found, rfl, rfl⟩
    missing := fun wanted => by
      dsimp only [snapshot]
      refine ⟨nodup_eraseDups _, ?_, fun name => ?_⟩
      · rw [eraseDups_filter]
        exact (eraseDups_ordered wanted).filter _
      · rw [List.mem_eraseDups, List.mem_filter, Bool.not_eq_true', unbound] }

/-- Behind every run of requests on a new registry, it is the map of names that the history says. -/
theorem run_isNameMap (overwrite : Bool) (requests : List Request) :
    NameMap overwrite (Registry.run { allowOverwrite := overwrite } requests).1
      (Registry.run { allowOverwrite := overwrite } requests).2 :=
  (Tracks.run overwrite requests).nameMap

end Registry
end LiveC
