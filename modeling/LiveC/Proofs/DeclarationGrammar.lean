import LiveC.Parser.Initializer
import LiveC.Proofs.ExpressionGrammar
import LiveC.Proofs.InitialLengths

/-!
Declarators keep types bounded, and initialisers give stores and constants of the types that
they initialise.
-/

namespace LiveC

/-- What the leaves of an initialiser yield has a property, and another one between the start
and the end of the object. -/
structure InitForm.Yields {ι : Type} (form : InitForm ι) (σ : ParserScope) (P : ι → Prop)
    (W : Nat → Nat → ι → Prop) : Prop where
  string {element : CType} (length : Option Nat) (offset : Nat) (bytes : List UInt8)
    (loc : Location) : element.isInteger = true → element.size = 1 →
      ∀ i ∈ form.string element length offset bytes loc,
        P i ∧ W offset (offset + length.getD (bytes.length + 1)) i
  scalar {ty : CType} (offset : Nat) {e : Expr} (loc : Location) : e.Parsed σ → e.ty = ty →
    ty.isScalar = true → (form.scalar ty offset e loc).Yields fun i =>
      P i ∧ W offset (offset + ty.size) i
  widen {start stop start' stop' : Nat} {i : ι} : W start stop i → start' ≤ start →
    stop ≤ stop' → W start' stop' i

namespace Parser

variable {σ : ParserScope} {H : Prop} {g : Productions} {base : CType}

/-! ### Declarators -/

theorem pointers_keeps (h : H → base.Declared) :
    Keeps σ.course H (pointers base) CType.Declared := by
  refine (Keeps.iterate (fun ty => ?_) base).pre fun pre => ⟨pre, h pre⟩
  refine (eat_keeps _).skip fun _ => .ite (fun _ => ?_) fun _ => .pure And.right
  have qualifiers : Keeps σ.course (H ∧ ty.Declared) pointerQualifiers fun _ => True := by
    refine (Keeps.iterate (I := fun _ => True) (fun _ => ?_) ()).pre fun pre => ⟨pre, trivial⟩
    refine .skip (.or (eatKeyword_keeps _) (.or (eatKeyword_keeps _) (.or (eatKeyword_keeps _)
      (eatKeyword_keeps _)))) fun _ => .ite (fun _ => .done) fun _ => .done
  exact qualifiers.skip fun _ => skipAttributes_keeps.skip fun _ => .pure And.right

theorem atNestedDeclarator_keeps : Keeps σ.course H atNestedDeclarator fun _ => True := by
  refine (check_keeps _).skip fun _ => .ite (fun _ => peekSecond_keeps.skip fun t => ?_)
    fun _ => .done
  split
  · exact .done
  · exact .done
  · exact (isTypedef_keeps t).skip fun _ => .done
  · exact .done

theorem ofDeclarator_keeps {d : Declarator} (h : H → d.ty.Declared) (loc : Location) :
    Keeps σ.course H (Param.ofDeclarator d loc) fun p => p.ty.Declared := by
  unfold Param.ofDeclarator
  dsimp only
  split
  case h_1 ty =>
    refine .pure fun pre => ?_
    have declared := h pre
    rw [ty] at declared
    exact ⟨declared.1, declared.2.1⟩
  case h_2 => exact .pure h
  case h_3 => exact .throw
  case h_4 => exact .pure h

/-- The parameters of a list have declared types. -/
def ParamList.Declared (l : ParamList) : Prop := ∀ p ∈ l.params, p.ty.Declared

theorem parameter_keeps (sound : g.Sound) (l : ParamList) :
    Keeps σ.course (H ∧ ParamList.Declared l) (parameter g l) fun r =>
      ParamList.Declared r.value := by
  refine (eat_keeps _).skip fun _ => .ite (fun _ => ?_) fun _ => ?_
  · exact (expect_keeps _).skip fun _ => .pure And.right
  · refine peek_keeps.skip fun t => (startsType_keeps t).skip fun _ => .ite (fun _ => ?_)
      fun _ => .throw_bind
    refine declSpecifiers_keeps.bind fun spec => (sound.declarator And.right true).bind fun d => ?_
    refine (ofDeclarator_keeps (fun pre => pre.2.declared) t.loc).bind fun p => ?_
    have extended (pre : ((((H ∧ ParamList.Declared l) ∧ spec.ty.Declared) ∧ d.Parsed σ.tokens) ∧
        p.ty.Declared)) : ∀ q ∈ l.params ++ [p], q.ty.Declared :=
      List.forall_mem_append.mpr ⟨pre.1.1.1.2, List.forall_mem_singleton.mpr pre.2⟩
    refine (eat_keeps _).skip fun _ => .ite (fun _ => .pure extended) fun _ => ?_
    exact (expect_keeps _).skip fun _ => .pure extended

theorem parameterList_keeps (sound : g.Sound) :
    Keeps σ.course H (parameterList g) ParamList.Declared := by
  have list : Keeps σ.course H (iterate (parameter g) {}) ParamList.Declared :=
    (Keeps.iterate (parameter_keeps sound) {}).pre fun h => ⟨h, nofun⟩
  refine (eat_keeps _).skip fun _ => .ite (fun _ => .pure fun _ => nofun) fun _ => ?_
  refine peek_keeps.skip fun _ => peekSecond_keeps.skip fun _ => .ite (fun _ => ?_) fun _ => list
  exact next_keeps.skip fun _ => next_keeps.skip fun _ => .pure fun _ => nofun

theorem arrayLength_keeps (sound : g.Sound) (loc : Location) :
    Keeps σ.course H (arrayLength g loc) fun _ => True := by
  refine (eat_keeps _).skip fun _ => .ite (fun _ => .done) fun _ => ?_
  refine (conditional_keeps sound).skip fun e => ?_
  refine .skip (typed_keeps (Q := fun _ => True) fun _ _ _ _ _ => trivial) fun length => ?_
  exact (expect_keeps _).skip fun _ => .guard fun _ => .done

theorem declared_array {element : CType} {length : Option Nat} (h : element.Declared)
    (small : ¬(CType.array element length).checkedSize.all (· > CType.maxObjectSize) = true) :
    (CType.array element length).Declared := by
  refine ⟨h.1, h.2, ?_⟩
  cases size : (CType.array element length).checkedSize with
  | none => simp [size] at small
  | some n => exact ⟨n, by simpa [size] using small, rfl⟩

theorem declared_function {ret : CType} {params : List CType} {v u : Bool} (h : ret.Declared)
    (value : ¬(ret.isArray || ret.isFunction) = true) (params : ∀ t ∈ params, t.Declared) :
    (CType.function ret ‹_› v u).Declared := by
  simp only [Bool.or_eq_true, not_or, Bool.not_eq_true] at value
  exact ⟨⟨value.1, value.2, h.1, Expr.allWellFormed_iff.mpr fun t member => (params t member).1⟩,
    h.2, CType.allBounded_iff.mpr fun t member => (params t member).2⟩

theorem suffixes_keeps (sound : g.Sound) (h : H → base.Declared) :
    Keeps σ.course H (suffixes g base) fun r => r.1.Declared ∧
      ∀ ps ∈ r.2, ∃ ret v u, r.1 = .function ret (ps.map Param.ty) v u := by
  refine loc_keeps.skip fun loc => (eat_keeps _).skip fun _ => .ite (fun _ => ?_) fun _ => ?_
  · refine (arrayLength_keeps sound loc).skip fun length => (sound.suffixes h).bind fun r => ?_
    refine .guard fun _ => .guard fun small => .pure fun pre => ⟨?_, nofun⟩
    exact declared_array pre.2.1 small
  · refine (eat_keeps _).skip fun _ => .ite (fun _ => ?_) fun _ => .pure fun pre => ⟨h pre, nofun⟩
    refine (parameterList_keeps sound).bind fun l => (sound.suffixes fun pre => h pre.1).bind fun r => ?_
    refine .guard fun value => .pure fun pre => ⟨declared_function pre.2.1 value ?_, ?_⟩
    · intro t member
      obtain ⟨p, hp, rfl⟩ := List.mem_map.mp member
      exact pre.1.2 p hp
    · rintro ps ⟨⟩
      exact ⟨_, _, _, rfl⟩

theorem nestedDeclarator_keeps (sound : g.Sound) (h : H → base.Declared) (abstract : Bool) :
    Keeps σ.course H (nestedDeclarator g base abstract)
      (Declarator.Parsed σ.tokens) := by
  have goTo {G : Prop} {rest : List Token} (suffix : G → rest <:+ σ.tokens) :
      Keeps σ.course G (modify fun s => { s with rest }) fun _ => True :=
    modify_keeps (fun _ => ⟨rfl, rfl, rfl⟩) fun _ pre valid => setRest_valid valid (suffix pre)
  refine next_keeps.skip fun _ => Keeps.get.bind fun s => (skipToClose_keeps _).skip fun _ => ?_
  refine (sound.suffixes fun pre => h pre.1).bind fun r => Keeps.get.bind fun t => ?_
  refine (goTo fun pre => pre.1.1.2.2.rest).skip fun _ => ?_
  refine (sound.declarator (fun pre => pre.1.2.1) abstract).bind fun d => ?_
  refine (expect_keeps _).skip fun _ => ?_
  exact (goTo fun pre => pre.1.2.2.rest).skip fun _ => .pure And.right

theorem peek_bind {β : Type} (f : Token → Parser β) (s : ParserState) :
    (peek >>= f) s = f (s.rest.head?.getD ⟨.eof, s.endLoc⟩) s := rfl

theorem eat_run {s : ParserState} {t : Token} {after : List Token} (rest : s.rest = t :: after)
    (p : Punct) : eat p s =
      if t.kind == .punct p then .ok true { s with rest := after } else .ok false s := by
  have looked : check p s = .ok (t.kind == .punct p) s := by
    change EStateM.Result.ok ((s.rest.head?.getD ⟨.eof, s.endLoc⟩).kind == .punct p) s = _
    rw [rest]
    rfl
  have passed : next s = .ok t { s with rest := after } := by
    change EStateM.Result.ok (s.rest.head?.getD ⟨.eof, s.endLoc⟩) { s with rest := s.rest.tail } = _
    rw [rest]
    rfl
  simp only [eat, Bind.bind, EStateM.bind, looked]
  cases t.kind == .punct p with
  | true => simp only [if_true, EStateM.bind, passed, Pure.pure, EStateM.pure]
  | false => rfl

/-- A parenthesis opens a parameter list. -/
theorem suffixes_parenthesised {s t : ParserState} {r : CType × Option (List Param)}
    (paren : s.rest.head?.map Token.kind = some (.punct .lparen))
    (run : suffixes g base s = .ok r t) : r.2.isSome = true := by
  obtain ⟨first, rest, kind⟩ := Option.map_eq_some_iff.mp paren
  obtain ⟨after, rest⟩ := List.head?_eq_some_iff.mp rest
  obtain ⟨_, s', ⟨⟩, run⟩ := bind_eq_ok run
  obtain ⟨_, _, bracket, run⟩ := bind_eq_ok run
  rw [eat_run rest, kind] at bracket
  obtain ⟨rfl, rfl⟩ : false = _ ∧ s = _ := by simpa using bracket
  obtain ⟨_, _, parenthesis, run⟩ := bind_eq_ok run
  rw [eat_run rest, kind] at parenthesis
  obtain ⟨rfl, rfl⟩ : true = _ ∧ { s with rest := after } = _ := by simpa using parenthesis
  obtain ⟨l, _, -, run⟩ := bind_eq_ok run
  obtain ⟨⟨ret, ps⟩, u, -, run⟩ := bind_eq_ok run
  dsimp only at run
  split at run
  · cases run
  · cases run
    rfl

/-- A declared name and the suffixes behind it. -/
theorem named_ends (sound : g.Sound) {ty : CType} (h : H → ty.Declared) {s : ParserState}
    {t : Token} {name : String} {after : List Token} (rest : s.rest = t :: after)
    (kind : t.kind = .ident name) :
    Ends σ.course H (Declarator.Parsed σ.tokens) s ((do
      let _ ← next
      let (ty, params) ← g.suffixes ty
      return ⟨some (name, t.loc), ty, params⟩ : Parser Declarator) s) := by
  have behind := (next_keeps.skip fun _ => sound.suffixes h : Keeps σ.course H (do
    let _ ← next
    g.suffixes ty) _) s
  change Ends σ.course H _ s (g.suffixes ty { s with rest := s.rest.tail }) at behind
  change Ends σ.course H _ s ((g.suffixes ty >>= fun r =>
    pure ⟨some (name, t.loc), r.1, r.2⟩ : Parser Declarator) { s with rest := s.rest.tail })
  rw [rest, List.tail_cons] at behind ⊢
  simp only [Bind.bind, EStateM.bind]
  cases run : g.suffixes ty { s with rest := after } with
  | error e u =>
      rw [run] at behind
      exact behind
  | ok r u =>
      rw [run] at behind
      refine ⟨behind.1, fun within pre valid => ?_⟩
      obtain ⟨kept, declared, params⟩ := behind.2 within pre valid
      refine ⟨kept, declared, params, ?_⟩
      rintro _ _ ⟨⟩
      obtain ⟨before, tokens⟩ := valid.rest
      exact ⟨before, t, after, by rw [← tokens, rest], kind, rfl, fun paren =>
        sound.parenthesised paren run⟩

theorem declarator_keeps (sound : g.Sound) (h : H → base.Declared) (abstract : Bool) :
    Keeps σ.course H (declarator g base abstract) (Declarator.Parsed σ.tokens) := by
  refine (pointers_keeps h).bind fun ty => skipAttributes_keeps.skip fun _ => ?_
  refine atNestedDeclarator_keeps.skip fun _ => .ite
    (fun _ => nestedDeclarator_keeps sound And.right abstract) fun _ => ?_
  have behind {G : Prop} (hty : G → ty.Declared) : Keeps σ.course G (do
      let (ty, params) ← g.suffixes ty
      return ⟨none, ty, params⟩) (Declarator.Parsed σ.tokens) :=
    (sound.suffixes hty).bind fun r => .pure fun pre => ⟨pre.2.1, pre.2.2, nofun⟩
  intro s
  rw [peek_bind]
  generalize seen : s.rest.head?.getD ⟨.eof, s.endLoc⟩ = t
  dsimp only
  cases kind : t.kind with
  | ident name =>
      cases rest : s.rest with
      | nil =>
          rw [rest] at seen
          subst seen
          cases kind
      | cons first after =>
          rw [rest] at seen
          obtain rfl : first = t := seen
          exact named_ends sound And.right rest kind
  | _ => exact Keeps.ite (fun _ => behind And.right) (fun _ => .throw_bind) s

/-! ### Initialisers -/

theorem peekIsString_keeps : Keeps σ.course H peekIsString fun _ => True :=
  peek_keeps.skip fun _ => .done

theorem stringForArray_keeps (element : CType) :
    Keeps σ.course H (stringForArray element) fun r => r.isSome = true →
      element.isInteger = true ∧ element.size = 1 := by
  refine (check_keeps _).skip fun _ => peekSecond_keeps.skip fun _ => ?_
  refine peekIsString_keeps.skip fun _ => .ite (fun guard => ?_) fun _ => .pure fun _ => nofun
  simp only [Bool.and_eq_true] at guard
  obtain ⟨⟨byte, integer⟩, -⟩ := guard
  have characters : element.isInteger = true ∧ element.size = 1 :=
    ⟨integer, size_of_byte byte integer⟩
  have behind : Keeps σ.course H (adjacentStrings []) fun _ => True := adjacentStrings_keeps []
  dsimp only
  refine .ite (fun _ => next_keeps.skip fun _ => ?_) fun _ => ?_ <;>
  · refine behind.skip fun bytes => ?_
    exact .ite (fun _ => (expect_keeps _).skip fun _ => .pure fun _ _ => characters) fun _ =>
      .pure fun _ _ => characters

/-- An expression with an integer value is a constant of a type of its size. -/
theorem int_of_constantValue? {e : Expr} {ty : CType} {v : Word} {size : Nat}
    (parsed : e.Parsed σ) (same : e.ty = ty) (found : e.constantValue? ty = some (.int v size)) :
    ∃ t : IntType, t.size = size ∧ canonical σ.tokens t v := by
  unfold Expr.constantValue? at found
  split at found
  case h_1 n word =>
    obtain ⟨rfl, rfl⟩ : word = v ∧ ty.size = size := by simpa using found
    obtain rfl : n.ty = ty := same
    obtain isPointer | ⟨t, isInt, constant⟩ := parsed.1.here.2
    · refine ⟨.ulong, ?_, fun _ => IntType.wrap_w64 false word⟩
      cases pointer : n.ty with
      | pointer => rfl
      | _ => simp [pointer, CType.isPointer] at isPointer
    · exact ⟨t, by rw [isInt]; rfl, constant⟩
  case h_2 => split at found <;> cases found
  case h_3 =>
    split at found
    · simp at found
    · cases found

theorem length_fitString (bytes : List UInt8) (length : Option Nat) :
    (fitString bytes length).length = length.getD (bytes.length + 1) := by
  cases length with
  | none => simp [fitString]
  | some n =>
      simp only [fitString, List.length_append, List.length_take, List.length_replicate,
        Option.getD_some]
      omega

/-- A constant takes the bytes of the type that it is converted to. -/
theorem width_of_constantValue? {e : Expr} {ty : CType} {value : InitValue}
    (found : e.constantValue? ty = some value) : value.width = ty.size := by
  unfold Expr.constantValue? at found
  split at found
  case h_1 =>
    cases found
    rfl
  case h_2 =>
    split at found
    case isTrue isDouble =>
      cases found
      cases ty with
      | double => rfl
      | void | int | pointer | array | function => cases isDouble
    case isFalse => cases found
  case h_3 =>
    split at found
    case isTrue isPointer =>
      obtain ⟨_, -, rfl⟩ := Option.map_eq_some_iff.mp found
      cases ty with
      | pointer => rfl
      | void | int | double | array | function => cases isPointer
    case isFalse => cases found

/-- The string literal that a constant address points to is one that the expression names. -/
theorem string_of_constantAddress? {e : Expr} {strings id : Nat} {addend : Word}
    (ready : e.Ready strings) (found : e.constantAddress? = some (.str id, addend)) :
    id < strings := by
  fun_induction Expr.constantAddress? e generalizing addend with
  | case1 => cases found
  | case2 =>
      cases found
      exact (ready.part (.head _)).here.2.2
  | case3 _ _ pointer ih => exact ih ((ready.part (.head _)).part (.head _)) found
  | case4 _ e _ ih => exact ih (ready.part (.head _)) found
  | case5 => cases found
  | case6 _ base _ offset ih | case7 _ base _ offset ih =>
      obtain ⟨⟨target, distance⟩, inner, same⟩ := Option.map_eq_some_iff.mp found
      cases same
      exact ih (ready.part (.head _)) inner
  | case8 => cases found

theorem string_of_constantValue? {e : Expr} {ty : CType} {id : Nat} {addend : Int}
    (parsed : e.Parsed σ) (found : e.constantValue? ty = some (.address (.str id) addend)) :
    id < σ.strings := by
  unfold Expr.constantValue? at found
  split at found
  case h_1 => cases found
  case h_2 => split at found <;> cases found
  case h_3 =>
    split at found
    case isTrue =>
      obtain ⟨⟨target, distance⟩, inner, same⟩ := Option.map_eq_some_iff.mp found
      cases same
      exact string_of_constantAddress? parsed.2.ready inner
    case isFalse => cases found

theorem static_yields :
    InitForm.static.Yields σ (InitItem.Parsed σ.tokens σ.strings) InitItem.Within where
  string length offset bytes loc _ _ := by
    intro i member
    obtain rfl := List.mem_singleton.mp member
    refine ⟨⟨nofun, nofun⟩, Nat.le_refl _, ?_⟩
    · exact Nat.le_of_eq (congrArg _ (length_fitString bytes length))
  scalar {ty} offset {e} loc parsed same scalar := by
    simp only [InitForm.static]
    split
    case h_2 => exact .fail
    case h_1 value found =>
      refine .pure ⟨⟨fun v size isInt => ?_, fun id addend isString => ?_⟩, Nat.le_refl _, ?_⟩
      · obtain rfl : value = .int v size := isInt
        exact int_of_constantValue? parsed same found
      · obtain rfl : value = .address (.str id) addend := isString
        exact string_of_constantValue? parsed found
      · exact Nat.le_of_eq (congrArg _ (width_of_constantValue? found))
  widen within start stop := ⟨Nat.le_trans start within.1, Nat.le_trans within.2 stop⟩

theorem byteStores_parsed {t : IntType} (loc : Location) (offset : Nat) (bytes : List UInt8) :
    ∀ s ∈ InitForm.byteStores ⟨.int t, loc⟩ offset bytes, s.Parsed σ := by
  induction bytes generalizing offset with
  | nil => nofun
  | cons b bytes ih =>
      unfold InitForm.byteStores
      dsimp only
      split
      · exact ih _
      · refine List.forall_mem_cons.mpr ⟨⟨int_parsed rfl ?_, rfl⟩, ih _⟩
        exact σ.context_closed t _

theorem automatic_yields :
    InitForm.automatic.Yields σ (InitStore.Parsed σ) fun _ _ _ => True where
  string {element} length offset bytes loc integer _ := by
    cases element with
    | int t => exact fun i member => ⟨byteStores_parsed loc offset _ i member, trivial⟩
    | void | double | pointer | array | function => cases integer
  scalar {ty} offset {e} loc parsed same scalar := .pure ⟨⟨parsed, by rwa [same]⟩, trivial⟩
  widen _ _ _ := trivial

/-- The elements are counted, and there are no more than fit. -/
theorem elements_keeps {ι : Type} {P : Nat → ι → Prop} {element : Nat → Parser (List ι)}
    (h : ∀ {G : Prop} i, (G → H) → Keeps σ.course G (element i) fun items => ∀ x ∈ items, P i x)
    (length : Option Nat) :
    Keeps σ.course H (elements element length) fun r =>
      (∀ n ∈ length, r.1 ≤ n) ∧ ∀ x ∈ r.2, ∃ i < r.1, P i x := by
  refine (Keeps.iterate (I := fun r : Nat × List ι => (∀ n ∈ length, r.1 ≤ n) ∧
    ∀ x ∈ r.2, ∃ i < r.1, P i x) (fun ⟨count, items⟩ => ?_) (0, [])).pre fun pre =>
      ⟨pre, fun _ _ => Nat.zero_le _, nofun⟩
  refine (check_keeps _).skip fun _ => .ite (fun _ => .pure And.right) fun _ => ?_
  have read {G : Prop} (pre : G → H ∧ (∀ n ∈ length, count ≤ n) ∧ ∀ x ∈ items, ∃ i < count, P i x)
      (fits : length.any (· ≤ count) = false) : Keeps σ.course G (do
      let state := (count + 1, items ++ (← element count))
      if ← eat .comma then return .yield state else return .done state)
      fun r : ForInStep (Nat × List ι) =>
        (∀ n ∈ length, r.value.1 ≤ n) ∧ ∀ x ∈ r.value.2, ∃ i < r.value.1, P i x := by
    refine (h count fun g => (pre g).1).bind fun more => ?_
    have extended (both : G ∧ ∀ x ∈ more, P count x) : (∀ n ∈ length, count + 1 ≤ n) ∧
        ∀ x ∈ items ++ more, ∃ i < count + 1, P i x := by
      constructor
      · rintro n rfl
        have before : count < n := by simpa using fits
        exact before
      · refine List.forall_mem_append.mpr ⟨fun x member => ?_, fun x member => ?_⟩
        · obtain ⟨i, before, holds⟩ := (pre both.1).2.2 x member
          exact ⟨i, Nat.lt_succ_of_lt before, holds⟩
        · exact ⟨count, Nat.lt_succ_self _, both.2 x member⟩
    exact (eat_keeps _).skip fun _ => .ite (fun _ => .pure extended) fun _ => .pure extended
  refine .ite (fun _ => loc_keeps.skip fun _ => .throw_bind) fun fits => read id ?_
  simpa using fits

/-- An array whose size is not out of range has elements of such a size. -/
theorem sized_array {element : CType} {n : Nat} (h : (CType.array element (some n)).Sized) :
    (CType.array element (some n)).size = element.size * n ∧ (0 < n → element.Sized) := by
  obtain ⟨complete, small⟩ := h
  have inner : element.isComplete = true := (Bool.and_eq_true_iff.mp complete).2
  cases checked : element.checkedSize with
  | none => simp [CType.size, CType.checkedSize, checked] at small
  | some k =>
      simp only [CType.Sized, CType.size, CType.checkedSize, checked, Option.bind_eq_bind,
        Option.bind_some, Option.getD_some] at small ⊢
      split at small
      case isFalse => simp at small
      case isTrue inRange =>
        rw [if_pos inRange]
        refine ⟨rfl, fun positive => ⟨inner, ?_⟩⟩
        exact Nat.lt_of_le_of_lt (Nat.le_mul_of_pos_right k positive) small

theorem initializer_keeps {ι : Type} (sound : g.Sound) {form : InitForm ι} {P : ι → Prop}
    {W : Nat → Nat → ι → Prop} (yields : form.Yields σ P W)
    {nested : CType → Nat → Parser (CType × List ι)}
    (inner : ∀ {G : Prop} {ty : CType}, (G → ty.Declared) → ∀ offset,
      Keeps σ.course G (nested ty offset) fun r => r.1.IsObject ∧ ty.Completes r.1 ∧
        ∀ i ∈ r.2, P i ∧ (r.1.Sized → W offset (offset + r.1.size) i))
    {ty : CType} (h : H → ty.Declared) (offset : Nat) :
    Keeps σ.course H (initializer g form nested ty offset) fun r => r.1.IsObject ∧
      ty.Completes r.1 ∧ ∀ i ∈ r.2, P i ∧ (r.1.Sized → W offset (offset + r.1.size) i) := by
  unfold initializer
  refine loc_keeps.skip fun loc => ?_
  split
  case h_1 element length =>
    have declared (pre : H) : element.Declared := ⟨(h pre).1, (h pre).2.1⟩
    have completes (n : Nat) : (CType.array element length).Completes
        (.array element (some (length.getD n))) := by
      intro complete
      obtain ⟨l, rfl⟩ := Option.isSome_iff_exists.mp (Bool.and_eq_true_iff.mp complete).1
      rfl
    refine (stringForArray_keeps element).bind fun bytes => ?_
    split
    case h_1 bytes =>
      refine .pure fun pre => ⟨declared pre.1, completes _, fun i member => ?_⟩
      obtain ⟨integer, size⟩ := pre.2 rfl
      obtain ⟨holds, within⟩ := yields.string length offset bytes loc integer size i member
      refine ⟨holds, fun sized => ?_⟩
      rw [(sized_array sized).1, size, Nat.one_mul]
      exact within
    case h_2 =>
      refine (eat_keeps _).skip fun _ => .ite (fun _ => ?_) fun _ => .throw_bind
      let Element (i : Nat) (x : ι) : Prop := P x ∧ (element.Sized →
        W (offset + i * element.size) (offset + i * element.size + element.size) x)
      refine (elements_keeps (P := Element) (fun i hG => ?_) length).bind fun r => ?_
      · refine (inner (fun pre => declared (hG pre).1) _).bind fun r => .pure fun pre x member => ?_
        obtain ⟨-, completes, all⟩ := pre.2
        refine ⟨(all x member).1, fun sized => ?_⟩
        have within := (all x member).2
        rw [completes sized.1] at within
        exact within sized
      · refine (expect_keeps _).skip fun _ => .pure fun pre =>
          ⟨declared pre.1.1, completes _, fun x member => ?_⟩
        obtain ⟨fits, all⟩ := pre.2
        obtain ⟨i, before, holds, within⟩ := all x member
        refine ⟨holds, fun sized => ?_⟩
        have enough : i + 1 ≤ length.getD r.1 := by
          cases length with
          | none => exact before
          | some n => exact Nat.le_trans before (fits n rfl)
        obtain ⟨size, inner⟩ := sized_array sized
        refine yields.widen (within (inner (by omega))) (Nat.le_add_right _ _) ?_
        rw [size, Nat.add_assoc, ← Nat.succ_mul, Nat.mul_comm]
        exact Nat.add_le_add_left (Nat.mul_le_mul_left _ enough) _
  case h_2 =>
    have value (e : Expr) : Keeps σ.course (H ∧ e.Parsed σ) (do
        let item ← typed do form.scalar ty offset (← e.assignConvert ty loc) loc
        return (ty, [item])) fun r => r.1.IsObject ∧ ty.Completes r.1 ∧
          ∀ i ∈ r.2, P i ∧ (r.1.Sized → W offset (offset + r.1.size) i) := by
      refine (typed_keeps (Q := fun i => P i ∧ W offset (offset + ty.size) i) fun pre => ?_).bind
        fun item => .pure fun pre => ⟨(h pre.1.1).object, fun _ => rfl,
          List.forall_mem_singleton.mpr ⟨pre.2.1, fun _ => pre.2.2⟩⟩
      exact (pre.2.assignConvert (h pre.1).object loc).bind fun converted ⟨parsed, same, scalar⟩ =>
        yields.scalar offset loc parsed same scalar
    refine (eat_keeps _).skip fun _ => sound.assignment.bind fun e => .ite (fun _ => ?_) fun _ => value e
    exact (eat_keeps _).skip fun _ => (expect_keeps _).skip fun _ => value e

end Parser
end LiveC
