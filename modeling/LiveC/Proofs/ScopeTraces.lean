import LiveC.Proofs.ScopeHistory
import LiveC.Proofs.ParserTransitions

/-!
What a run of the parser does with names. A run is taken apart into steps that have nothing to
do with the scopes, look-ups, and changes of the scopes; its trace is what it looks up and
changes, in this order. All that a run gets to know of the scopes is what its look-ups find.
-/

namespace LiveC

/-- Kinds of histories: those of runs that succeed, and those of runs that fail. -/
structure ScopeLanguage where
  has : ScopeHistory → Prop
  breaks : ScopeHistory → Prop
  nil : has []
  append {h h' : ScopeHistory} : has h → has h' → has (h ++ h')
  breaks_nil : breaks []
  append_breaks {h h' : ScopeHistory} : has h → breaks h' → breaks (h ++ h')

namespace ScopeLanguage

open ScopeHistory

/-- Nothing is done with names. -/
def nothing : ScopeLanguage :=
  ⟨(· = []), (· = []), rfl, fun h h' => by rw [h, h']; rfl, rfl, fun h h' => by rw [h, h']; rfl⟩

def reads : ScopeLanguage := ⟨LooksUp, LooksUp, .nil, .append, .nil, .append⟩

def nests (D : Bool) : ScopeLanguage :=
  ⟨Nests D, Nests D, .reads .nil, .append, .reads .nil, .append⟩

/-- Where a declaration of the file fails, every block is left behind it. -/
def atFile : ScopeLanguage where
  has := AtFile
  breaks h := AtFile (h ++ [.leaveAll])
  nil := .reads .nil
  append := .append
  breaks_nil := .leaveAll
  append_breaks first second := List.append_assoc .. ▸ first.append second

end ScopeLanguage

namespace Parser

open ScopeHistory

variable {α β : Type} {p : Parser α} {f : α → Parser β} {s t : ParserState} {h h' : ScopeHistory}

/-- A result of which the state has other scopes. -/
def rescope (scopes : ScopeStack) : EStateM.Result SourceFault ParserState α →
    EStateM.Result SourceFault ParserState α
  | .ok a t => .ok a { t with scopes }
  | .error e t => .error e { t with scopes }

/-- A parser that has nothing to do with the scopes: whatever they are, it does the same and
leaves them. -/
def Silent (p : Parser α) : Prop :=
  ∀ s scopes, p { s with scopes } = rescope scopes (p s)

/-- What a run from a state does with names. -/
inductive Trace : {α : Type} → Parser α → ParserState → ScopeHistory → Prop
  | silent {α : Type} {p : Parser α} (h : Silent p) (s : ParserState) : Trace p s []
  | use (name : String) (s : ParserState) :
      Trace (find? name) s [.use name (s.scopes.find? name)]
  | change {e : ScopeEvent} {f : ParserState → ParserState} {s : ParserState}
      (step : ∀ s scopes, f { s with scopes } = { f s with scopes := scopes.step e })
      (agrees : s.scopes.Agrees e) : Trace (modify f) s [e]
  | bind {α β : Type} {p : Parser α} {f : α → Parser β} {s t : ParserState} {a : α}
      {h h' : ScopeHistory} : p s = .ok a t → Trace p s h → Trace (f a) t h' →
        Trace (p >>= f) s (h ++ h')
  | fails {α β : Type} {p : Parser α} {f : α → Parser β} {s t : ParserState} {e : SourceFault}
      {h : ScopeHistory} : p s = .error e t → Trace p s h → Trace (p >>= f) s h
  | passes {α : Type} {p : Parser α} {handler : SourceFault → Parser α} {s t : ParserState}
      {a : α} {h : ScopeHistory} : p s = .ok a t → Trace p s h → Trace (tryCatch p handler) s h
  | caught {α : Type} {p : Parser α} {handler : SourceFault → Parser α} {s t : ParserState}
      {e : SourceFault} {h h' : ScopeHistory} : p s = .error e t → Trace p s h →
        Trace (handler e) t h' → Trace (tryCatch p handler) s (h ++ h')

theorem scopes_of_ok {a : α} {scopes : ScopeStack} (same : p s = rescope scopes (p s))
    (run : p s = .ok a t) : t.scopes = scopes := by
  rw [run] at same
  exact congrArg ParserState.scopes (EStateM.Result.ok.inj same).2

theorem scopes_of_error {e : SourceFault} {scopes : ScopeStack}
    (same : p s = rescope scopes (p s)) (run : p s = .error e t) : t.scopes = scopes := by
  rw [run] at same
  exact congrArg ParserState.scopes (EStateM.Result.error.inj same).2

/-- The look-ups of a run find what its trace says, and in whatever scopes they find the same the
run does the same, with the changes of its trace. -/
theorem Trace.run (trace : Trace p s h) : s.scopes.Answers h ∧
    ∀ scopes : ScopeStack, scopes.Answers h →
      p { s with scopes } = rescope (scopes.after h) (p s) := by
  induction trace with
  | silent silent s => exact ⟨trivial, fun scopes _ => silent s scopes⟩
  | use name s =>
      refine ⟨⟨rfl, trivial⟩, fun scopes answers => ?_⟩
      change EStateM.Result.ok (scopes.find? name) _ = _
      rw [answers.1]
      rfl
  | change step agrees =>
      exact ⟨⟨agrees, trivial⟩, fun scopes _ => congrArg (EStateM.Result.ok ()) (step _ scopes)⟩
  | @bind _ _ p f s t a h h' run _ _ ih ih' =>
      have behind := scopes_of_ok (ih.2 s.scopes ih.1) run
      refine ⟨ScopeStack.answers_append.mpr ⟨ih.1, behind ▸ ih'.1⟩, fun scopes answers => ?_⟩
      obtain ⟨first, second⟩ := ScopeStack.answers_append.mp answers
      rw [bind_run, bind_run, ih.2 scopes first, run, ScopeStack.after_append]
      exact ih'.2 (scopes.after h) second
  | @fails _ _ p f s t e h run _ ih =>
      refine ⟨ih.1, fun scopes answers => ?_⟩
      rw [bind_run, bind_run, ih.2 scopes answers, run]
      rfl
  | @passes _ p handler s t a h run _ ih =>
      refine ⟨ih.1, fun scopes answers => ?_⟩
      rw [tryCatch_run, tryCatch_run, ih.2 scopes answers, run]
      rfl
  | @caught _ p handler s t e h h' run _ _ ih ih' =>
      have behind := scopes_of_error (ih.2 s.scopes ih.1) run
      refine ⟨ScopeStack.answers_append.mpr ⟨ih.1, behind ▸ ih'.1⟩, fun scopes answers => ?_⟩
      obtain ⟨first, second⟩ := ScopeStack.answers_append.mp answers
      rw [tryCatch_run, tryCatch_run, ih.2 scopes first, run, ScopeStack.after_append]
      exact ih'.2 (scopes.after h) second

/-- Where a run succeeds, its trace leads to the scopes behind it. -/
theorem Trace.scopes {a : α} (trace : Trace p s h) (run : p s = .ok a t) :
    t.scopes = s.scopes.after h :=
  scopes_of_ok (trace.run.2 s.scopes trace.run.1) run

theorem Trace.cast (trace : Trace p s h) (same : h = h') : Trace p s h' := same ▸ trace

/-- A history is of the kind that a run's result is to have. -/
def Describes (L : ScopeLanguage) (h : ScopeHistory) :
    EStateM.Result SourceFault ParserState α → Prop
  | .ok _ _ => L.has h
  | .error _ _ => L.breaks h

theorem reads_of_describes {r : EStateM.Result SourceFault ParserState α}
    (describes : Describes .reads h r) : LooksUp h := by
  cases r <;> exact describes

theorem nests_of_describes {D : Bool} {r : EStateM.Result SourceFault ParserState α}
    (describes : Describes (.nests D) h r) : Nests D h := by
  cases r <;> exact describes

/-- A run from a state has a trace that is related to its result. -/
def HasTrace (R : ScopeHistory → EStateM.Result SourceFault ParserState α → Prop) (p : Parser α)
    (s : ParserState) : Prop :=
  ∃ h, Trace p s h ∧ R h (p s)

/-- What a run from a state does with names is of a kind. -/
abbrev TracedAt (L : ScopeLanguage) (p : Parser α) (s : ParserState) : Prop :=
  HasTrace (Describes L) p s

/-- What every run of a parser does with names is of a kind. -/
def Traced (L : ScopeLanguage) (p : Parser α) : Prop := ∀ s, TracedAt L p s

variable {L M : ScopeLanguage}

theorem describes_nil (r : EStateM.Result SourceFault ParserState α) : Describes L [] r := by
  cases r with
  | ok => exact L.nil
  | error => exact L.breaks_nil

theorem Describes.append {r : EStateM.Result SourceFault ParserState α} (first : L.has h)
    (second : Describes L h' r) : Describes L (h ++ h') r := by
  cases r with
  | ok => exact L.append first second
  | error => exact L.append_breaks first second

theorem Describes.mono {r : EStateM.Result SourceFault ParserState α} (describes : Describes L h r)
    (has : L.has h → M.has h) (breaks : L.breaks h → M.breaks h) : Describes M h r := by
  cases r with
  | ok => exact has describes
  | error => exact breaks describes

/-- The state but for its scopes. -/
def others : Parser ParserState := fun s => .ok { s with scopes := {} } s

namespace HasTrace

variable {R : ScopeHistory → EStateM.Result SourceFault ParserState α → Prop}
  {S : ScopeHistory → EStateM.Result SourceFault ParserState β → Prop}

/-- A run in two steps. What the second one is to do depends on the trace of the first one. -/
theorem bind (hp : HasTrace R p s)
    (fails : ∀ e t h, p s = .error e t → R h (.error e t) → S h (.error e t))
    (hf : ∀ a t h, p s = .ok a t → R h (.ok a t) → HasTrace (fun h' => S (h ++ h')) (f a) t) :
    HasTrace S (p >>= f) s := by
  obtain ⟨h, trace, first⟩ := hp
  unfold HasTrace
  rw [bind_run]
  cases run : p s with
  | error e t =>
      rw [run] at first
      exact ⟨h, .fails run trace, fails e t h run first⟩
  | ok a t =>
      rw [run] at first
      obtain ⟨h', trace', second⟩ := hf a t h run first
      exact ⟨h ++ h', .bind run trace trace', second⟩

theorem ite {c : Prop} [Decidable c] {p q : Parser α} (hp : c → HasTrace R p s)
    (hq : ¬c → HasTrace R q s) : HasTrace R (if c then p else q) s := by
  split
  case isTrue hc => exact hp hc
  case isFalse hc => exact hq hc

/-- What is behind a test that refuses. -/
theorem guard {c : Prop} [Decidable c] {e : SourceFault} {k : Parser β}
    {f : α → Parser β} (fails : ∀ e t, S [] (.error e t)) (h : ¬c → HasTrace S k s) :
    HasTrace S (if c then (MonadExcept.throw e : Parser α) >>= f else k) s :=
  ite (fun _ => ⟨[], .silent (fun _ _ => rfl) s, fails e s⟩) h

theorem mono {R' : ScopeHistory → EStateM.Result SourceFault ParserState α → Prop}
    (hp : HasTrace R p s) (le : ∀ h, R h (p s) → R' h (p s)) : HasTrace R' p s :=
  have ⟨h, trace, has⟩ := hp
  ⟨h, trace, le h has⟩

/-- What is behind a look at the state may refer to all of it but the scopes. -/
theorem look {f : ParserState → Parser β} (same : ∀ s scopes, f { s with scopes } = f s)
    (h : HasTrace S (f s) s) : HasTrace S (MonadState.get >>= f) s := by
  obtain ⟨events, trace, has⟩ := h
  have look : (MonadState.get >>= f) = others >>= f :=
    funext fun s => (congrFun (same s {}) s).symm
  refine ⟨events, ?_, has⟩
  rw [look]
  exact .bind (p := others) rfl (.silent (fun _ _ => rfl) s) ((same s {}).symm ▸ trace)

end HasTrace

namespace Traced

theorem silent (silent : Silent p) : Traced L p := fun s => ⟨[], .silent silent s, describes_nil _⟩

theorem pure (a : α) : Traced L (Pure.pure a) := silent fun _ _ => rfl

theorem throw (e : SourceFault) : Traced L (MonadExcept.throw e : Parser α) :=
  silent fun _ _ => rfl

theorem bind_at (hp : TracedAt L p s) (hf : ∀ a t, p s = .ok a t → TracedAt L (f a) t) :
    TracedAt L (p >>= f) s :=
  HasTrace.bind hp (fun _ _ _ _ => id) fun a t _ run first =>
    (hf a t run).mono fun _ second => .append first second

theorem bind (hp : Traced L p) (hf : ∀ a, Traced L (f a)) : Traced L (p >>= f) :=
  fun s => bind_at (hp s) fun a t _ => hf a t

theorem ite {c : Prop} [Decidable c] {p q : Parser α} (hp : c → Traced L p)
    (hq : ¬c → Traced L q) : Traced L (if c then p else q) :=
  fun s => .ite (fun hc => hp hc s) fun hc => hq hc s

theorem mono (hp : Traced L p) (has : ∀ {h}, L.has h → M.has h)
    (breaks : ∀ {h}, L.breaks h → M.breaks h) : Traced M p :=
  fun s => (hp s).mono fun _ describes => describes.mono has breaks

/-- A change of the state that leaves the scopes. -/
theorem modify {f : ParserState → ParserState}
    (step : ∀ s scopes, f { s with scopes } = { f s with scopes }) : Traced L (modify f) :=
  silent fun s scopes => congrArg (EStateM.Result.ok ()) (step s scopes)

theorem look {f : ParserState → Parser β} (same : ∀ s scopes, f { s with scopes } = f s)
    (h : ∀ s, Traced L (f s)) : Traced L (MonadState.get >>= f) := fun s => .look same (h s s)

/-- A run that fails and is caught goes on, where what breaks off is no different. -/
theorem tryCatch {handler : SourceFault → Parser α} (hp : Traced L p)
    (hh : ∀ e, Traced L (handler e)) (whole : ∀ {h}, L.breaks h → L.has h) :
    Traced L (tryCatch p handler) := by
  intro s
  obtain ⟨h, trace, first⟩ := hp s
  unfold TracedAt HasTrace
  rw [tryCatch_run]
  cases run : p s with
  | ok a t =>
      rw [run] at first
      exact ⟨h, .passes run trace, first⟩
  | error e t =>
      rw [run] at first
      obtain ⟨h', trace', second⟩ := hh e t
      exact ⟨h ++ h', .caught run trace trace', .append (whole first) second⟩

end Traced

/-- What is behind a parser that does nothing with names. -/
theorem HasTrace.behind {S : ScopeHistory → EStateM.Result SourceFault ParserState β → Prop}
    (hp : Traced .nothing p) (fails : ∀ e t, S [] (.error e t))
    (hf : ∀ a t, p s = .ok a t → HasTrace S (f a) t) : HasTrace S (p >>= f) s := by
  refine (hp s).bind (fun e t h _ nothing => ?_) fun a t h run nothing => ?_
  · obtain rfl : h = [] := nothing
    exact fails e t
  · obtain rfl : h = [] := nothing
    exact hf a t run

/-- How many tokens are ahead. -/
def ahead : Parser Nat := fun s => .ok s.rest.length s

/-- What a loop does behind a round that started with a number of tokens ahead. -/
def further (step : β → Parser (ForInStep β)) (before : Nat) : ForInStep β → Parser β
  | .done c => pure c
  | .yield c => ahead >>= fun behind =>
      if behind < before then (iterate step c : Parser β) else pure c

/-- A round of a loop and the rounds behind it. -/
theorem iterate_eq (step : β → Parser (ForInStep β)) (b : β) :
    iterate step b = ahead >>= fun before => step b >>= further step before := by
  funext s
  change _ = (step b >>= further step s.rest.length) s
  rw [iterate, bind_run]
  cases step b s with
  | error e t => rfl
  | ok r t =>
      cases r with
      | done c => rfl
      | yield c =>
          change _ = (if t.rest.length < s.rest.length then (iterate step c : Parser β) else
            (pure c : Parser β)) t
          dsimp only
          split
          case isTrue less => exact (congrFun (if_pos less) t).symm
          case isFalse less => exact (congrFun (if_neg less) t).symm

/-- Runs between two changes of the state, taken apart. -/
theorem between_eq (enter leave : ParserState → ParserState) (p : Parser α) :
    between enter leave p = modify enter >>= fun _ =>
      tryCatch p (fun e => modify leave >>= fun _ => throw e) >>= fun a =>
        modify leave >>= fun _ => pure a := by
  funext s
  change _ = (tryCatch p _ >>= _) (enter s)
  rw [bind_run, tryCatch_run, between]
  cases p (enter s) <;> rfl

theorem Trace.change_bind {q : Unit → Parser β} {e : ScopeEvent} {g : ParserState → ParserState}
    (step : ∀ s scopes, g { s with scopes } = { g s with scopes := scopes.step e })
    (agrees : s.scopes.Agrees e) (trace : Trace (q ()) (g s) h) :
    Trace (modify g >>= q) s (e :: h) :=
  .bind (p := modify g) (a := ()) (t := g s) rfl (.change step agrees) trace

theorem HasTrace.change {q : Unit → Parser β} {e : ScopeEvent} {g : ParserState → ParserState}
    {S : ScopeHistory → EStateM.Result SourceFault ParserState β → Prop}
    (step : ∀ s scopes, g { s with scopes } = { g s with scopes := scopes.step e })
    (agrees : s.scopes.Agrees e) (h : HasTrace (fun h => S (e :: h)) (q ()) (g s)) :
    HasTrace S (modify g >>= q) s :=
  have ⟨events, trace, has⟩ := h
  ⟨e :: events, .change_bind step agrees trace, has⟩

/-- The history of a block has its two ends. -/
theorem Trace.inBlock (trace : Trace p { s with scopes := s.scopes.openBlock } h) :
    Trace (inBlock p) s (.enter :: h ++ [.leave]) := by
  have leave {q : Parser α} (silent : Silent q) (t : ParserState) :
      Trace (modify (fun s => { s with scopes := s.scopes.closeBlock }) >>= fun _ => q) t
        [.leave] :=
    .change_bind (fun _ _ => rfl) trivial (.silent silent _)
  unfold Parser.inBlock
  rw [between_eq]
  refine .change_bind (e := .enter) (fun _ _ => rfl) trivial ?_
  cases run : p { s with scopes := s.scopes.openBlock } with
  | ok a t =>
      refine .bind ((tryCatch_run ..).trans (by rw [run])) (.passes run trace) ?_
      exact leave (fun _ _ => rfl) t
  | error e t =>
      refine .fails ((tryCatch_run ..).trans (by rw [run]; rfl)) (.caught run trace ?_)
      exact leave (fun _ _ => rfl) t

namespace Traced

theorem iterate {step : β → Parser (ForInStep β)} (round : ∀ b, Traced L (step b)) (b : β) :
    Traced L (iterate step b) := by
  intro s
  induction n : s.rest.length using Nat.strongRecOn generalizing b s with
  | ind n ih =>
      subst n
      rw [iterate_eq]
      refine bind_at (silent (p := ahead) (fun _ _ => rfl) s) ?_
      rintro _ _ ⟨⟩
      refine bind_at (round b s) fun r t _ => ?_
      cases r with
      | done c => exact pure c t
      | yield c =>
          refine bind_at (silent (p := ahead) (fun _ _ => rfl) t) ?_
          rintro _ _ ⟨⟩
          exact .ite (fun less => ih _ less c t rfl) fun _ => pure c t

theorem between {enter leave : ParserState → ParserState} (h : Traced L p)
    (enters : ∀ s scopes, enter { s with scopes } = { enter s with scopes })
    (leaves : ∀ s scopes, leave { s with scopes } = { leave s with scopes })
    (whole : ∀ {h}, L.breaks h → L.has h) : Traced L (between enter leave p) := by
  rw [between_eq]
  refine (modify enters).bind fun _ => .bind (h.tryCatch (fun e => ?_) whole) fun a => ?_
  · exact (modify leaves).bind fun _ => throw e
  · exact (modify leaves).bind fun _ => pure a

end Traced

end Parser
end LiveC
