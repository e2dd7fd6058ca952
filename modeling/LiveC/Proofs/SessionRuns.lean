import LiveC.Session.Basic
import LiveC.Proofs.Sequence
import Mathlib.Data.List.Induction

/-!
Sessions over whole runs of requests. `Step` lists all that a request can do to a session; what
a run has answered so far determines what the session holds, since every step keeps both in
line.
-/

namespace LiveC

/-- What can be asked of a session. -/
inductive Request (σ : Type) where
  | compile (source : String) (options : CompileOptions)
  | adopt (o : Object)
  | linkAndLoad (registry : Registry) (h : Host σ)
  | execute (functions : HostFunctions σ) (h : Host σ) (entry : String) (args : List Value)
  | unload (h : Host σ)
  | takeObject
  | emitObject
  /-- Reads what the session holds. -/
  | inspect

inductive Reply where
  | compiled (r : Except CompileError Unit)
  | adopted (r : Except SessionError Unit)
  | loaded (r : Except LoadError Unit)
  | executed (r : Except ExecuteError Value)
  | unloaded
  | taken (r : Except SessionError Object)
  | emitted (r : Except SessionError (List UInt8))
  | inspected

/-- Whether a request was refused for the state of the session or the purpose of its object. -/
def Reply.isRefusal : Reply → Bool
  | compiled (.error (.state _)) | adopted (.error _) | loaded (.error (.state _))
  | loaded (.error .notExecutable) | executed (.error .unloaded) | executed (.error (.notLoaded _))
  | taken (.error _) | emitted (.error (.state ..)) => true
  | _ => false

variable {σ : Type}

/-- Does what is asked. -/
def Request.perform (s : Session) : Request σ → Reply × Session
  | compile source options => let (r, t) := s.compile source options; (.compiled r, t)
  | adopt o => let (r, t) := s.adopt o; (.adopted r, t)
  | linkAndLoad registry h => let (r, t, _) := s.linkAndLoad registry h; (.loaded r, t)
  | execute functions h entry args =>
    let (r, t, _) := s.execute functions h entry args; (.executed r, t)
  | unload h => (.unloaded, (s.unload h).1)
  | takeObject => let (r, t) := s.takeObject; (.taken r, t)
  | emitObject => (.emitted s.emitObject, s)
  | inspect => (.inspected, s)

/-- What a run has been asked, with the replies. -/
abbrev Log (σ : Type) := List (Request σ × Reply)

namespace Session

/-- Does all that is asked, one after the other. -/
def run (s : Session) (requests : List (Request σ)) : Log σ × Session :=
  requests.foldl (fun (log, s) r => let (reply, t) := r.perform s; (log ++ [(r, reply)], t)) ([], s)

/-- All that a request can do. -/
inductive Step (s : Session) : Request σ → Reply → Session → Prop where
  | idle {r : Request σ} {reply : Reply} (reads : reply = .unloaded ∨ reply = .inspected ∨
      (∃ e, reply = .emitted e) ∨ reply.isRefusal = true) : Step s r reply s
  | compiled {source : String} {options : CompileOptions} {o : Object} {warnings : List Diagnostic}
      (phase : s.phase = .created) (result : s.compiler.compile source options = .ok (o, warnings)) :
      Step s (.compile source options) (.compiled (.ok ()))
        { s with phase := .compiled o options.purpose, stats := .ofObject o,
                 diagnostics := s.diagnostics ++ warnings }
  | compileFailed {source : String} {options : CompileOptions} {ds : List Diagnostic}
      (phase : s.phase = .created) (result : s.compiler.compile source options = .error ds) :
      Step s (.compile source options) (.compiled (.error (.failed ds)))
        { s with phase := .compileFailed, diagnostics := s.diagnostics ++ ds }
  | adopted {o : Object} (phase : s.phase = .created) :
      Step s (.adopt o) (.adopted (.ok ()))
        { s with phase := .compiled o .execution, stats := .ofObject o }
  | loaded {registry : Registry} {h : Host σ} {o : Object} {image : Image} {l : LinkStats}
      (phase : s.phase = .compiled o .execution) :
      Step s (.linkAndLoad registry h) (.loaded (.ok ()))
        { s with phase := .loaded o image, stats := s.stats.withLink l }
  | linkFailed {registry : Registry} {h : Host σ} {o : Object} {e : LinkError}
      (phase : s.phase = .compiled o .execution) :
      Step s (.linkAndLoad registry h) (.loaded (.error (.link e))) (s.failLink o e)
  | executed {functions : HostFunctions σ} {h : Host σ} {entry : String} {args : List Value}
      {o : Object} {image : Image} {v : Value} (phase : s.phase = .loaded o image) :
      Step s (.execute functions h entry args) (.executed (.ok v))
        { s with stats := { s.stats with executions := s.stats.executions + 1 } }
  | callFailed {functions : HostFunctions σ} {h : Host σ} {entry : String} {args : List Value}
      {o : Object} {image : Image} {e : CallError} {report : Diagnostic}
      (phase : s.phase = .loaded o image) :
      Step s (.execute functions h entry args) (.executed (.error (.call e)))
        { s with diagnostics := s.diagnostics ++ [report] }
  | unloaded {h : Host σ} {o : Object} {image : Image} (phase : s.phase = .loaded o image) :
      Step s (.unload h) .unloaded { s with phase := .unloaded (some o) }
  | takenUnloaded {o : Object} (phase : s.phase = .unloaded (some o)) :
      Step s .takeObject (.taken (.ok o)) { s with phase := .unloaded none }
  | takenFailed {o : Object} (phase : s.phase = .linkFailed (some o)) :
      Step s .takeObject (.taken (.ok o)) { s with phase := .linkFailed none }

/-! ### One request -/

section

variable (s : Session)

theorem step_compile (source : String) (options : CompileOptions) :
    Step (σ := σ) s (.compile source options) (.compiled (s.compile source options).1)
      (s.compile source options).2 := by
  unfold compile
  cases phase : s.phase with
  | created =>
      cases result : s.compiler.compile source options with
      | ok compiled =>
          obtain ⟨o, warnings⟩ := compiled
          exact .compiled phase result
      | error ds => exact .compileFailed phase result
  | _ => exact .idle (.inr (.inr (.inr rfl)))

theorem step_adopt (o : Object) :
    Step (σ := σ) s (.adopt o) (.adopted (s.adopt o).1) (s.adopt o).2 := by
  unfold adopt
  cases phase : s.phase with
  | created => exact .adopted phase
  | _ => exact .idle (.inr (.inr (.inr rfl)))

theorem step_linkAndLoad (registry : Registry) (h : Host σ) :
    Step s (.linkAndLoad registry h) (.loaded (s.linkAndLoad registry h).1)
      (s.linkAndLoad registry h).2.1 := by
  unfold linkAndLoad link
  cases phase : s.phase with
  | compiled o purpose =>
      cases purpose with
      | emission => exact .idle (.inr (.inr (.inr rfl)))
      | execution =>
          dsimp only
          cases linked : o.link registry h.space with
          | error e => exact .linkFailed phase
          | ok r =>
              obtain ⟨image, space⟩ := r
              dsimp only [load]
              cases image.load with
              | error e => exact .linkFailed phase
              | ok loaded => exact .loaded phase
  | _ => exact .idle (.inr (.inr (.inr rfl)))

theorem step_execute (functions : HostFunctions σ) (h : Host σ) (entry : String)
    (args : List Value) : Step s (.execute functions h entry args)
      (.executed (s.execute functions h entry args).1) (s.execute functions h entry args).2.1 := by
  obtain ⟨compiler, phase, diagnostics, stats⟩ := s
  unfold execute
  cases phase with
  | loaded o image =>
      dsimp only
      split
      · exact .executed rfl
      · exact .callFailed rfl
  | _ => exact .idle (.inr (.inr (.inr rfl)))

theorem step_unload (h : Host σ) : Step s (.unload h) .unloaded (s.unload h).1 := by
  unfold unload
  cases phase : s.phase with
  | loaded o image => exact .unloaded phase
  | _ => exact .idle (.inl rfl)

theorem step_takeObject : Step (σ := σ) s .takeObject (.taken s.takeObject.1) s.takeObject.2 := by
  unfold takeObject
  cases phase : s.phase with
  | unloaded o =>
      cases o with
      | none => exact .idle (.inr (.inr (.inr rfl)))
      | some o => exact .takenUnloaded phase
  | linkFailed o =>
      cases o with
      | none => exact .idle (.inr (.inr (.inr rfl)))
      | some o => exact .takenFailed phase
  | _ => exact .idle (.inr (.inr (.inr rfl)))

theorem step_perform (r : Request σ) : Step s r (r.perform s).1 (r.perform s).2 := by
  cases r with
  | compile source options => exact step_compile s source options
  | adopt o => exact step_adopt s o
  | linkAndLoad registry h => exact step_linkAndLoad s registry h
  | execute functions h entry args => exact step_execute s functions h entry args
  | unload h => exact step_unload s h
  | takeObject => exact step_takeObject s
  | emitObject => exact .idle (.inr (.inr (.inl ⟨_, rfl⟩)))
  | inspect => exact .idle (.inr (.inl rfl))

end

/-! ### What a run has answered -/

end Session

/-- The object that a request has made the session take up. -/
def acceptedBy (compiler : Compiler) : Request σ × Reply → Option Object
  | (.compile source options, .compiled (.ok ())) =>
    (compiler.compile source options).toOption.map Prod.fst
  | (.adopt o, .adopted (.ok ())) => some o
  | _ => none

namespace Reply

/-- The object that a reply gives away. -/
def given? : Reply → Option Object
  | taken (.ok o) => some o
  | _ => none

/-- Whether linking and loading has succeeded. -/
def isLoad : Reply → Bool
  | loaded (.ok ()) => true
  | _ => false

/-- Whether a call has succeeded. -/
def isCall : Reply → Bool
  | executed (.ok _) => true
  | _ => false

end Reply

namespace Log

variable (compiler : Compiler) (log : Log σ) (entry : Request σ × Reply)

/-- The objects that the session has taken up. -/
def accepted : List Object := log.filterMap (acceptedBy compiler)

/-- The objects that the session has given away. -/
def given : List Object := log.filterMap fun entry => entry.2.given?

/-- How often linking and loading has succeeded. -/
def loads : Nat := log.countP fun entry => entry.2.isLoad

/-- How often a call has succeeded. -/
def calls : Nat := log.countP fun entry => entry.2.isCall

theorem accepted_concat : accepted compiler (log ++ [entry]) =
    accepted compiler log ++ (acceptedBy compiler entry).toList := by
  rw [accepted, List.filterMap_append]
  cases h : acceptedBy compiler entry <;> simp [accepted, h]

theorem given_concat : given (log ++ [entry]) = given log ++ entry.2.given?.toList := by
  rw [given, List.filterMap_append]
  cases h : entry.2.given? <;> simp [given, h]

theorem loads_concat : loads (log ++ [entry]) = loads log + entry.2.isLoad.toNat := by
  rw [loads, List.countP_append]
  cases h : entry.2.isLoad <;> simp [loads, h]

theorem calls_concat : calls (log ++ [entry]) = calls log + entry.2.isCall.toNat := by
  rw [calls, List.countP_append]
  cases h : entry.2.isCall <;> simp [calls, h]

end Log

/-- What a phase says of the objects that were taken up and given away, and of how often linking
and calls have succeeded. -/
def Phase.Records (accepted given : List Object) (loads calls : Nat) : Phase → Prop
  | created | compileFailed => accepted = [] ∧ given = [] ∧ loads = 0 ∧ calls = 0
  | compiled o _ => accepted = [o] ∧ given = [] ∧ loads = 0 ∧ calls = 0
  | linked .. => False
  | loaded o _ | unloaded (some o) => accepted = [o] ∧ given = [] ∧ loads = 1
  | unloaded none => ∃ o, accepted = [o] ∧ given = [o] ∧ loads = 1
  | linkFailed (some o) => accepted = [o] ∧ given = [] ∧ loads = 0
  | linkFailed none => ∃ o, accepted = [o] ∧ given = [o] ∧ loads = 0

namespace Session

/-- A session that is in line with the run that has led to it. -/
structure InLine (compiler : Compiler) (log : Log σ) (s : Session) : Prop where
  sameCompiler : s.compiler = compiler
  phase : s.phase.Records (Log.accepted compiler log) (Log.given log) (Log.loads log) (Log.calls log)
  calls : s.stats.executions = Log.calls log

variable {compiler : Compiler} {log : Log σ} {s t : Session} {r : Request σ} {reply : Reply}

theorem quiet_of_idle (compiler : Compiler) (r : Request σ) (reads : reply = .unloaded ∨ reply = .inspected ∨ (∃ e, reply = .emitted e) ∨
    reply.isRefusal = true) : acceptedBy compiler (r, reply) = none ∧ reply.given? = none ∧
      reply.isLoad = false ∧ reply.isCall = false := by
  rcases reads with rfl | rfl | ⟨e, rfl⟩ | refused
  · exact ⟨by cases r <;> rfl, rfl, rfl, rfl⟩
  · exact ⟨by cases r <;> rfl, rfl, rfl, rfl⟩
  · exact ⟨by cases r <;> rfl, rfl, rfl, rfl⟩
  · unfold Reply.isRefusal at refused
    split at refused
    case h_9 => cases refused
    all_goals exact ⟨by cases r <;> rfl, rfl, rfl, rfl⟩

/-- Every step keeps a session in line. -/
theorem InLine.step (h : InLine compiler log s) (step : Step s r reply t) :
    InLine compiler (log ++ [(r, reply)]) t := by
  obtain ⟨rfl, phase, calls⟩ := h
  suffices t.compiler = s.compiler ∧ t.phase.Records
      (Log.accepted s.compiler log ++ (acceptedBy s.compiler (r, reply)).toList)
      (Log.given log ++ reply.given?.toList) (Log.loads log + reply.isLoad.toNat)
      (Log.calls log + reply.isCall.toNat) ∧
      t.stats.executions = Log.calls log + reply.isCall.toNat by
    obtain ⟨same, records, calls⟩ := this
    refine ⟨same, ?_, by rw [Log.calls_concat, calls]⟩
    rw [Log.accepted_concat, Log.given_concat, Log.loads_concat, Log.calls_concat]
    exact records
  cases step with
  | idle reads =>
      obtain ⟨accepted, given, load, call⟩ :=
        quiet_of_idle s.compiler r reads
      rw [accepted, given, load, call, Option.toList_none, List.append_nil, List.append_nil]
      exact ⟨rfl, phase, calls⟩
  | compiled isPhase result =>
      rw [isPhase] at phase
      obtain ⟨accepted, given, loads, none⟩ := phase
      have taken : acceptedBy s.compiler (.compile (σ := σ) _ _, .compiled (.ok ())) = some _ :=
        congrArg (fun r => r.toOption.map Prod.fst) result
      rw [accepted, given, loads, none, taken]
      exact ⟨rfl, ⟨rfl, rfl, rfl, rfl⟩, rfl⟩
  | compileFailed isPhase result =>
      rw [isPhase] at phase
      obtain ⟨accepted, given, loads, none⟩ := phase
      rw [accepted, given, loads]
      rw [none] at calls ⊢
      exact ⟨rfl, ⟨rfl, rfl, rfl, rfl⟩, calls⟩
  | adopted isPhase =>
      rw [isPhase] at phase
      obtain ⟨accepted, given, loads, none⟩ := phase
      rw [accepted, given, loads, none]
      exact ⟨rfl, ⟨rfl, rfl, rfl, rfl⟩, rfl⟩
  | loaded isPhase =>
      rw [isPhase] at phase
      obtain ⟨accepted, given, loads, none⟩ := phase
      rw [accepted, given, loads]
      exact ⟨rfl, ⟨rfl, rfl, rfl⟩, calls⟩
  | linkFailed isPhase =>
      rw [isPhase] at phase
      obtain ⟨accepted, given, loads, none⟩ := phase
      rw [accepted, given, loads]
      exact ⟨rfl, ⟨rfl, rfl, rfl⟩, calls⟩
  | executed isPhase =>
      change _ ∧ s.phase.Records _ _ _ _ ∧ s.stats.executions + 1 = _
      rw [isPhase] at phase ⊢
      obtain ⟨accepted, given, loads⟩ := phase
      rw [accepted, given, loads, calls]
      exact ⟨rfl, ⟨rfl, rfl, rfl⟩, rfl⟩
  | callFailed isPhase =>
      change _ ∧ s.phase.Records _ _ _ _ ∧ s.stats.executions = _
      rw [isPhase] at phase ⊢
      obtain ⟨accepted, given, loads⟩ := phase
      rw [accepted, given, loads, calls]
      exact ⟨rfl, ⟨rfl, rfl, rfl⟩, rfl⟩
  | unloaded isPhase =>
      rw [isPhase] at phase
      obtain ⟨accepted, given, loads⟩ := phase
      rw [accepted, given, loads]
      exact ⟨rfl, ⟨rfl, rfl, rfl⟩, calls⟩
  | takenUnloaded isPhase =>
      rw [isPhase] at phase
      obtain ⟨accepted, given, loads⟩ := phase
      rw [accepted, given, loads]
      exact ⟨rfl, ⟨_, rfl, rfl, rfl⟩, calls⟩
  | takenFailed isPhase =>
      rw [isPhase] at phase
      obtain ⟨accepted, given, loads⟩ := phase
      rw [accepted, given, loads]
      exact ⟨rfl, ⟨_, rfl, rfl, rfl⟩, calls⟩

theorem run_concat (s : Session) (requests : List (Request σ)) (r : Request σ) :
    s.run (requests ++ [r]) = ((s.run requests).1 ++ [(r, (r.perform (s.run requests).2).1)],
      (r.perform (s.run requests).2).2) := by
  unfold run
  rw [List.foldl_append]
  rfl

theorem inLine_run (compiler : Compiler) (requests : List (Request σ)) :
    InLine compiler (run { compiler } requests).1 (run { compiler } requests).2 := by
  induction requests using List.reverseRecOn with
  | nil => exact ⟨rfl, ⟨rfl, rfl, rfl, rfl⟩, rfl⟩
  | append_singleton requests r ih =>
      rw [run_concat]
      exact ih.step (step_perform _ r)

/-! ### The life of a session -/

end Session

/-- The ways from a state to the next one. A failure has no way out. -/
inductive SessionState.Forward : SessionState → SessionState → Prop where
  | stay {state : SessionState} : Forward state state
  | compiles : Forward .created .compiled
  | failsToCompile : Forward .created .compileFailed
  | loads : Forward .compiled .loaded
  | failsToLink : Forward .compiled .linkFailed
  | unloads : Forward .loaded .unloaded

namespace Session

variable {compiler : Compiler} {log : Log σ} {s t : Session} {r : Request σ} {reply : Reply}

theorem Step.forward (step : Step s r reply t) : s.state.Forward t.state := by
  cases step <;> simp only [state, failLink, *] <;> constructor

theorem Step.keeps_diagnostics (step : Step s r reply t) : s.diagnostics <+: t.diagnostics := by
  cases step <;> first | exact List.prefix_refl _ | exact List.prefix_append _ _

/-- What linking reports of its failure. -/
theorem failLink_reports (s : Session) (o : Object) (e : LinkError) :
    ∃ d ds, (s.failLink o e).diagnostics = s.diagnostics ++ d :: ds ∧
      ∀ report ∈ d :: ds, report.stage = .link ∧ report.severity = .error := by
  unfold failLink
  cases e with
  | undefined name others =>
      refine ⟨_, _, rfl, List.forall_mem_cons.mpr ⟨⟨rfl, rfl⟩, ?_⟩⟩
      exact List.forall_mem_map.mpr fun _ _ => ⟨rfl, rfl⟩
  | _ => exact ⟨_, _, rfl, List.forall_mem_singleton.mpr ⟨rfl, rfl⟩⟩

theorem Step.reports (step : Step s r reply t) (before : s.state ≠ .linkFailed)
    (behind : t.state = .linkFailed) : ∃ d ds, t.diagnostics = s.diagnostics ++ d :: ds ∧
      ∀ report ∈ d :: ds, report.stage = .link ∧ report.severity = .error := by
  cases step with
  | linkFailed => exact failLink_reports ..
  | idle => exact absurd behind before
  | takenFailed phase => exact absurd (by rw [state, phase]; rfl) before
  | executed phase => exact absurd behind before
  | callFailed phase => exact absurd behind before
  | _ => cases behind

theorem Step.refused (step : Step s r reply t) (refusal : reply.isRefusal = true) : t = s := by
  cases step <;> first | rfl | cases refusal

theorem Step.taken {o : Object} (step : Step s r (.taken (.ok o)) t) :
    (s.state = .linkFailed ∨ s.state = .unloaded) ∧ s.object? = some o ∧ t.object? = none := by
  cases step with
  | idle reads => simp [Reply.isRefusal] at reads
  | takenUnloaded phase => exact ⟨.inr (by rw [state, phase]; rfl), by rw [object?, phase]; rfl, rfl⟩
  | takenFailed phase => exact ⟨.inl (by rw [state, phase]; rfl), by rw [object?, phase]; rfl, rfl⟩

/-- What is true of a session after a run of requests, and of the next one. -/
structure Lifecycle (compiler : Compiler) (log : Log σ) (s : Session) : Prop where
  notLinked : s.state ≠ .linked
  image : (∃ i, s.image? = some i) ↔ s.state = .loaded
  nothingLoaded : s.state ≠ .loaded → s.regions = [] ∧ ∀ name, s.symbolAddress? name = none
  loadedOnce : Log.loads log ≤ 1
  acceptedOnce : (Log.accepted compiler log).length ≤ 1
  givenOnce : (Log.given log).length ≤ 1
  givenAccepted : ∀ o ∈ Log.given log, o ∈ Log.accepted compiler log
  object : s.object? = if Log.given log = [] then (Log.accepted compiler log).head? else none
  executions : s.stats.executions = Log.calls log
  forward : ∀ r : Request σ, s.state.Forward (r.perform s).2.state
  givenFrom : ∀ (r : Request σ) (o : Object), (r.perform s).1 = .taken (.ok o) →
    (s.state = .linkFailed ∨ s.state = .unloaded) ∧ s.object? = some o ∧
      (r.perform s).2.object? = none
  unloaded : s.state = .unloaded → ∀ (functions : HostFunctions σ) (h : Host σ) (entry : String)
    (args : List Value), (s.execute functions h entry args).1 = .error .unloaded
  refused : ∀ r : Request σ, (r.perform s).1.isRefusal = true → (r.perform s).2 = s
  growing : ∀ r : Request σ, s.diagnostics <+: (r.perform s).2.diagnostics
  reported : ∀ r : Request σ, s.state ≠ .linkFailed → (r.perform s).2.state = .linkFailed →
    ∃ d ds, (r.perform s).2.diagnostics = s.diagnostics ++ d :: ds ∧
      ∀ report ∈ d :: ds, report.stage = .link ∧ report.severity = .error

/-- A phase and its records agree on the object. -/
theorem object?_of_records {p : Phase} {accepted given : List Object} {loads calls : Nat}
    (h : p.Records accepted given loads calls) : p.state ≠ .linked ∧ loads ≤ 1 ∧
      accepted.length ≤ 1 ∧ given.length ≤ 1 ∧ (∀ o ∈ given, o ∈ accepted) ∧
      p.object? = if given = [] then accepted.head? else none := by
  cases p with
  | linked o i => exact h.elim
  | unloaded o =>
      cases o with
      | none =>
          obtain ⟨o, rfl, rfl, rfl⟩ := h
          simp [Phase.state, Phase.object?]
      | some o =>
          obtain ⟨rfl, rfl, rfl⟩ := h
          simp [Phase.state, Phase.object?]
  | linkFailed o =>
      cases o with
      | none =>
          obtain ⟨o, rfl, rfl, rfl⟩ := h
          simp [Phase.state, Phase.object?]
      | some o =>
          obtain ⟨rfl, rfl, rfl⟩ := h
          simp [Phase.state, Phase.object?]
  | loaded o i =>
      obtain ⟨rfl, rfl, rfl⟩ := h
      simp [Phase.state, Phase.object?]
  | _ =>
      obtain ⟨rfl, rfl, rfl, rfl⟩ := h
      simp [Phase.state, Phase.object?]

theorem image?_of_phase (s : Session) : ((∃ i, s.image? = some i) ↔ s.state = .loaded) ∧
    (s.state ≠ .loaded → s.regions = [] ∧ ∀ name, s.symbolAddress? name = none) := by
  obtain ⟨compiler, phase, diagnostics, stats⟩ := s
  cases phase with
  | loaded o i => exact ⟨⟨fun _ => rfl, fun _ => ⟨i, rfl⟩⟩, fun other => absurd rfl other⟩
  | _ => exact ⟨⟨nofun, nofun⟩, fun _ => ⟨rfl, fun _ => rfl⟩⟩

theorem execute_of_unloaded (h : s.state = .unloaded) (functions : HostFunctions σ) (host : Host σ)
    (entry : String) (args : List Value) :
    (s.execute functions host entry args).1 = .error .unloaded := by
  obtain ⟨compiler, phase, diagnostics, stats⟩ := s
  cases phase with
  | unloaded o => rfl
  | _ => cases h

end Session
end LiveC
