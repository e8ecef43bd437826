import RegisterBackend.Proofs.Verification

/-!
Warnings as errors. As long as no warning arises, a run with warnings recorded and one with warnings
as errors go side by side; the first warning ends the second run.
-/
namespace RegisterBackend
open Gen

variable {α β : Type} {b b' : BodyBuilder} {e : Fault}

namespace Gen

abbrev strictly (c : Context) : Context := c.tuned ({ · with escalateWarnings := true })

/-- The step does the same whether or not warnings are errors. -/
def Heedless (x : Gen α) : Prop :=
  ∀ c, outcome x (strictly c) = ((outcome x c).1, strictly (outcome x c).2)

theorem heedless_of_uniform {x : Gen α}
    (uniform : (Correspondence.tuning ({ · with escalateWarnings := true })
      (fun _ => rfl) fun _ => rfl).Uniform x) :
    Heedless x := by
  intro c
  obtain ⟨result, context, _⟩ := uniform (rfl : strictly c = _)
  exact Prod.ext result context

theorem heedless_bind {x : Gen α} {f : α → Gen β} (first : Heedless x)
    (rest : ∀ a, Heedless (f a)) : Heedless (x >>= f) := by
  intro c
  rw [outcome_bind, outcome_bind, first]
  rcases outcome x c with ⟨_ | a, c1⟩
  · rfl
  · exact rest a c1

theorem heedless_get {f : Context → Gen β} (agrees : ∀ c, f (strictly c) = f c)
    (rest : ∀ c, Heedless (f c)) : Heedless (get >>= f) := by
  intro c
  change outcome (f (strictly c)) (strictly c) = _
  rw [agrees]
  exact rest c c

theorem heedless_checked : Heedless (do if (← get).options.verify then checkConsistency) := by
  intro c
  have check : (strictly c).check = c.check :=
    Context.Shares.check_eq ⟨rfl, rfl, rfl, rfl, rfl, rfl, rfl⟩
  have verify : (strictly c).options.verify = c.options.verify := rfl
  rw [outcome_checked, outcome_checked, check, verify]
  split <;> rfl

def heedlessly : Scheme where
  holds x y := Heedless x ∧ Heedless y
  holds_pure _ _ := ⟨heedless_of_uniform (Correspondence.uniform_pure _),
    heedless_of_uniform (Correspondence.uniform_pure _)⟩
  holds_bind first rest :=
    ⟨heedless_bind first.1 fun a => (rest a a).1, heedless_bind first.2 fun a => (rest a a).2⟩
  holds_inconsistent _ := ⟨fun _ => rfl, fun _ => rfl⟩
  holds_registers agrees rest :=
    and_self_iff.mpr (heedless_get (fun _ => agrees rfl) fun c => (rest c).1)
  holds_checked := and_self_iff.mpr heedless_checked
  holds_count := and_self_iff.mpr (heedless_of_uniform Correspondence.uniform_instructionCount)
  holds_addFunction _ _ _ := ⟨heedless_of_uniform (Correspondence.uniform_addFunction _ _),
    heedless_of_uniform (Correspondence.uniform_addFunction _ _)⟩
  holds_inFrame frame := and_self_iff.mpr (heedless_of_uniform
    (Correspondence.uniform_modify (fun k => { k with currentFrame := frame }) fun _ => rfl))
  holds_prologue _ _ :=
    and_self_iff.mpr (heedless_of_uniform (Correspondence.uniform_lowerPrologue _ _))
  holds_retire := and_self_iff.mpr (heedless_of_uniform Correspondence.uniform_retireRegisters)
  holds_epilogue _ _ :=
    and_self_iff.mpr (heedless_of_uniform (Correspondence.uniform_lowerEpilogue _ _))
  holds_entry _ _ := and_self_iff.mpr (heedless_of_uniform (Correspondence.uniform_lowerEntry _ _))

theorem heedless_lowerModule (functions : Array Declaration) (entry : Option FunctionId) :
    Heedless (lowerModule functions entry) :=
  (heedlessly.holds_lowerModule entry fun _ _ _ _ _ =>
    and_self_iff.mpr (heedless_of_uniform (Correspondence.uniform_lowerUnchecked _ _ _ _))).1

end Gen

def Module.strict (m : Module) : Module :=
  m.varied { m.options with escalateWarnings := true } { m.diagnostics with escalate := true }

theorem Module.finish_strict (m : Module) : m.strict.finish = m.finish :=
  finish_varied rfl rfl (heedless_lowerModule m.functions m.entry m.context)

def BodyBuilder.strict (b : BodyBuilder) : BodyBuilder := { b with context := b.context.strict }

namespace Build

/-- The step records the warnings, and with warnings as errors it fails with the first of them. -/
structure Escalates (x : Build α) (b : BodyBuilder) (added : List Warning) : Prop where
  recorded : (outcome x b).2.context.diagnostics = ⟨false, b.context.diagnostics.warnings ++ added⟩
  plain : ∀ {e}, (outcome x b).1 = .error e → e.isEscalated = false
  same : added = [] → outcome x b.strict = ((outcome x b).1, (outcome x b).2.strict)
  stops : ∀ {w more}, added = w :: more →
    (outcome x b.strict).1 = .error (.failed (.escalated w.loc w.cause))

variable {x : Build α} {f : α → Build β}

theorem escalates_of_blind (blind : Blind x) (lenient : b.context.diagnostics.escalate = false) :
    Escalates x b [] where
  recorded := by
    rw [blind.diagnostics, List.append_nil, ← lenient]
  plain := blind.stopped
  same _ := by
    have options : (outcome x b).2.context.options = b.context.options :=
      congrArg (·.2.context.options) (blind.varied b b.context.options b.context.diagnostics)
    have varied : outcome x b.strict = _ := blind.varied b _ _
    rw [varied, BodyBuilder.strict, Module.strict, options, blind.diagnostics]
    rfl
  stops := nofun

theorem escalates_warn (b : BodyBuilder) (loc : Location) (cause : Caution)
    (lenient : b.context.diagnostics.escalate = false) :
    Escalates (inModule (Module.warn loc cause)) b [⟨loc, cause⟩] := by
  have warned : outcome (inModule (Module.warn loc cause)) b
      = (.ok (), { b with
        context.diagnostics := ⟨false, b.context.diagnostics.warnings ++ [⟨loc, cause⟩]⟩ }) := by
    rw [outcome_inModule, Module.outcome_warn]
    simp [Diagnostics.warn, lenient]
  refine ⟨by rw [warned], ?_, ?_, ?_⟩
  · rw [warned]
    rintro _ ⟨⟩
  · rintro ⟨⟩
  · rintro w more ⟨⟩
    rw [outcome_inModule, Module.outcome_warn]
    rfl

theorem outcome_bind_error (stopped : (outcome x b).1 = .error e) :
    (outcome (x >>= f) b).1 = .error e := by
  rcases ran : outcome x b with ⟨_ | a, b1⟩ <;> rw [ran] at stopped <;> cases stopped
  rw [outcome_bind, ran]

theorem escalates_bind {added : List Warning}
    (first : Escalates x b added) (rest : ∀ a b, b.context.diagnostics.escalate = false →
      ∃ more, Escalates (f a) b more) : ∃ more, Escalates (x >>= f) b more := by
  obtain ⟨recorded, plain, same, stops⟩ := first
  rcases ran : outcome x b with ⟨_ | a, b1⟩ <;> simp only [ran] at recorded plain same
  · refine ⟨added, ?_, ?_, fun none => ?_, fun is_first => outcome_bind_error (stops is_first)⟩
    · simpa only [outcome_bind, ran] using recorded
    · rw [outcome_bind, ran]
      rintro e ⟨⟩
      exact plain rfl
    · simp only [outcome_bind, ran, same none]
  · obtain ⟨more, recorded', plain', same', stops'⟩ := rest a b1 (by rw [recorded])
    refine ⟨added ++ more, ?_, ?_, fun none => ?_, fun {w later} is_first => ?_⟩
    · simpa only [outcome_bind, ran, recorded, List.append_assoc] using recorded'
    · rw [outcome_bind, ran]
      exact plain'
    · obtain ⟨none, none'⟩ := List.append_eq_nil_iff.mp none
      simpa only [outcome_bind, ran, same none] using same' none'
    · cases added with
      | nil => simpa only [outcome_bind, same rfl] using stops' is_first
      | cons w' later' =>
        obtain ⟨rfl, _⟩ := List.cons.inj is_first
        exact outcome_bind_error (stops rfl)

def escalating : Closure.Uniform where
  holds x := ∀ b, b.context.diagnostics.escalate = false → ∃ added, Escalates x b added
  holds_blind blind _ lenient := ⟨[], escalates_of_blind blind lenient⟩
  holds_bind first rest b lenient := by
    obtain ⟨_, escalates⟩ := first b lenient
    exact escalates_bind escalates rest
  holds_get {β f} agrees rest b lenient := by
    obtain ⟨added, recorded, plain, same, stops⟩ := rest b b lenient
    have strict : outcome (get >>= f) b.strict = outcome (f b) b.strict := by
      change outcome (f b.strict) b.strict = _
      have agreed : f b.strict = f b := agrees b _ _
      rw [agreed]
    exact ⟨added, recorded, plain, fun none => strict.trans (same none), fun is_first =>
      strict ▸ stops is_first⟩
  holds_warn loc cause b lenient := ⟨_, escalates_warn b loc cause lenient⟩

def begin (function : FunctionId) (names : List String) (line : Nat) : Build Unit := do
  set (← inModule (Module.define function names line))

theorem outcome_begin (function : FunctionId) (names : List String) (line : Nat) (b : BodyBuilder) :
    outcome (begin function names line) b =
      match outcome (Module.define function names line) b.context with
      | (.ok b, _) => (.ok (), b)
      | (.error e, context) => (.error e, { b with context }) := by
  rw [begin, outcome_bind, outcome_inModule]
  rcases outcome (Module.define function names line) b.context with ⟨_ | _, _⟩ <;> rfl

theorem blind_begin (function : FunctionId) (names : List String) (line : Nat) :
    Blind (begin function names line) := by
  refine ⟨fun b options diagnostics => ?_, fun {b e} => ?_⟩
  · have opened : outcome (Module.define function names line) (b.varied options diagnostics).context
        = _ := b.context.define_varied function names line options diagnostics
    rw [outcome_begin, outcome_begin, opened]
    rcases outcome (Module.define function names line) b.context with ⟨_ | _, _⟩ <;> rfl
  · rw [outcome_begin]
    rcases opened : outcome (Module.define function names line) b.context with ⟨e' | _, _⟩
    · rintro ⟨⟩
      exact (Module.define_error opened).2
    · rintro ⟨⟩

end Build

/-- The single calls of the interface, each with what it gives back. -/
def ModuleCall.requests : ModuleCall → List (Build Answer)
  | .declare name sig linkage line =>
    [.function <$> Build.inModule (Module.declare name sig linkage line)]
  | .declareStatic name ty line =>
    [.value <$> Build.inModule (Module.declareStatic name ty line)]
  | .setEntry function line =>
    [do Build.inModule (Module.setEntry function line); return .nothing]
  | .define function names line body completed =>
    (do Build.begin function names line; return .nothing) :: body.map BodyCall.request
      ++ if completed then [do Build.finish; return .nothing] else []

theorem Build.Closure.holds_requests (C : Build.Closure) (call : ModuleCall) :
    ∀ request ∈ call.requests, C.holds (.tries false) request := by
  cases call with
  | declare name sig linkage line =>
    simpa [ModuleCall.requests] using C.holds_map (C.holds_inModule (Module.blind_declare _ _ _ _))
  | declareStatic name ty line =>
    simpa [ModuleCall.requests] using C.holds_map
      (C.holds_inModule (Module.blind_declareStatic _ _ _))
  | setEntry function line =>
    simpa [ModuleCall.requests] using C.holds_after (C.holds_inModule (Module.blind_setEntry _ _))
  | define function names line body completed =>
    have opened : C.holds (.tries false) (Build.begin function names line) := by
      refine C.holds_blind (Build.blind_begin function names line) fun b e => ?_
      rw [Build.outcome_begin]
      rcases opened : outcome (Module.define function names line) b.context with ⟨e' | _, _⟩
      · rw [(Module.define_error opened).1]
        exact fun _ => rfl
      · rintro ⟨⟩
    have closed : C.holds (.tries false) Build.finish := by
      refine C.holds_blind Build.blind_finish fun b e => ?_
      rw [Build.outcome_finish]
      split
      · exact fun _ => rfl
      · rintro ⟨⟩
    intro request listed
    simp only [ModuleCall.requests, List.cons_append, List.mem_cons, List.mem_append,
      List.mem_map] at listed
    obtain rfl | ⟨call, _, rfl⟩ | last := listed
    · exact C.holds_after opened
    · exact C.holds_request call
    · split at last
      · obtain rfl := List.mem_singleton.mp last
        exact C.holds_after closed
      · cases last

def BodyBuilder.attempt (b : BodyBuilder) :
    List (Build Answer) → List (Except Fault Answer) × BodyBuilder
  | [] => ([], b)
  | request :: rest =>
    match outcome request b with
    | (.error e, b) => ([.error e], b)
    | (.ok answer, b) =>
      let (answers, b) := b.attempt rest
      (.ok answer :: answers, b)

/-- The requests record the warnings, and with warnings as errors they go as far as the first. -/
structure BodyBuilder.Escalates (b : BodyBuilder) (requests : List (Build Answer))
    (added : List Warning) : Prop where
  recorded : (b.attempt requests).2.context.diagnostics
    = ⟨false, b.context.diagnostics.warnings ++ added⟩
  plain : ∀ {e}, .error e ∈ (b.attempt requests).1 → e.isEscalated = false
  same : added = [] →
    b.strict.attempt requests = ((b.attempt requests).1, (b.attempt requests).2.strict)
  stops : ∀ {w more}, added = w :: more → ∃ k, (b.strict.attempt requests).1
    = (b.attempt requests).1.take k ++ [.error (.failed (.escalated w.loc w.cause))]

theorem BodyBuilder.attempt_error {request : Build Answer} {rest : List (Build Answer)}
    (stopped : (outcome request b).1 = .error e) :
    (b.attempt (request :: rest)).1 = [.error e] := by
  rcases ran : outcome request b with ⟨_ | a, b1⟩ <;> rw [ran] at stopped <;> cases stopped
  rw [attempt, ran]

theorem BodyBuilder.escalates (b : BodyBuilder) (requests : List (Build Answer))
    (lenient : b.context.diagnostics.escalate = false)
    (holds : ∀ request ∈ requests, Build.escalating.holds request) :
    ∃ added, b.Escalates requests added := by
  induction requests generalizing b with
  | nil => exact ⟨[], by simp [attempt, ← lenient], by rintro _ ⟨⟩, fun _ => rfl, by rintro _ _ ⟨⟩⟩
  | cons request rest ih =>
    obtain ⟨here, later⟩ := List.forall_mem_cons.mp holds
    obtain ⟨added, recorded, plain, same, stops⟩ := here b lenient
    -- The first request is also the last one that the strict run takes if it warns.
    have stops {w more} (is_first : added = w :: more) : ∃ k, (b.strict.attempt (request :: rest)).1
        = (b.attempt (request :: rest)).1.take k ++ [.error (.failed (.escalated w.loc w.cause))] :=
      ⟨0, attempt_error (stops is_first)⟩
    rcases ran : outcome request b with ⟨e | answer, b1⟩ <;> simp only [ran] at recorded plain same
    · refine ⟨added, ?_, ?_, fun none => ?_, stops⟩
      · simpa only [attempt, ran] using recorded
      · simpa [attempt, ran] using plain rfl
      · simp only [attempt, ran, same none]
    · obtain ⟨more, recorded', plain', same', stops'⟩ := ih b1 (by rw [recorded]) later
      refine ⟨added ++ more, ?_, ?_, fun none => ?_, fun {w _} is_first => ?_⟩
      · simpa only [attempt, ran, recorded, List.append_assoc] using recorded'
      · rintro e failed
        refine plain' ?_
        simpa [attempt, ran] using failed
      · obtain ⟨none, none'⟩ := List.append_eq_nil_iff.mp none
        simp only [attempt, ran, same none, same' none']
      · cases added with
        | nil =>
          obtain ⟨k, answers⟩ := stops' is_first
          exact ⟨k + 1, by simp [attempt, ran, same rfl, answers]⟩
        | cons w' later' =>
          obtain ⟨rfl, _⟩ := List.cons.inj is_first
          exact stops rfl

namespace Module

/-- The module that the calls build up to the first that fails, and what they give. -/
def session (options : Options) (file : String) (calls : List ModuleCall) :
    List (Except Fault Answer) × Module :=
  let (answers, b) := { (default : BodyBuilder) with context := start options file }.attempt
    (calls.flatMap ModuleCall.requests)
  (answers, b.context)

/-- Making warnings errors changes nothing but the verdict. A row of calls, stopped at the first
that fails, then ends with a warning as its error exactly if it records one otherwise, and it is the
first; up to there the calls give the same. Without warnings the two modules differ in the switch
alone, and the same program is finished or the same fault found. -/
theorem escalation_changes_verdict (options : Options) (file : String) (calls : List ModuleCall) :
    let lenient := session { options with escalateWarnings := false } file calls
    let strict := session { options with escalateWarnings := true } file calls
    ((∃ loc cause, .error (.failed (.escalated loc cause)) ∈ strict.1)
      ↔ lenient.2.diagnostics.warnings ≠ [])
    ∧ (∀ w more, lenient.2.diagnostics.warnings = w :: more →
      ∃ k, strict.1 = lenient.1.take k ++ [.error (.failed (.escalated w.loc w.cause))])
    ∧ (lenient.2.diagnostics.warnings = [] →
      strict.1 = lenient.1 ∧ strict.2 = lenient.2.strict ∧ strict.2.finish = lenient.2.finish) := by
  intro lenient strict
  obtain ⟨added, recorded, plain, same, stops⟩ := BodyBuilder.escalates
    { (default : BodyBuilder) with
      context := start { options with escalateWarnings := false } file }
    (calls.flatMap ModuleCall.requests) rfl fun request listed => by
      obtain ⟨call, _, listed⟩ := List.mem_flatMap.mp listed
      exact Build.escalating.closure.holds_requests call request listed
  have recorded : lenient.2.diagnostics.warnings = added := by
    change (BodyBuilder.attempt _ _).2.context.diagnostics.warnings = _
    rw [recorded]
    rfl
  have same (none : added = []) : strict = (lenient.1, lenient.2.strict) :=
    congrArg (fun run => (run.1, run.2.context)) (same none)
  rw [recorded]
  refine ⟨⟨?_, fun warned => ?_⟩, fun w more is_first => stops is_first, fun none => ?_⟩
  · rintro ⟨loc, cause, failed⟩ none
    rw [same none] at failed
    cases plain failed
  · obtain ⟨w, more, is_first⟩ := List.exists_cons_of_ne_nil warned
    obtain ⟨k, answers⟩ := stops is_first
    refine ⟨w.loc, w.cause, ?_⟩
    have last : strict.1 = _ := answers
    rw [last]
    exact List.mem_append_right _ (List.mem_singleton_self _)
  · rw [same none]
    exact ⟨rfl, rfl, finish_strict _⟩

end Module

end RegisterBackend
