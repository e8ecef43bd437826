import RegisterBackend.Proofs.Escalation

/-!
Rejected calls. Every call makes all its checks before its first change, so a call that fails leaves
module and body as they were, apart from warnings.
-/
namespace RegisterBackend

open Gen

def BodyBuilder.Warned (b b' : BodyBuilder) : Prop :=
  ∃ added, b' = { b with
    context.diagnostics :=
      ⟨b.context.diagnostics.escalate, b.context.diagnostics.warnings ++ added⟩ }

namespace BodyBuilder.Warned
variable {b b1 b' : BodyBuilder}

theorem refl (b : BodyBuilder) : b.Warned b := ⟨[], by rw [List.append_nil]⟩

theorem trans (first : b.Warned b1) (second : b1.Warned b') : b.Warned b' := by
  obtain ⟨added, rfl⟩ := first
  obtain ⟨more, rfl⟩ := second
  exact ⟨added ++ more, by rw [List.append_assoc]⟩

end BodyBuilder.Warned

namespace Build
variable {α β : Type} {x : Build α}

theorem Mode.Allows.mono {R R' : BodyBuilder → BodyBuilder → Prop} {mode : Mode}
    (le : ∀ {b b'}, R b b' → R' b b') (allowed : mode.Allows R x) : mode.Allows R' x := by
  obtain (_ | _) | _ := mode
  · exact fun b e stopped => le (allowed b e stopped)
  · exact fun b => le (allowed b)
  · exact allowed

theorem warned_warn (loc : Location) (cause : Caution) (b : BodyBuilder) :
    b.Warned (outcome (inModule (Module.warn loc cause)) b).2 := by
  rw [outcome_inModule, Module.outcome_warn]
  cases escalates : b.context.diagnostics.escalate with
  | true =>
    simp only [Diagnostics.warn, escalates]
    exact .refl b
  | false =>
    simp only [Diagnostics.warn, escalates]
    exact ⟨[⟨loc, cause⟩], by rw [escalates]; rfl⟩

/-- Checks before changes: a step put together of checks that at most warn and changes that cannot
fail is undone by a failure. -/
def checking : Closure where
  holds mode x := mode.Allows BodyBuilder.Warned x
  holds_blind _ allowed := allowed.mono (by rintro b _ rfl; exact .refl b)
  holds_bind {α β only x f} first rest := by
    cases only with
    | true =>
      intro b
      have checked : b.Warned (outcome x b).2 := first b
      rw [outcome_bind]
      generalize outcome x b = ran at checked ⊢
      obtain ⟨_ | a, b1⟩ := ran
      · exact checked
      · exact checked.trans (rest a b1)
    | false =>
      intro b e
      have checked : b.Warned (outcome x b).2 := first b
      rw [outcome_bind]
      generalize outcome x b = ran at checked ⊢
      obtain ⟨_ | a, b1⟩ := ran
      · exact fun _ => checked
      · exact fun stopped => checked.trans (rest a b1 e stopped)
  holds_then {α β x f} first rest b e stopped := by
    rw [outcome_bind] at stopped
    rcases ran : outcome x b with ⟨e' | a, b1⟩
    · exact first b e' (congrArg Prod.fst ran)
    · rw [ran] at stopped
      exact rest a b1 e stopped
  holds_map {α β only f x} step := by
    have mapped (b : BodyBuilder) :
        outcome (f <$> x) b = ((outcome x b).1.map f, (outcome x b).2) := by
      change outcome (x >>= pure ∘ f) b = _
      rw [outcome_bind]
      rcases outcome x b with ⟨_ | a, b1⟩ <;> rfl
    cases only with
    | true =>
      intro b
      rw [mapped]
      exact step b
    | false =>
      intro b e
      have tried := step b
      rw [mapped]
      generalize outcome x b = ran at tried ⊢
      obtain ⟨e' | a, b1⟩ := ran
      · exact fun _ => tried e' rfl
      · rintro ⟨⟩
  holds_tries succeeds b e stopped := absurd stopped (succeeds b e)
  holds_get {β mode f} _ rest := by
    obtain (_ | _) | _ := mode
    · exact fun b => rest b b
    · exact fun b => rest b b
    · exact fun b => rest b b
  holds_warn := warned_warn

end Build

/-- A rejected call changes nothing that is compiled. Whatever was built before, a request that
fails leaves the values, the operations, the labels, the functions, the frames, the statics, the
constants and the entry as they were: at most it has added warnings. -/
theorem rejected_request_changes_nothing (call : ModuleCall) (b b' : BodyBuilder) (e : Fault) :
    ∀ request ∈ call.requests, outcome request b = (.error e, b') → b.Warned b' := by
  intro request listed failed
  have warned := Build.checking.holds_requests call request listed b e (congrArg Prod.fst failed)
  rwa [failed] at warned

/-- A body with a number that is too wide for the first parameter of the function, and a variable
without a value. -/
def BodyBuilder.twoVariables : BodyBuilder where
  context :=
    let valued (name : String) (initialized : Bool) : Value :=
      { ty := .i64, kind := .named { name, storage := .auto }, description := name, initialized }
    let pair : Declaration :=
      { name := "pair", signature := ⟨[.int 1 true, .i64], .void⟩, linkage := .internal,
        loc := .builtin, frame := none, start := ⟨0⟩, epilogue := ⟨1⟩ }
    { Module.start {} "pair.c" with
      values := .addAll .empty [valued "wide" true, valued "unset" false], functions := #[pair] }
  function := ⟨0⟩
  decl := default
  loc := ⟨"pair.c", 2⟩

/-- The call is warned of for its first argument and rejected for its second. -/
theorem rejected_call_adds_warning : let request := (BodyCall.call ⟨0⟩ [⟨0⟩, ⟨1⟩]).request
    let b := BodyBuilder.twoVariables
    (outcome request b).1 = .error (.failed (.rejected ⟨"pair.c", 2⟩ (.uninitialized "unset")))
    ∧ (outcome request b).2.context.diagnostics.warnings.length = 1
      ∧ b.Warned (outcome request b).2 := by
  intro request b
  have stopped : (outcome request b).1
      = .error (.failed (.rejected ⟨"pair.c", 2⟩ (.uninitialized "unset"))) := by rfl
  refine ⟨stopped, by rfl, ?_⟩
  exact rejected_request_changes_nothing
    (.define ⟨0⟩ [] 1 [.call ⟨0⟩ [⟨0⟩, ⟨1⟩]] false) b _ _ request
    (by simp [ModuleCall.requests, request]) (Prod.ext stopped rfl)

end RegisterBackend
