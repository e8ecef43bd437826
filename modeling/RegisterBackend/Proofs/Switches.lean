import RegisterBackend.Proofs.Construction

/-!
Construction does not look at the switches, except that warnings may be errors. `Build.Closure` is
the induction over the steps of building a body: a property that steps put together inherit, and
that a warning has, every call has.
-/
namespace RegisterBackend

open Gen (outcome outcome_bind)

variable {α β : Type} {e : Fault} {f : BodyBuilder → BodyBuilder}

def Module.varied (m : Module) (options : Options) (diagnostics : Diagnostics) : Module :=
  { m with options, diagnostics }

def Module.switched (m : Module) (options : Options) : Module := { m with options }

def BodyBuilder.varied (b : BodyBuilder) (options : Options) (diagnostics : Diagnostics) :
    BodyBuilder :=
  { b with context := b.context.varied options diagnostics }

def BodyBuilder.switched (b : BodyBuilder) (options : Options) : BodyBuilder :=
  { b with context := b.context.switched options }

namespace Module

/-- A step of the module that looks neither at the switches nor at the diagnostics, and hands both
on. It makes its checks before its changes. -/
structure Blind {α : Type} (action : Action α) : Prop where
  varied : ∀ m options diagnostics, outcome action (m.varied options diagnostics)
    = ((outcome action m).1, (outcome action m).2.varied options diagnostics)
  stopped : ∀ {m e}, (outcome action m).1 = .error e →
    e.isEscalated = false ∧ (outcome action m).2 = m

theorem Blind.switched {action : Action α} (blind : Blind action) (m : Module) (options : Options) :
    outcome action (m.switched options)
      = ((outcome action m).1, (outcome action m).2.switched options) := by
  have varied : outcome action (m.switched options) = _ := blind.varied m options m.diagnostics
  have kept : (outcome action m).2.diagnostics = m.diagnostics :=
    congrArg (·.2.diagnostics) (blind.varied m m.options m.diagnostics)
  rw [varied, ← kept]
  rfl

section
variable (m : Module) (function : FunctionId) (names : List String) (line : Nat)

theorem blind_declarationOf : Blind (declarationOf function) := by
  refine ⟨fun m options diagnostics => ?_, fun {m e} => ?_⟩
  · have known : (m.varied options diagnostics).function? function = m.function? function := rfl
    rw [outcome_declarationOf, outcome_declarationOf, known]
    split <;> rfl
  · rw [outcome_declarationOf]
    split <;> rintro ⟨⟩
    exact ⟨rfl, rfl⟩

theorem blind_addStatic (name : String) (ty : Ty) (loc : Location) :
    Blind (addStatic name ty loc) := by
  refine ⟨fun m options diagnostics => ?_, fun {m e} => ?_⟩
  · have statics : (m.varied options diagnostics).statics = m.statics := rfl
    rw [outcome_addStatic, outcome_addStatic, statics]
    split
    · rfl
    · split <;> rfl
  · rw [outcome_addStatic]
    split
    · rintro ⟨⟩
      exact ⟨rfl, rfl⟩
    · split <;> rintro ⟨⟩
      exact ⟨rfl, rfl⟩

theorem blind_declareStatic (name : String) (ty : Ty) : Blind (declareStatic name ty line) :=
  ⟨fun m => (blind_addStatic name ty (m.loc line)).varied m,
    fun {m} => (blind_addStatic name ty (m.loc line)).stopped⟩

theorem blind_addData (element : Ty) (bytes : List UInt8) (loc : Location) :
    Blind (addData element bytes loc) := by
  refine ⟨fun m options diagnostics => ?_, fun {m e} => ?_⟩
  · rw [outcome_addData, outcome_addData]
    split <;> rfl
  · rw [outcome_addData]
    split <;> rintro ⟨⟩
    exact ⟨rfl, rfl⟩

theorem blind_declare (name : String) (sig : Signature) (linkage : Linkage) :
    Blind (declare name sig linkage line) := by
  refine ⟨fun m options diagnostics => ?_, fun {m e} => ?_⟩
  · have problem : (m.varied options diagnostics).declarationProblem? name sig linkage
        = m.declarationProblem? name sig linkage := rfl
    rw [outcome_declare, outcome_declare, problem]
    split
    · rfl
    · rfl
    · cases linkage <;> rfl
  · rw [outcome_declare]
    split <;> rintro ⟨⟩ <;> exact ⟨rfl, rfl⟩

theorem blind_setEntry : Blind (setEntry function line) := by
  refine ⟨fun m options diagnostics => ?_, fun {m e} => ?_⟩
  · have known : (m.varied options diagnostics).function? function = m.function? function := rfl
    rw [outcome_setEntry, outcome_setEntry, known]
    split
    · rfl
    · split
      · rfl
      · split <;> rfl
  · rw [outcome_setEntry]
    split
    · rintro ⟨⟩
      exact ⟨rfl, rfl⟩
    · split
      · rintro ⟨⟩
        exact ⟨rfl, rfl⟩
      · split <;> rintro ⟨⟩
        exact ⟨rfl, rfl⟩

theorem define_varied (options : Options) (diagnostics : Diagnostics) :
    outcome (define function names line) (m.varied options diagnostics)
      = ((outcome (define function names line) m).1.map (·.varied options diagnostics),
        (outcome (define function names line) m).2.varied options diagnostics) := by
  have known : (m.varied options diagnostics).function? function = m.function? function := rfl
  rw [outcome_define, outcome_define, known]
  split
  · rfl
  · split
    · rfl
    · split
      · rfl
      · split <;> rfl

end

end Module

namespace Build
/-- A step of a body that looks neither at the switches nor at the diagnostics, and hands both on.
-/
structure Blind {α : Type} (x : Build α) : Prop where
  varied : ∀ b options diagnostics, outcome x (b.varied options diagnostics)
    = ((outcome x b).1, (outcome x b).2.varied options diagnostics)
  stopped : ∀ {b e}, (outcome x b).1 = .error e → e.isEscalated = false

theorem Blind.diagnostics {x : Build α} (blind : Blind x) (b : BodyBuilder) :
    (outcome x b).2.context.diagnostics = b.context.diagnostics :=
  congrArg (·.2.context.diagnostics) (blind.varied b b.context.options b.context.diagnostics)

theorem blind_pure (a : α) : Blind (pure a) := ⟨fun _ _ _ => rfl, by rintro _ _ ⟨⟩⟩

theorem blind_throw (other : e.isEscalated = false) : Blind (throw e : Build α) :=
  ⟨fun _ _ _ => rfl, by rintro _ _ ⟨⟩; exact other⟩

theorem blind_modify (commutes : ∀ b options diagnostics, f (b.varied options diagnostics)
      = (f b).varied options diagnostics) :
    Blind (modify f : Build Unit) :=
  ⟨fun b options diagnostics => Prod.ext rfl (commutes b options diagnostics), by rintro _ _ ⟨⟩⟩

theorem blind_inModule {action : Module.Action α} (blind : Module.Blind action) :
    Blind (inModule action) := by
  refine ⟨fun b options diagnostics => ?_, fun stopped => (blind.stopped stopped).1⟩
  have taken : outcome action (b.varied options diagnostics).context = _ :=
    blind.varied b.context options diagnostics
  rw [outcome_inModule, outcome_inModule, taken]
  rfl

theorem blind_finish : Blind finish := by
  refine ⟨fun b options diagnostics => ?_, fun {b e} stopped => ?_⟩
  · have used : (b.varied options diagnostics).used = b.used := rfl
    have placed : (b.varied options diagnostics).placed = b.placed := rfl
    rw [outcome_finish, outcome_finish, used, placed]
    split <;> rfl
  · rw [outcome_finish] at stopped
    split at stopped <;> cases stopped
    rfl

/-- How a step can end. One that `tries` may fail, but not after a change; if it `only` does that,
it changes nothing at all. -/
inductive Mode where
  | tries (only : Bool)
  | succeeds

/-- The step ends in its mode, where `R` says what counts as no change. -/
def Mode.Allows (R : BodyBuilder → BodyBuilder → Prop) {α : Type} (x : Build α) : Mode → Prop
  | .tries true => ∀ b, R b (outcome x b).2
  | .tries false => ∀ b e, (outcome x b).1 = .error e → R b (outcome x b).2
  | .succeeds => ∀ b e, (outcome x b).1 ≠ .error e

/-- A property of steps that is inherited by steps put together. It may depend on the mode: checks
come first, and changes after them. -/
structure Closure where
  holds : {α : Type} → Mode → Build α → Prop
  holds_blind {α : Type} {mode : Mode} {x : Build α} : Blind x → mode.Allows Eq x → holds mode x
  holds_bind {α β : Type} {only : Bool} {x : Build α} {f : α → Build β} :
    holds (.tries true) x → (∀ a, holds (.tries only) (f a)) → holds (.tries only) (x >>= f)
  holds_then {α β : Type} {x : Build α} {f : α → Build β} :
    holds .succeeds x → (∀ a, holds .succeeds (f a)) → holds .succeeds (x >>= f)
  holds_map {α β : Type} {only : Bool} {f : α → β} {x : Build α} :
    holds (.tries only) x → holds (.tries only) (f <$> x)
  holds_tries {α : Type} {x : Build α} : holds .succeeds x → holds (.tries false) x
  /-- The builder is looked at, but neither its switches nor its diagnostics. -/
  holds_get {β : Type} {mode : Mode} {f : BodyBuilder → Build β} :
    (∀ b options diagnostics, f (b.varied options diagnostics) = f b) → (∀ b, holds mode (f b)) →
      holds mode (get >>= f)
  holds_warn (loc : Location) (cause : Caution) :
    holds (.tries true) (inModule (Module.warn loc cause))

/-- A property that does not depend on the mode. -/
structure Closure.Uniform where
  holds : {α : Type} → Build α → Prop
  holds_blind {α : Type} {x : Build α} : Blind x → holds x
  holds_bind {α β : Type} {x : Build α} {f : α → Build β} : holds x →
    (∀ a, holds (f a)) → holds (x >>= f)
  holds_get {β : Type} {f : BodyBuilder → Build β} :
    (∀ b options diagnostics, f (b.varied options diagnostics) = f b) →
      (∀ b, holds (f b)) → holds (get >>= f)
  holds_warn (loc : Location) (cause : Caution) : holds (inModule (Module.warn loc cause))

def Closure.Uniform.closure (U : Uniform) : Closure where
  holds _ := U.holds
  holds_blind blind _ := U.holds_blind blind
  holds_bind := U.holds_bind
  holds_then := U.holds_bind
  holds_map step := U.holds_bind step fun _ => U.holds_blind (blind_pure _)
  holds_tries := id
  holds_get := U.holds_get
  holds_warn := U.holds_warn

namespace Closure
variable (C : Closure) {only : Bool} {mode : Mode} {add : Build ValueId}

theorem holds_pure (a : α) : C.holds mode (pure a) := by
  refine C.holds_blind (blind_pure a) ?_
  obtain (_ | _) | _ := mode
  · exact fun _ _ _ => rfl
  · exact fun _ => rfl
  · rintro _ _ ⟨⟩

theorem holds_throw (other : e.isEscalated = false) :
    C.holds (.tries only) (throw e : Build α) := by
  refine C.holds_blind (blind_throw other) ?_
  cases only
  · exact fun _ _ _ => rfl
  · exact fun _ => rfl

theorem holds_modify (commutes : ∀ b options diagnostics, f (b.varied options diagnostics)
      = (f b).varied options diagnostics) :
    C.holds .succeeds (modify f : Build Unit) :=
  C.holds_blind (blind_modify commutes) (by rintro _ _ ⟨⟩)

theorem holds_inModule {action : Module.Action α} (blind : Module.Blind action) :
    C.holds (.tries false) (inModule action) :=
  C.holds_blind (blind_inModule blind) fun b e stopped => by
    rw [outcome_inModule, (blind.stopped stopped).2]

theorem holds_change {action : Module.Action α} (blind : Module.Blind action)
    (changes : ∀ m e, (outcome action m).1 ≠ .error e) : C.holds .succeeds (inModule action) :=
  C.holds_blind (blind_inModule blind) fun b => changes b.context

theorem holds_reject (cause : Rejection) : C.holds (.tries only) (reject cause : Build α) :=
  C.holds_get (fun _ _ _ => rfl) fun _ => C.holds_throw rfl

theorem holds_after {x : Build PUnit} {a : α} (step : C.holds (.tries only) x) :
    C.holds (.tries only) (do x; return a) := C.holds_map (f := fun _ => a) step

theorem holds_ite {p : Prop} [Decidable p] {x y : Build α} (yes : C.holds mode x)
    (no : C.holds mode y) : C.holds mode (if p then x else y) := by
  split
  · exact yes
  · exact no

theorem holds_unless {p : Prop} [Decidable p] {cause : Rejection} {x : Build α}
    (rest : C.holds (.tries only) x) : C.holds (.tries only) (do
      if p then reject cause
      x) := C.holds_ite (C.holds_bind (C.holds_reject _) fun _ => rest) rest

theorem holds_check (e : Except Rejection α) : C.holds (.tries only) (check e) := by
  cases e with
  | error cause => exact C.holds_reject _
  | ok a => exact C.holds_pure a

theorem holds_addValue (add : ValueStore → ValueId × ValueStore) :
    C.holds .succeeds (addValue add) :=
  C.holds_change ⟨fun _ _ _ => rfl, by rintro _ _ ⟨⟩⟩ (by rintro _ _ ⟨⟩)

theorem holds_temporary (ty : Ty) (description : String) :
    C.holds .succeeds (temporary ty description) :=
  C.holds_addValue _

theorem holds_updateValue (v : ValueId) (f : Value → Value) : C.holds .succeeds (updateValue v f) :=
  C.holds_change ⟨fun _ _ _ => rfl, by rintro _ _ ⟨⟩⟩ (by rintro _ _ ⟨⟩)

theorem holds_pushed (operation : Operation) : C.holds .succeeds (push operation) :=
  C.holds_modify fun _ _ _ => rfl

theorem holds_push (operation : Operation) : C.holds (.tries false) (push operation) :=
  C.holds_tries (C.holds_pushed operation)

theorem holds_valueOf (v : ValueId) : C.holds (.tries only) (valueOf v) := by
  refine C.holds_get (fun _ _ _ => rfl) fun b => ?_
  cases b.context.values.get? v with
  | none => exact C.holds_throw rfl
  | some value => exact C.holds_pure _

theorem holds_read (v : ValueId) : C.holds (.tries only) (read v) :=
  C.holds_bind (C.holds_valueOf v) fun _ => C.holds_unless (C.holds_pure _)

theorem holds_checkUse (value : Value) (source target : Ty) (usage : Usage) :
    C.holds (.tries true) (checkUse value source target usage) := by
  unfold checkUse
  split
  · exact C.holds_pure _
  · exact C.holds_get (fun _ _ _ => rfl) fun b => C.holds_warn _ _

theorem holds_declarationOf (function : FunctionId) :
    C.holds (.tries only) (declarationOf function) := by
  have same (b : BodyBuilder) : b = (outcome (declarationOf function) b).2 := by
    rw [declarationOf, outcome_inModule, Module.outcome_declarationOf]
    split <;> rfl
  refine C.holds_blind (blind_inModule (Module.blind_declarationOf function)) ?_
  cases only
  · exact fun b _ _ => same b
  · exact same

theorem holds_resultType (op : BinaryOp) (left right : Value) :
    C.holds (.tries only) (resultType op left right) :=
  C.holds_bind (C.holds_check _) fun _ =>
    C.holds_ite (C.holds_bind (C.holds_throw rfl) fun _ => C.holds_pure _) (C.holds_pure _)

theorem holds_making (operation : ValueId → Operation) {f : ValueId → β}
    (made : C.holds .succeeds add) : C.holds .succeeds
    (add >>= fun result => push (operation result) >>= fun _ => pure (f result)) :=
  C.holds_then made fun _ => C.holds_then (C.holds_pushed _) fun _ => C.holds_pure _

theorem holds_make (operation : ValueId → Operation) {f : ValueId → β}
    (made : C.holds .succeeds add) : C.holds (.tries false)
    (add >>= fun result => push (operation result) >>= fun _ => pure (f result)) :=
  C.holds_tries (C.holds_making operation made)

theorem holds_checkArguments (callee : String) (number : Nat) (args : List (ValueId × Ty)) :
    C.holds (.tries true) (checkArguments callee number args) := by
  induction args generalizing number with
  | nil => exact C.holds_pure _
  | cons argument rest ih =>
    exact C.holds_bind (C.holds_read _) fun _ => C.holds_unless <|
      C.holds_bind (C.holds_checkUse _ _ _ _) fun _ => ih _

theorem holds_pushCall (callee : Callee) (name description : String) (sig : Signature)
    (args : List ValueId) : C.holds (.tries false) (pushCall callee name description sig args) :=
  C.holds_unless <| C.holds_bind (C.holds_checkArguments _ _ _) fun _ =>
    C.holds_ite (C.holds_make (fun v => .call callee args (some v)) (C.holds_temporary _ _))
      (C.holds_map (C.holds_push _))

theorem holds_member (ptr : ValueId) (field : String) :
    C.holds (.tries false) (member ptr field) := by
  refine C.holds_bind (C.holds_read ptr) fun _ => ?_
  dsimp only
  split
  · exact C.holds_reject _
  · split
    · exact C.holds_reject _
    · exact C.holds_make _ (C.holds_temporary _ _)

theorem holds_ret (v : Option ValueId) : C.holds (.tries false) (ret v) := by
  refine C.holds_get (fun _ _ _ => rfl) fun b => ?_
  cases v with
  | none => exact C.holds_unless (C.holds_push _)
  | some v =>
    exact C.holds_unless <| C.holds_bind (C.holds_read _) fun _ => C.holds_unless <|
      C.holds_bind (C.holds_checkUse _ _ _ _) fun _ => C.holds_push _

theorem holds_request (call : BodyCall) : C.holds (.tries false) call.request := by
  cases call with
  | setLine line => exact C.holds_after (C.holds_tries (C.holds_modify fun _ _ _ => rfl))
  | param index =>
    refine C.holds_map (C.holds_get (fun _ _ _ => rfl) fun b => ?_)
    split
    · exact C.holds_pure _
    · exact C.holds_reject _
  | constant ty bits | floatConstant ty bits | newVariable ty name =>
    exact C.holds_map (C.holds_unless (C.holds_tries (C.holds_addValue _)))
  | staticVariable ty name =>
    exact C.holds_map <| C.holds_get (fun _ _ _ => rfl) fun _ =>
      C.holds_inModule (Module.blind_addStatic _ _ _)
  | data element bytes =>
    exact C.holds_map <| C.holds_get (fun _ _ _ => rfl) fun _ =>
      C.holds_inModule (Module.blind_addData _ _ _)
  | binary op lhs rhs =>
    exact C.holds_map <| C.holds_bind (C.holds_read _) fun _ =>
      C.holds_bind (C.holds_read _) fun _ =>
      C.holds_bind (C.holds_resultType _ _ _) fun _ =>
        C.holds_make (fun v => .binary op _ _ v false) (C.holds_temporary _ _)
  | update op target rhs =>
    refine C.holds_after
      (C.holds_bind (C.holds_read target) fun old => C.holds_bind (C.holds_read rhs) fun _ => ?_)
    cases old.named? with
    | none => exact C.holds_reject _
    | some named =>
      exact C.holds_unless <| C.holds_unless <| C.holds_bind (C.holds_resultType _ _ _) fun _ =>
        C.holds_bind (C.holds_checkUse _ _ _ _) fun _ => C.holds_push _
  | compare op lhs rhs =>
    exact C.holds_map <| C.holds_bind (C.holds_read _) fun _ =>
      C.holds_bind (C.holds_read _) fun _ =>
      C.holds_unless <| C.holds_bind (C.holds_checkUse _ _ _ _) fun _ =>
        C.holds_make (fun v => .compare op _ _ v) (C.holds_temporary _ _)
  | unary op operand =>
    exact C.holds_map <| C.holds_bind (C.holds_read _) fun _ =>
      C.holds_bind (C.holds_check _) fun _ =>
      C.holds_make (fun v => .unary op _ v) (C.holds_temporary _ _)
  | convert value ty =>
    exact C.holds_map <| C.holds_bind (C.holds_read _) fun _ => C.holds_unless <|
      C.holds_make (fun v => .convert _ v) (C.holds_temporary _ _)
  | assign target value =>
    refine C.holds_after (C.holds_bind (C.holds_valueOf target) fun old =>
      C.holds_bind (C.holds_read value) fun _ => ?_)
    cases old.named? with
    | none => exact C.holds_reject _
    | some named =>
      exact C.holds_unless <| C.holds_unless <| C.holds_bind (C.holds_checkUse _ _ _ _) fun _ =>
        C.holds_tries (C.holds_then (C.holds_pushed _) fun _ => C.holds_updateValue _ _)
  | call function args =>
    exact C.holds_map (C.holds_bind (C.holds_declarationOf _) fun _ => C.holds_pushCall _ _ _ _ _)
  | callIndirect ptr args =>
    refine C.holds_map (C.holds_bind (C.holds_read ptr) fun target => ?_)
    refine C.holds_ite (C.holds_bind (C.holds_throw rfl) fun _ => ?_) ?_
    all_goals
      split
      · exact C.holds_pushCall _ _ _ _ _
      · exact C.holds_reject _
  | addressOf value =>
    exact C.holds_map <| C.holds_bind (C.holds_valueOf _) fun _ =>
      C.holds_unless <| C.holds_unless <|
      C.holds_tries <| C.holds_then (C.holds_updateValue _ _) fun _ =>
        C.holds_making (fun v => .addressOf _ v) (C.holds_addValue _)
  | dereference ptr =>
    refine C.holds_map (C.holds_bind (C.holds_read ptr) fun target => ?_)
    dsimp only
    cases accessible? target.ty with
    | none => exact C.holds_reject _
    | some pointee =>
      exact C.holds_make (fun v => .dereference _ v) (C.holds_temporary _ _)
  | store ptr value =>
    refine C.holds_after (C.holds_bind (C.holds_read ptr) fun target =>
      C.holds_bind (C.holds_read value) fun _ => ?_)
    dsimp only
    cases accessible? target.ty with
    | none => exact C.holds_reject _
    | some pointee =>
      exact C.holds_unless <| C.holds_unless <| C.holds_bind (C.holds_checkUse _ _ _ _)
        fun _ => C.holds_push _
  | member ptr field => exact C.holds_map (C.holds_member _ _)
  | functionAddress function =>
    exact C.holds_map <| C.holds_bind (C.holds_declarationOf _) fun _ => C.holds_unless <|
      C.holds_make (fun v => .functionAddress _ v) (C.holds_temporary _ _)
  | newLabel => exact C.holds_map (C.holds_inModule ⟨fun _ _ _ => rfl, by rintro _ _ ⟨⟩⟩)
  | placeLabel label =>
    exact C.holds_after <| C.holds_get (fun _ _ _ => rfl) fun _ => C.holds_unless <|
      C.holds_tries <| C.holds_then (C.holds_modify fun _ _ _ => rfl) fun _ => C.holds_pushed _
  | jump label =>
    exact C.holds_after <| C.holds_tries <| C.holds_then (C.holds_modify fun _ _ _ => rfl)
      fun _ => C.holds_pushed _
  | branch cond target jumpIf spillAll =>
    exact C.holds_after <| C.holds_bind (C.holds_read _) fun _ => C.holds_unless <|
      C.holds_tries <| C.holds_then (C.holds_modify fun _ _ _ => rfl) fun _ => C.holds_pushed _
  | ret value => exact C.holds_after (C.holds_ret _)
  | comment text => exact C.holds_after (C.holds_push _)

end Closure

def switching : Closure.Uniform where
  holds x := ∀ b options, outcome x (b.switched options)
    = ((outcome x b).1, (outcome x b).2.switched options)
  holds_blind blind b options := by
    have varied : outcome _ (b.switched options) = _ := blind.varied b options b.context.diagnostics
    rw [varied, ← blind.diagnostics b]
    rfl
  holds_bind {α β x f} first rest b options := by
    rw [outcome_bind, outcome_bind, first]
    rcases outcome x b with ⟨_ | a, b1⟩
    · rfl
    · exact rest a b1 options
  holds_get {β f} agrees rest b options := by
    have same : f (b.switched options) = f b := agrees b options b.context.diagnostics
    change outcome (f (b.switched options)) (b.switched options) = _
    rw [same]
    exact rest b b options
  holds_warn loc cause b options := by
    have same : (b.switched options).context.diagnostics = b.context.diagnostics := rfl
    rw [outcome_inModule, outcome_inModule, Module.outcome_warn, Module.outcome_warn, same]
    cases b.context.diagnostics.warn loc cause <;> rfl

end Build

theorem BodyBuilder.perform_switched (b : BodyBuilder) (options : Options) (calls : List BodyCall) :
    (b.switched options).perform calls = (b.perform calls).switched options := by
  induction calls generalizing b with
  | nil => rfl
  | cons call rest ih =>
    change BodyBuilder.perform (outcome call.request (b.switched options)).2 rest = _
    rw [Build.switching.closure.holds_request call b options]
    exact ih _

namespace Module
variable (m : Module) (options : Options)

theorem perform_switched (call : ModuleCall) :
    (m.switched options).perform call = (m.perform call).switched options := by
  cases call with
  | declare name sig linkage line =>
    simp only [perform, (blind_declare line name sig linkage).switched]
  | declareStatic name ty line => simp only [perform, (blind_declareStatic line name ty).switched]
  | setEntry function line => simp only [perform, (blind_setEntry function line).switched]
  | define function names line body completed =>
    have opened : outcome (define function names line) (m.switched options) = _ :=
      define_varied m function names line options m.diagnostics
    simp only [perform, opened]
    rcases is_open : outcome (define function names line) m with ⟨e | b, m'⟩
    · rw [(define_error is_open).1]
      rfl
    · have kept : b.varied options m.diagnostics = b.switched options := by
        obtain ⟨_, _, _, _, _, _, rfl⟩ := define_ok is_open
        rfl
      simp only [Except.map, kept, b.perform_switched]
      cases completed with
      | false => rfl
      | true =>
        simp only [↓reduceIte, Build.switching.holds_blind Build.blind_finish
          (b.perform body) options]
        rfl

theorem build_switched (options' : Options) (file : String) (calls : List ModuleCall)
    (escalates : options'.escalateWarnings = options.escalateWarnings) :
    build options' file calls = (build options file calls).switched options' := by
  have started : start options' file = (start options file).switched options' := by
    simp [start, switched, escalates]
  have performed (m : Module) : calls.foldl perform (m.switched options')
      = (calls.foldl perform m).switched options' := by
    induction calls generalizing m with
    | nil => rfl
    | cons call rest ih =>
      rw [List.foldl_cons, perform_switched, ih]
      rfl
  rw [build, started, performed]
  rfl

theorem options_build (file : String) (calls : List ModuleCall) :
    (build options file calls).options = options := by
  rw [build_switched options options file calls rfl]
  rfl

end Module

end RegisterBackend
