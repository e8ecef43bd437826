import RegisterBackend.Proofs.Correspondence
import RegisterBackend.Proofs.Inventory
import RegisterBackend.Proofs.Switches

/-!
The check of the bookkeeping never fails. What a module owns when it is built is a plan that
lowering follows, so the context after each operation is tidy.
-/
namespace RegisterBackend

open Gen Discipline List

variable {c c' : Context} {decl : Declaration} {f : Options → Options}
  {functions : Array Declaration} {m : Module} {u : Unit} {wide : ValueId → Prop}
  {body items : List BodyItem} {rest decls : List Declaration} {home : Position} {isLast : Bool}
  {item : BodyItem} {operation : Operation} {range : Nat × Nat} {v : ValueId}

theorem Operation.result?_of_slotResult? (is_result : operation.slotResult? = some v) :
    operation.result? = some v := by
  cases operation with
  | call callee args result => exact is_result
  | dereference ptr result => exact is_result
  | _ => cases is_result

theorem Operation.mem_results {operations : List Operation} :
    v ∈ results operations ↔ ∃ operation ∈ operations, operation.result? = some v :=
  mem_filterMap

def Plan.pending (wide : ValueId → Prop) (operations : List Operation) : Plan where
  slot := none
  waiting v := v ∈ Operation.results operations
  wide

/-- The operations make distinct values, and no variables. -/
structure Operation.Fresh (wide : ValueId → Prop) (operations : List Operation) : Prop where
  distinct : (results operations).Nodup
  narrow : ∀ v ∈ results operations, ¬wide v

theorem Operation.Fresh.later {first later : List Operation} (fresh : Fresh wide (first ++ later)) :
    Fresh wide later where
  distinct := by
    have distinct := fresh.distinct
    rw [results, filterMap_append] at distinct
    exact distinct.of_append_right
  narrow v member := by
    refine fresh.narrow v ?_
    rw [results, filterMap_append]
    exact mem_append_right _ member

theorem Operation.Fresh.tail {later : List Operation} (fresh : Fresh wide (operation :: later)) :
    Fresh wide later :=
  .later (show Fresh wide ([operation] ++ later) from fresh)

section
variable {d : Context}

namespace Context.Follows

theorem later {first later : List Operation}
    (follows : c.Follows (.pending wide (first ++ later))) : c.Follows (.pending wide later) :=
  { follows with
    kept := nofun
    waits := fun {v value} waiting found => by
      refine follows.waits (?_ : v ∈ Operation.results (first ++ later)) found
      rw [Operation.results, filterMap_append]
      exact mem_append_right _ waiting }

theorem of_shares {plan : Plan} (follows : c.Follows plan) (shares : c.Shares d) :
    d.Follows plan := by
  obtain ⟨values, registers, frames, statics, constants, _, _⟩ := shares
  have extent : d.extent = c.extent := by
    funext area
    cases area <;> simp [Context.extent, frames, statics, constants]
  have grants {place : Position} : d.Grants place
      ↔ c.Grants place := by simp [Context.Grants, extent]
  constructor
  case toTidy =>
    refine ⟨⟨⟨?_, ?_⟩, ?_⟩, ⟨?_, ?_⟩⟩
    · rw [values, registers]
      exact follows.owned
    · rw [values]
      exact follows.settled
    · rw [values, registers]
      exact follows.seated
    · rw [values]
      exact fun found claim => grants.mpr (follows.granted found claim)
    · rw [values]
      exact follows.distinct
  case kept =>
    rw [values]
    exact fun is_kept => ⟨grants.mpr (follows.kept is_kept).1, (follows.kept is_kept).2⟩
  case waits =>
    rw [values]
    exact follows.waits
  case wide_iff =>
    rw [values]
    exact follows.wide_iff

end Context.Follows

theorem follows_lowerUnchecked {later : List Operation}
    (fresh : Operation.Fresh wide (item.operation :: later))
    (follows : c.Follows (.pending wide (item.operation :: later))) (run : Runs
      (lowerUnchecked functions decl item isLast) c u c') : c'.Follows (.pending wide later) := by
  have made {v : ValueId} (is_result : item.operation.result? = some v) :
      v ∈ Operation.results (item.operation :: later) :=
    Operation.mem_results.mpr ⟨_, mem_cons_self .., is_result⟩
  have before : c.Follows (.pending wide later) :=
    .later (show c.Follows (.pending wide ([item.operation] ++ later)) from follows)
  refine (walks_lowerUnchecked (.tidy rfl) (fun {v} is_result => ⟨?_, ?_⟩) ?_ _ _ before run).1
  · intro again
    have distinct := fresh.distinct
    rw [Operation.results, filterMap_cons_some is_result, nodup_cons] at distinct
    exact distinct.1 again
  · exact fresh.narrow v (made is_result)
  · exact fun is_result found =>
      follows.waits (made (Operation.result?_of_slotResult? is_result)) found

theorem follows_lowerBody {later : List Operation}
    (fresh : Operation.Fresh wide (items.map BodyItem.operation ++ later))
    (follows : c.Follows (.pending wide (items.map BodyItem.operation ++ later)))
    (run : Runs (lowerBody functions decl items) c u c') : c'.Follows (.pending wide later) := by
  induction items generalizing c with
  | nil =>
    obtain ⟨_, rfl⟩ := runs_pure.mp run
    exact follows
  | cons item rest ih =>
    simp only [lowerBody, runs_bind] at run
    obtain ⟨_, c1, lowered, run⟩ := run
    exact ih fresh.tail
      (follows_lowerUnchecked fresh follows (runs_lowerUnchecked lowered)) run

end

def Gen.Empties {α : Type} (x : Gen α) : Prop := ∀ ⦃c a c'⦄, Runs x c a c' → c'.Vacant

section
variable {α β : Type} {x block : Gen α}

theorem empties_bind {f : α → Gen β} (last : ∀ a, Empties (f a)) : Empties (x >>= f) := by
  intro c b c' run
  obtain ⟨a, c1, _, rest⟩ := runs_bind.mp run
  exact last a rest

theorem empties_ite {p : Prop} [Decidable p] {y : Gen α} (yes : Empties x) (no : Empties y) :
    Empties (if p then x else y) := by
  split
  · exact yes
  · exact no

theorem empties_holding {r : Register} (inner : Empties block) : Empties (holding r block) := by
  intro c a c' run
  obtain ⟨c1, ran, rfl⟩ := runs_holding.mp run
  exact fun q => by simpa [Context.withLock] using inner ran q

theorem empties_holdingRegisterOf (inner : Empties block) :
    Empties (holdingRegisterOf v block) := by
  refine empties_bind fun value => ?_
  cases value.register? with
  | none => exact inner
  | some r => exact empties_holding inner

theorem empties_dropAll (strict : Bool) : Empties (dropAll strict) :=
  fun _ _ _ run => occupant?_of_dropAll run

theorem empties_retireRegisters : Empties retireRegisters :=
  empties_bind fun _ => empties_bind fun _ => empties_dropAll false

theorem empties_then {f : α → Gen β} (first : Empties x)
    (rest : ∀ {a c b c'}, Runs (f a) c b c' → c.Vacant → c'.Vacant) : Empties (x >>= f) := by
  intro c b c' run
  obtain ⟨a, c1, ran, more⟩ := runs_bind.mp run
  exact rest more (first ran)

theorem empties_returnInRegister (v : ValueId) (r : Register) (ty : Ty) :
    Empties (returnInRegister v r ty) := by
  have returned : Empties (holding r do
      holdingRegisterOf v do
        copyConverted v (.register r) ty
        discard (consume v)
        retireRegisters) :=
    empties_holding <| empties_holdingRegisterOf <| empties_bind fun _ => empties_bind fun _ =>
      empties_retireRegisters
  exact empties_bind fun _ => empties_ite (empties_bind fun _ => returned) returned

theorem empties_returnInMemory (decl : Declaration) (v : ValueId) :
    Empties (returnInMemory decl v) := by
  unfold returnInMemory
  cases decl.returnPointer with
  | none => exact fun _ _ _ run => (runs_inconsistent.mp run).elim
  | some ptr =>
    exact empties_bind fun _ => empties_bind fun _ => empties_bind fun _ => empties_holding <|
      empties_bind fun _ => empties_holding <| empties_bind fun _ => empties_bind fun _ =>
        empties_retireRegisters

theorem empties_lowerReturn (decl : Declaration) (value : Option ValueId) (isLast : Bool) :
    Empties (lowerReturn decl value isLast) := by
  have ended {c : Context} {u : Unit} {c' : Context}
      (run : Runs (do if !isLast then emit (.jump decl.epilogue)) c u c') (vacant : c.Vacant) :
      c'.Vacant := by
    obtain ⟨_, run⟩ | ⟨_, run⟩ := runs_ite.mp run
    · rw [runs_emit.mp run]
      exact vacant
    · rw [(runs_pure.mp run).2]
      exact vacant
  unfold lowerReturn
  cases value with
  | none => exact empties_then empties_retireRegisters ended
  | some v =>
    cases decl.layout.result with
    | register r => exact empties_then (empties_returnInRegister _ _ _) ended
    | memory => exact empties_then (empties_returnInMemory _ _) ended
    | void => exact empties_then (fun _ _ _ run => (runs_inconsistent.mp run).elim) ended

theorem empties_lowerUnchecked (returns : item.operation.isReturn = true) (isLast : Bool) :
    Empties (lowerUnchecked functions decl item isLast) := by
  have lowered : Empties (do
      setLocation item.loc
      lowerOperation functions decl isLast item.operation
      record (·.addOperation item.operation.kind)
      releaseEscaped) := by
    refine empties_bind fun _ => empties_then ?_ fun run vacant => ?_
    · cases is_return : item.operation with
      | ret value => exact empties_lowerReturn _ _ _
      | _ => simp [is_return, Operation.isReturn] at returns
    · simp only [runs_bind, runs_record] at run
      obtain ⟨_, _, rfl, released⟩ := run
      rw [releaseEscaped_of_empty (by exact vacant) released]
      exact vacant
  exact empties_ite (empties_bind fun _ => lowered) lowered

theorem empties_lowerBody (returns : endsWithReturn body = true) :
    Empties (lowerBody functions decl body) := by
  induction body with
  | nil => cases returns
  | cons item rest ih =>
    cases rest with
    | nil =>
      refine empties_then (fun _ _ _ run => ?_) fun run vacant => ?_
      · exact empties_lowerUnchecked (by simpa [endsWithReturn] using returns)
          _ (runs_lowerUnchecked run)
      · rw [(runs_pure.mp run).2]
        exact vacant
    | cons next rest => exact empties_bind fun _ => ih (by simpa [endsWithReturn] using returns)

end

/-- The operations of a list of functions make distinct values, and no variables; parameters that
come in registers are variables that fit there. -/
structure Declaration.Workable (wide : ValueId → Prop) (decls : List Declaration) : Prop where
  fresh : Operation.Fresh wide (decls.flatMap operations)
  params : ∀ decl ∈ decls, ∀ {v r}, (v, .register r) ∈ decl.params.zip decl.layout.arguments →
    v ∉ Operation.results (decls.flatMap operations) ∧ ¬wide v

structure Context.Awaits (c : Context) (wide : ValueId → Prop) (decls : List Declaration) :
    Prop where
  follows : c.Follows (.pending wide (decls.flatMap Declaration.operations))
  vacant : c.Vacant

section
variable {frame : FrameId}

theorem Declaration.Workable.tail (workable : Workable wide (decl :: rest)) :
    Workable wide rest where
  fresh := by
    have fresh := workable.fresh
    rw [flatMap_cons] at fresh
    exact fresh.later
  params other member v r passed := by
    obtain ⟨unmade, narrow⟩ := workable.params other (mem_cons_of_mem _ member) passed
    refine ⟨fun made => unmade ?_, narrow⟩
    rw [flatMap_cons, Operation.results, filterMap_append]
    exact mem_append_right _ made

theorem Context.Awaits.tail (awaits : c.Awaits wide (decl :: rest)) : c.Awaits wide rest where
  follows := by
    have follows := awaits.follows
    rw [flatMap_cons] at follows
    exact follows.later
  vacant := awaits.vacant

theorem outcome_lowerFunction_cases (is_frame : decl.frame = some frame)
    (is_body : decl.body = some body) (c : Context) : outcome (lowerFunction functions decl) c
      = match c.registers.allOccupied with
        | (r, v) :: _ => (.error (.failed (.inconsistent (.occupiedAtStart r v decl.name))), c)
        | [] => outcome (lowerParts functions decl frame body) c := by
  rw [lowerFunction, is_frame, is_body]
  dsimp only
  rw [outcome_get]
  cases c.registers.allOccupied <;> rfl

theorem outcome_lowerFunction (is_frame : decl.frame = some frame) (is_body : decl.body = some body)
    (vacant : c.Vacant) : outcome (lowerFunction functions decl) c = outcome
    (lowerParts functions decl frame body) c := by
  rw [outcome_lowerFunction_cases is_frame is_body, vacant.allOccupied]

theorem runs_lowerFunction_parts (run : Runs (lowerFunction functions decl) c range c') :
    ∃ frame body, decl.frame = some frame
      ∧ decl.body = some body ∧ Runs (lowerParts functions decl frame body) c range c' := by
  cases is_frame : decl.frame with
  | none => simp [lowerFunction, is_frame] at run
  | some frame =>
    cases is_body : decl.body with
    | none => simp [lowerFunction, is_frame, is_body] at run
    | some body =>
      refine ⟨frame, body, rfl, rfl, ?_⟩
      rw [Runs, outcome_lowerFunction_cases is_frame is_body] at run
      split at run
      · cases run
      · exact run

theorem runs_lowerFunction_steps (run : Runs (lowerFunction functions decl) c range c') :
    ∃ frame body c1 c2 c3 c4, decl.frame = some frame ∧ decl.body = some body
      ∧ Runs (lowerPrologue decl frame) { c with currentFrame := some frame } () c1
      ∧ Runs (lowerBody functions decl body) c1 () c2
      ∧ Runs (if !endsWithReturn body then retireRegisters else pure ()) c2 () c3
      ∧ Runs (lowerEpilogue decl frame) c3 () c4
      ∧ c' = { c4 with
          currentFrame := none
          statistics := c4.statistics.addFunction decl.name (c4.code.size - c.code.size) } := by
  obtain ⟨frame, body, is_frame, is_body, run⟩ := runs_lowerFunction_parts run
  simp only [lowerParts, lowerTail, instructionCount, enterFrame, runs_bind, runs_get,
    runs_pure, runs_modify, and_assoc, exists_and_left, exists_eq_left] at run
  obtain ⟨_, _, c1, entered, _, c2, lowered, run⟩ := run
  rw [runs_ite_then] at run
  obtain ⟨_, c3, retired, run⟩ := run
  simp only [runs_bind, runs_get, runs_pure, runs_record, leaveFrame, runs_modify, and_assoc,
    exists_and_left, exists_eq_left] at run
  obtain ⟨_, c4, left, _, _, _, rfl⟩ := run
  exact ⟨frame, body, c1, c2, c3, c4, is_frame, is_body, entered, lowered, retired, left, rfl⟩

theorem follows_lowerPrologue (workable : Declaration.Workable wide (decl :: rest))
    (awaits : c.Awaits wide (decl :: rest))
    (run : Runs (lowerPrologue decl frame) { c with currentFrame := some frame } u c') :
    c'.Follows (.pending wide (decl.operations ++ rest.flatMap Declaration.operations)) := by
  have entered : ({ c with currentFrame := some frame } : Context).Follows
      (.pending wide ((decl :: rest).flatMap Declaration.operations)) :=
    awaits.follows.aside ⟨rfl, fun _ => rfl, fun _ => rfl, fun _ => le_rfl, rfl⟩
  rw [flatMap_cons] at entered
  refine (walks_lowerPrologue (D := .tidy _) (fun passed => ?_) _ _ entered run).1
  have admitted := workable.params decl (mem_cons_self ..) passed
  rwa [flatMap_cons] at admitted

theorem operations_of_body (is_body : decl.body = some body) :
    decl.operations = body.map BodyItem.operation := by
  simp [Declaration.operations, is_body]

theorem awaits_lowerFunction (workable : Declaration.Workable wide (decl :: rest))
    (awaits : c.Awaits wide (decl :: rest)) (run : Runs (lowerFunction functions decl) c range c') :
    c'.Awaits wide rest := by
  obtain ⟨frame, body, c1, c2, c3, c4, is_frame, is_body, entered, lowered, retired, left, rfl⟩ :=
    runs_lowerFunction_steps run
  have follows1 := follows_lowerPrologue workable awaits entered
  have fresh := workable.fresh
  rw [flatMap_cons] at fresh
  rw [operations_of_body is_body] at fresh follows1
  have follows2 := follows_lowerBody fresh follows1 lowered
  obtain ⟨follows3, vacant3⟩ : c3.Follows (.pending wide (rest.flatMap Declaration.operations))
      ∧ c3.Vacant := by
    obtain ⟨_, retired⟩ | ⟨returns, kept⟩ := runs_ite.mp retired
    · exact ⟨(walks_retireRegisters (D := .tidy _) _ _ follows2 retired).1,
        empties_retireRegisters retired⟩
    · rw [(runs_pure.mp kept).2]
      exact ⟨follows2, empties_lowerBody (by simpa using returns) lowered⟩
  have follows4 := (walks_lowerEpilogue (D := .tidy _) decl frame _ _ follows3 left).1
  refine ⟨follows4.aside ⟨rfl, fun _ => rfl, fun _ => rfl, fun _ => le_rfl, rfl⟩, ?_⟩
  simp only [lowerEpilogue, runs_bind, runs_emit] at left
  obtain ⟨_, _, rfl, _, _, rfl, rfl⟩ := left
  exact vacant3

end

namespace Module

def Wide (m : Module) (v : ValueId) : Prop :=
  ∃ value, m.values.get? v = some value ∧ value.isNamed = true ∧ value.ty.fitsRegister = false

theorem Vetted.owned (vetted : m.Vetted) : m.context.Owned := by
  have ashore {v : ValueId} {value : Value} {place : Position}
      (found : m.values.get? v = some value)
      (is_home : value.home? = some place) : place.isRegister = false := by
    have housed := (vetted.values found).housed is_home
    cases place with
    | register r => exact housed.elim
    | _ => rfl
  refine ⟨fun found pos => ?_, ashore⟩
  cases ashore found ((vetted.values found).position ▸ pos)

namespace Orderly
variable {opened : List FunctionId}

theorem unmade {value : Value} (orderly : m.Orderly opened [])
    (found : m.values.get? v = some value) (named : value.isNamed = true) :
    v ∉ Operation.results m.operations := by
  intro made
  obtain ⟨_, same, unnamed⟩ := orderly.made (by simpa using made)
  obtain rfl := Option.mem_unique found same
  cases kind : value.kind <;> simp_all [Value.isNamed, Value.named?, Value.isUnnamed]

theorem workable (vetted : m.Vetted) (orderly : m.Orderly opened []) :
    Declaration.Workable m.Wide m.functions.toList where
  fresh := by
    refine ⟨by simpa [Module.operations] using orderly.results, ?_⟩
    rintro v made ⟨value, found, named, _⟩
    exact orderly.unmade found named made
  params decl member v r passed := by
    obtain ⟨i, known⟩ := mem_iff_getElem?.mp member
    obtain ⟨ty, typed⟩ := CallLayout.typed_place passed
    obtain ⟨value, found, rfl, named, _⟩ :=
      vetted.formals (f := ⟨i⟩) (by simpa [Module.function?] using known) (mem_append_left _ typed)
    have fits := (CallLayout.register_argument (of_mem_zip typed).2).1
    refine ⟨orderly.unmade found named, ?_⟩
    rintro ⟨_, same, _, wide⟩
    obtain rfl := Option.mem_unique found same
    simp [fits] at wide

theorem grants (vetted : m.Vetted) (provided : m.Provides opened home)
    (housed : home.Housed m.constants m.frames.sizes.size) : m.context.Grants home := by
  match home, provided, housed with
  | .stack ⟨.frame frame, offset⟩, ⟨f, _, decl, known, is_frame, inside⟩, _ =>
    refine ⟨_, rfl, ?_⟩
    simpa [Context.extent, Module.context, vetted.sized known is_frame] using inside
  | .static offset, inside, _ => exact ⟨_, rfl, inside⟩
  | .constant id, _, ⟨blob, is_blob, filled⟩ =>
    refine ⟨_, rfl, ?_⟩
    simpa [Context.extent, Module.context, is_blob] using length_pos_of_ne_nil filled

theorem awaits (vetted : m.Vetted) (orderly : m.Orderly opened []) :
    m.context.Awaits m.Wide m.functions.toList := by
  have vacant : m.context.Vacant := m.occupant?_context
  have claims {v : ValueId} {value : Value} {place : Position}
      (found : m.values.get? v = some value)
      (claim : value.Claims place) : value.home? = some place := by
    obtain ⟨_, here | home⟩ := claim
    · rw [← (vetted.values found).position, here]
    · exact home
  refine ⟨?_, vacant⟩
  constructor
  case toTidy =>
    refine ⟨⟨vetted.owned, ?_⟩, ⟨?_, ?_⟩⟩
    · intro r v occupied
      rw [vacant] at occupied
      cases occupied
    · exact fun found claim => grants vetted (orderly.provided found (claims found claim))
        ((vetted.values found).housed (claims found claim))
    · exact fun found found' claim claim' => orderly.distinct found found' (claims found claim)
        (claims found' claim')
  case kept => exact nofun
  case waits =>
    intro v value waiting found
    change v ∈ Operation.results m.operations at waiting
    obtain ⟨_, same, unnamed⟩ := orderly.made (by simpa using waiting)
    obtain rfl := Option.mem_unique found same
    have homeless : value.home? = none := by
      cases kind : value.kind <;> simp_all [Value.home?, Value.named?, Value.isUnnamed]
    simp [Value.isUnplaced, unnamed, (vetted.values found).position, homeless]
  case wide_iff => exact Iff.rfl

end Orderly

end Module

theorem Context.Shares.check_eq {d : Context} (shares : c.Shares d) : d.check = c.check := by
  have occupants (pairs : List (Register × ValueId)) :
      d.checkOccupants pairs = c.checkOccupants pairs := by
    induction pairs with
    | nil => rfl
    | cons pair rest ih => simp only [Context.checkOccupants, shares.values, ih]
  have ownership (v : ValueId) (place : Position) :
      d.checkOwnership v place = c.checkOwnership v place := by
    cases place <;> simp only [Context.checkOwnership, shares.registers]
  have positions (entries : List (ValueId × Value)) (seen : List (Position × ValueId)) :
      d.checkPositions entries seen = c.checkPositions entries seen := by
    induction entries generalizing seen with
    | nil => rfl
    | cons entry rest ih => simp only [Context.checkPositions, ownership, ih]
  simp only [Context.check, occupants, positions, shares.registers, shares.values]

theorem Gen.outcome_checked (c : Context) :
    outcome (do if (← get).options.verify then checkConsistency) c
    = if c.options.verify then (c.check, c) else (.ok (), c) := by
  change outcome (if c.options.verify then checkConsistency else pure ()) c = _
  split
  · rw [checkConsistency, outcome_get]
    cases c.check <;> rfl
  · rfl

def Context.tuned (c : Context) (f : Options → Options) : Context :=
  { c with options := f c.options }

def Context.checking (c : Context) (verify : Bool) : Context := c.tuned ({ · with verify })

theorem agree_comment (c : Context) (text : String)
    (comments : ∀ options, (f options).emitComments = options.emitComments) :
    Agree (fun c d => d = c.tuned f) (outcome (comment text) c)
    (outcome (comment text) (c.tuned f)) := by
  change Agree _ (outcome (if c.options.emitComments then emit (.comment text) else pure ()) c)
    (outcome (if (f c.options).emitComments then emit (.comment text) else pure ()) (c.tuned f))
  rw [comments]
  split
  · exact ⟨rfl, rfl, nofun⟩
  · exact ⟨rfl, rfl, nofun⟩

theorem Gen.outcome_valueOf (c : Context) (v : ValueId) :
    outcome (valueOf v) c = match c.values.get? v with
      | some value => (.ok value, c)
      | none => (.error (.noSuchValue v), c) := by
  change outcome (match c.values.get? v with | some value => pure value | none => throw _) c = _
  cases c.values.get? v <;> rfl

theorem outcome_markLocation_cases (c : Context) (v : ValueId) : outcome (markLocation v) c
    = if c.options.emitLocations then
        match c.values.get? v with
        | some value =>
          match value.named?, value.position with
          | some named, some pos =>
            (.ok (), c.pushed (.location named.name pos (pos.slot?.bind StackSlot.frame?)))
          | _, _ => (.ok (), c)
        | none => (.error (.noSuchValue v), c)
      else (.ok (), c) := by
  rw [markLocation, outcome_get]
  split
  · rw [outcome_bind, outcome_valueOf]
    cases c.values.get? v with
    | none => rfl
    | some value =>
      dsimp only
      cases value.named? <;> cases value.position <;> rfl
  · rfl

theorem agree_markLocation (c : Context) (v : ValueId)
    (locations : ∀ options, (f options).emitLocations = options.emitLocations) :
    Agree (fun c d => d = c.tuned f) (outcome (markLocation v) c)
    (outcome (markLocation v) (c.tuned f)) := by
  have same : (c.tuned f).values = c.values := rfl
  have wanted : (c.tuned f).options.emitLocations = c.options.emitLocations := locations c.options
  rw [outcome_markLocation_cases, outcome_markLocation_cases, same, wanted]
  split
  · cases c.values.get? v with
    | none => exact ⟨rfl, rfl, by rintro _ ⟨⟩; rfl⟩
    | some value =>
      dsimp only
      split
      · exact ⟨rfl, rfl, by rintro _ ⟨⟩⟩
      · exact ⟨rfl, rfl, by rintro _ ⟨⟩⟩
  · exact ⟨rfl, rfl, by rintro _ ⟨⟩⟩

def Correspondence.tuning (f : Options → Options)
    (comments : ∀ options, (f options).emitComments = options.emitComments)
    (locations : ∀ options, (f options).emitLocations = options.emitLocations) :
    Correspondence where
  rel c d := d = c.tuned f
  shares := by
    rintro c _ rfl
    exact ⟨rfl, rfl, rfl, rfl, rfl, rfl, rfl⟩
  change := by
    rintro c _ rfl k
    rfl
  emit := by
    rintro c _ rfl i
    rfl
  comment := by
    rintro c _ rfl text
    exact agree_comment c text comments
  mark := by
    rintro c _ rfl v _ _
    exact agree_markLocation c v locations
  register := by
    rintro c _ rfl
    rfl
  spill := by
    rintro c _ rfl
    rfl
  call := by
    rintro c _ rfl
    rfl
  operation := by
    rintro c _ rfl kind
    rfl

namespace Correspondence

section
variable {comments : ∀ options, (f options).emitComments = options.emitComments}
  {locations : ∀ options, (f options).emitLocations = options.emitLocations}

theorem uniform_instructionCount : (tuning f comments locations).Uniform instructionCount := by
  rintro c _ rfl
  exact ⟨rfl, rfl, nofun⟩

theorem uniform_enterFrame (frame : FrameId) :
    (tuning f comments locations).Uniform (enterFrame frame) :=
  uniform_modify (fun k => { k with currentFrame := some frame }) fun _ => rfl

theorem uniform_leaveFrame : (tuning f comments locations).Uniform leaveFrame :=
  uniform_modify (fun k => { k with currentFrame := none }) fun _ => rfl

theorem uniform_addFunction (name : String) (count : Nat) :
    (tuning f comments locations).Uniform (record (·.addFunction name count)) := by
  rintro c _ rfl
  exact ⟨rfl, rfl, nofun⟩

theorem uniform_lowerEnd (decl : Declaration) (frame : FrameId) (first : Nat) (returned : Bool) :
    (tuning f comments locations).Uniform (do
      if !returned then retireRegisters
      lowerTail decl frame first) := by
  have rest : (tuning f comments locations).Uniform (lowerTail decl frame first) :=
    uniform_bind (uniform_lowerEpilogue _ _) fun _ => uniform_bind uniform_leaveFrame fun _ =>
      uniform_bind uniform_instructionCount fun _ => uniform_bind (uniform_addFunction _ _) fun _ =>
        uniform_pure _
  exact uniform_ite (uniform_bind uniform_retireRegisters fun _ => rest) rest

def verifying (verify : Bool) : Correspondence :=
  tuning ({ · with verify }) (fun _ => rfl) fun _ => rfl

end

section
variable {verify : Bool} {later : List Operation}

theorem outcome_verified {plan : Plan} (follows : c.Follows plan) :
    outcome (do if (← get).options.verify then checkConsistency) c = (.ok (), c) := by
  rw [outcome_checked, follows.check, ite_self]

theorem agrees_lowerItem (fresh : Operation.Fresh wide (item.operation :: later))
    (follows : c.Follows (.pending wide (item.operation :: later))) :
    (verifying verify).Agrees c (c.checking verify) (lowerItem functions decl item isLast) := by
  rw [lowerItem_eq]
  refine agrees_bind (uniform_lowerUnchecked _ _ _ _ rfl) fun {u c1 d1} run _ related => ?_
  have tidy := follows_lowerUnchecked fresh follows run
  rw [Agrees, outcome_verified tidy,
    outcome_verified (tidy.of_shares ((verifying verify).shares related))]
  exact ⟨rfl, related, by rintro _ ⟨⟩⟩

theorem agrees_lowerBody (fresh : Operation.Fresh wide (items.map BodyItem.operation ++ later))
    (follows : c.Follows (.pending wide (items.map BodyItem.operation ++ later))) :
    (verifying verify).Agrees c (c.checking verify) (lowerBody functions decl items) := by
  induction items generalizing c with
  | nil => exact uniform_pure _ rfl
  | cons item rest ih =>
    refine agrees_bind (agrees_lowerItem fresh follows) fun {u c1 d1} run _ related => ?_
    obtain rfl : d1 = c1.checking verify := related
    exact ih fresh.tail
      (follows_lowerUnchecked fresh follows (runs_lowerUnchecked run))

section
variable (workable : Declaration.Workable wide (decl :: rest))
  (awaits : c.Awaits wide (decl :: rest))
include workable awaits

theorem agrees_lowerParts {frame : FrameId} (is_body : decl.body = some body) :
    (verifying verify).Agrees c (c.checking verify) (lowerParts functions decl frame body) := by
  refine agrees_bind (uniform_instructionCount rfl) fun {first _ _} counted _ related => ?_
  obtain rfl := related
  simp only [instructionCount, runs_bind, runs_get, runs_pure, and_assoc, exists_and_left,
    exists_eq_left] at counted
  obtain ⟨_, rfl⟩ := counted
  refine agrees_bind (uniform_enterFrame _ rfl) fun entered _ related => ?_
  obtain rfl := runs_modify.mp entered
  refine agrees_bind (uniform_lowerPrologue _ _ related) fun {_ c1 d1} bound _ related => ?_
  obtain rfl : d1 = c1.checking verify := related
  have follows := follows_lowerPrologue workable awaits bound
  have fresh := workable.fresh
  rw [flatMap_cons] at fresh
  rw [operations_of_body is_body] at follows fresh
  refine agrees_bind (agrees_lowerBody fresh follows) fun _ _ related => ?_
  exact uniform_lowerEnd decl frame first _ related

theorem agrees_lowerFunction :
    (verifying verify).Agrees c (c.checking verify) (lowerFunction functions decl) := by
  cases is_frame : decl.frame with
  | none =>
    rw [lowerFunction, is_frame]
    exact uniform_inconsistent rfl rfl
  | some frame =>
    cases is_body : decl.body with
    | none =>
      rw [lowerFunction, is_frame, is_body]
      exact uniform_inconsistent rfl rfl
    | some body =>
      have vacant : (c.checking verify).Vacant := awaits.vacant
      rw [Agrees, outcome_lowerFunction is_frame is_body awaits.vacant,
        outcome_lowerFunction is_frame is_body vacant]
      exact agrees_lowerParts workable awaits is_body

end

theorem agrees_lowerFunctions (workable : Declaration.Workable wide decls)
    (awaits : c.Awaits wide decls) :
    (verifying verify).Agrees c (c.checking verify) (lowerFunctions functions decls) := by
  induction decls generalizing c with
  | nil => exact uniform_pure _ rfl
  | cons decl rest ih =>
    have continued {c1 : Context} (range : Option (Nat × Nat)) (awaits : c1.Awaits wide rest) :
        (verifying verify).Agrees c1 (c1.checking verify) (do
          let ranges ← lowerFunctions functions rest
          return range :: ranges) :=
      agrees_bind (ih workable.tail awaits) fun _ _ related => uniform_pure _ related
    rw [lowerFunctions]
    split
    · exact continued none awaits.tail
    · refine agrees_bind (agrees_bind (agrees_lowerFunction workable awaits)
        fun _ _ related => uniform_pure _ related) fun {range c1 d1} run _ related => ?_
      obtain rfl : d1 = c1.checking verify := related
      obtain ⟨_, ran, _⟩ := runs_map.mp run
      exact continued _ (awaits_lowerFunction workable awaits ran)

end

end Correspondence

namespace Module

/-- Lowering of the module comes in the context to the functions of the list. -/
inductive Visits (m : Module) : List Declaration → Context → Prop
  | entry {c : Context} : Runs (lowerEntry m.functions m.entry) m.context () c →
      Visits m m.functions.toList c
  | external {decl : Declaration} {rest : List Declaration} {c : Context} :
      Visits m (decl :: rest) c → decl.isExternal = true → Visits m rest c
  | function {decl : Declaration} {rest : List Declaration} {c c' : Context} {range : Nat × Nat} :
      Visits m (decl :: rest) c → decl.isExternal = false →
      Runs (lowerFunction m.functions decl) c range c' → Visits m rest c'

/-- Lowering of the module comes in the context to the items of the list, which are the last ones
of the body of the function, and has the functions `later` before it. -/
inductive Reaches (m : Module) (decl : Declaration) (later : List Declaration) :
    List BodyItem → Context → Prop
  | body {frame : FrameId} {body : List BodyItem} {c c' : Context} :
      m.Visits (decl :: later) c → decl.isExternal = false → decl.frame = some frame →
      decl.body = some body →
      Runs (lowerPrologue decl frame) { c with currentFrame := some frame } () c' →
      Reaches m decl later body c'
  | item {item : BodyItem} {rest : List BodyItem} {c c' : Context} :
      Reaches m decl later (item :: rest) c →
      Runs (lowerItem m.functions decl item rest.isEmpty) c () c' → Reaches m decl later rest c'

theorem Visits.suffix (visits : m.Visits decls c) : decls <:+ m.functions.toList := by
  induction visits with
  | entry => exact suffix_refl _
  | external _ _ ih | function _ _ _ ih => exact (suffix_cons _ _).trans ih

theorem awaits_lowerEntry {entry : Option FunctionId}
    (awaits : c.Awaits wide decls) (run : Runs (lowerEntry functions entry) c () c') :
    c'.Awaits wide decls := by
  unfold lowerEntry at run
  split at run
  · obtain ⟨_, rfl⟩ := runs_pure.mp run
    exact awaits
  · split at run
    · exact (runs_inconsistent.mp run).elim
    · have walked := walks_seq (D := .tidy _) (walks_quiet rfl)
        (walks_seq (walks_quiet rfl) (walks_quiet rfl)) _ _ awaits.follows run
      simp only [runs_bind, runs_emit] at run
      obtain ⟨_, _, rfl, _, _, rfl, rfl⟩ := run
      exact ⟨walked.1, awaits.vacant⟩

theorem visits_lowerModule {ranges : List (Option (Nat × Nat))}
    (run : Runs (lowerModule m.functions m.entry) m.context ranges c) : m.Visits [] c := by
  have finished {decls : List Declaration} {c1 : Context} {ranges : List (Option (Nat × Nat))}
      (visits : m.Visits decls c1) (run : Runs (lowerFunctions m.functions decls) c1 ranges c) :
      m.Visits [] c := by
    induction decls generalizing c1 ranges with
    | nil =>
      obtain ⟨_, rfl⟩ := runs_pure.mp run
      exact visits
    | cons decl rest ih =>
      obtain ⟨external, _, more⟩ | ⟨internal, _, _, _, lowered, more⟩ :=
        runs_lowerFunctions_cons run
      · exact ih (.external visits external) more
      · exact ih (.function visits internal lowered) more
  simp only [lowerModule, runs_bind] at run
  obtain ⟨_, _, entered, lowered⟩ := run
  exact finished (.entry entered) lowered

theorem Visits.awaits (awaits : m.context.Awaits wide m.functions.toList)
    (workable : Declaration.Workable wide m.functions.toList) (visits : m.Visits decls c) :
    c.Awaits wide decls ∧ Declaration.Workable wide decls := by
  induction visits with
  | entry run => exact ⟨awaits_lowerEntry awaits run, workable⟩
  | external _ _ ih => exact ⟨ih.1.tail, ih.2.tail⟩
  | function _ _ run ih => exact ⟨awaits_lowerFunction ih.2 ih.1 run, ih.2.tail⟩

theorem Reaches.follows {later : List Declaration}
    (awaits : m.context.Awaits wide m.functions.toList)
    (workable : Declaration.Workable wide m.functions.toList)
    (reaches : m.Reaches decl later items c) :
    let pending := items.map BodyItem.operation ++ later.flatMap Declaration.operations
    c.Follows (.pending wide pending) ∧ Operation.Fresh wide pending := by
  induction reaches with
  | body visits _ _ is_body entered =>
    obtain ⟨awaits, workable⟩ := visits.awaits awaits workable
    have follows := follows_lowerPrologue workable awaits entered
    have fresh := workable.fresh
    rw [flatMap_cons] at fresh
    rw [operations_of_body is_body] at follows fresh
    exact ⟨follows, fresh⟩
  | item _ run ih => exact ⟨follows_lowerUnchecked ih.2 ih.1 (runs_lowerUnchecked run), ih.2.tail⟩

theorem finish_varied {options : Options} {diagnostics : Diagnostics}
    (optimize : options.optimize = m.options.optimize)
    (warnings : diagnostics.warnings = m.diagnostics.warnings)
    (lowered : outcome (lowerModule m.functions m.entry) (m.varied options diagnostics).context
      = ((outcome (lowerModule m.functions m.entry) m.context).1,
        (outcome (lowerModule m.functions m.entry) m.context).2.tuned f)) :
    (m.varied options diagnostics).finish = m.finish := by
  have same : (m.varied options diagnostics).undefined? = m.undefined? := rfl
  unfold finish
  rw [same]
  cases m.undefined? with
  | some decl => rfl
  | none =>
    have functions : (m.varied options diagnostics).functions = m.functions := rfl
    have entry : (m.varied options diagnostics).entry = m.entry := rfl
    have started (c : Context) :
        (lowerModule m.functions m.entry).run c = outcome (lowerModule m.functions m.entry) c := rfl
    dsimp only
    rw [functions, entry, started, started, lowered]
    rcases outcome (lowerModule m.functions m.entry) m.context with ⟨_ | _, c⟩
    · rfl
    · simp [varied, Context.tuned, optimize, warnings]

section
variable (awaits : m.context.Awaits wide m.functions.toList)
  (workable : Declaration.Workable wide m.functions.toList)
include awaits workable

theorem agrees_lowerModule (verify : Bool) : (Correspondence.verifying verify).Agrees m.context
    (m.context.checking verify) (lowerModule m.functions m.entry) := by
  refine Correspondence.agrees_bind (Correspondence.uniform_lowerEntry _ _ rfl)
    fun {_ c1 d1} entered _ related => ?_
  obtain rfl : d1 = c1.checking verify := related
  exact Correspondence.agrees_lowerFunctions workable (awaits_lowerEntry awaits entered)

theorem finish_checking (verify : Bool) :
    (m.switched { m.options with verify }).finish = m.finish := by
  obtain ⟨result, context, _⟩ := agrees_lowerModule awaits workable verify
  exact finish_varied (f := ({ · with verify })) rfl rfl (Prod.ext result context)

theorem finish_mild {fault : Fault} (stopped : m.finish = .error fault) :
    fault.atStart = false := by
  obtain ⟨_, _, mild⟩ := agrees_lowerModule awaits workable true
  obtain ⟨decl, rfl⟩ | rfl | ⟨c, faulty⟩ := stopped_of_finish stopped
  · rfl
  · rfl
  · exact mild (congrArg Prod.fst faulty)

end

/-- Checking the bookkeeping is superfluous: after an operation it is in order whenever lowering
got that far, so a module is finished in the same way with and without the check, and no function
starts with an occupied register. -/
theorem verification_superfluous {options : Options} {file : String} {calls : List ModuleCall}
    (once : ((Module.start options file).opened calls).Nodup) :
    (∀ decl later item rest c c', (build options file calls).Reaches decl later (item :: rest) c →
      Runs (lowerUnchecked (build options file calls).functions decl item rest.isEmpty) c () c' →
      c'.check = .ok ())
    ∧ (∀ verify, (build { options with verify } file calls).finish
      = (build options file calls).finish)
    ∧ ∀ r v name, (build options file calls).finish
        ≠ .error (.failed (.inconsistent (.occupiedAtStart r v name))) := by
  have orderly := orderly_build once
  have vetted : (build options file calls).Vetted := vetted_build options file calls
  have awaits := orderly.awaits vetted
  have workable := orderly.workable vetted
  refine ⟨fun decl later item rest c c' reaches run => ?_, fun verify => ?_, ?_⟩
  · obtain ⟨follows, fresh⟩ := reaches.follows awaits workable
    exact (follows_lowerUnchecked fresh follows run).check
  · rw [build_switched options { options with verify } file calls rfl, ← finish_checking awaits
      workable verify, options_build]
  · intro r v name stopped
    cases finish_mild awaits workable stopped

def forwardingCalls : List ModuleCall :=
  [.declare "id" ⟨[.int 4 true], .int 4 true⟩ .internal 1,
    .declare "seven" ⟨[], .int 4 true⟩ .internal 2,
    .define ⟨0⟩ ["x"] 3 [.ret (some ⟨0⟩)] true,
    .define ⟨1⟩ [] 4 [.constant (.int 4 true) 7, .call ⟨0⟩ [⟨1⟩], .ret (some ⟨2⟩)] true]

theorem verification_superfluous_forwarding :
    (build {} "forward.c" forwardingCalls).finish.isOk = true
      ∧ (build { verify := false } "forward.c" forwardingCalls).finish
        = (build {} "forward.c" forwardingCalls).finish := by
  have once : ((start {} "forward.c").opened forwardingCalls).Nodup := by decide +kernel
  exact ⟨by decide +kernel, (verification_superfluous once).2.1 false⟩

end Module

end RegisterBackend
