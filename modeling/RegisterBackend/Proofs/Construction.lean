import RegisterBackend.Module.Body
import RegisterBackend.Proofs.Places

/-!
Modules as they are built. A call of the construction interface is data here, so a module is what a
list of calls makes of the empty one, and `Edit` says all that can happen to a body.
-/
namespace RegisterBackend

open Build Array CallLayout Gen

variable {args : List ValueId} {function : FunctionId} {made value : Value} {v : ValueId}

def Fault.isEscalated : Fault → Bool
  | .failed (.escalated _ _) => true
  | _ => false

inductive BodyCall where
  | setLine (line : Nat)
  | param (index : Nat)
  | constant (ty : Ty) (bits : Word)
  | floatConstant (ty : Ty) (bits : Word)
  | newVariable (ty : Ty) (name : String)
  | staticVariable (ty : Ty) (name : String)
  | data (element : Ty) (bytes : List UInt8)
  | binary (op : BinaryOp) (lhs rhs : ValueId)
  | update (op : BinaryOp) (target rhs : ValueId)
  | compare (op : CompareOp) (lhs rhs : ValueId)
  | unary (op : UnaryOp) (operand : ValueId)
  | convert (value : ValueId) (ty : Ty)
  | assign (target value : ValueId)
  | call (function : FunctionId) (args : List ValueId)
  | callIndirect (ptr : ValueId) (args : List ValueId)
  | addressOf (value : ValueId)
  | dereference (ptr : ValueId)
  | store (ptr value : ValueId)
  | member (ptr : ValueId) (field : String)
  | functionAddress (function : FunctionId)
  | newLabel
  | placeLabel (label : LabelId)
  | jump (label : LabelId)
  | branch (cond : ValueId) (target : LabelId) (jumpIf spillAll : Bool)
  | ret (value : Option ValueId)
  | comment (text : String)
  deriving DecidableEq

inductive Answer where
  | nothing
  | value (v : ValueId)
  /-- A call of a function has a result unless the function returns nothing. -/
  | result (v : Option ValueId)
  | label (label : LabelId)
  | function (function : FunctionId)
  deriving DecidableEq

def BodyCall.request : BodyCall → Build Answer
  | .setLine line => do Build.setLine line; return .nothing
  | .param index => .value <$> Build.param index
  | .constant ty bits => .value <$> Build.constant ty bits
  | .floatConstant ty bits => .value <$> Build.floatConstant ty bits
  | .newVariable ty name => .value <$> Build.newVariable ty name
  | .staticVariable ty name => .value <$> Build.staticVariable ty name
  | .data element bytes => .value <$> Build.data element bytes
  | .binary op lhs rhs => .value <$> Build.binary op lhs rhs
  | .update op target rhs => do Build.update op target rhs; return .nothing
  | .compare op lhs rhs => .value <$> Build.compare op lhs rhs
  | .unary op operand => .value <$> Build.unary op operand
  | .convert value ty => .value <$> Build.convert value ty
  | .assign target value => do Build.assign target value; return .nothing
  | .call function args => .result <$> Build.call function args
  | .callIndirect ptr args => .result <$> Build.callIndirect ptr args
  | .addressOf value => .value <$> Build.addressOf value
  | .dereference ptr => .value <$> Build.dereference ptr
  | .store ptr value => do Build.store ptr value; return .nothing
  | .member ptr field => .value <$> Build.member ptr field
  | .functionAddress function => .value <$> Build.functionAddress function
  | .newLabel => .label <$> Build.newLabel
  | .placeLabel label => do Build.placeLabel label; return .nothing
  | .jump label => do Build.jump label; return .nothing
  | .branch cond target jumpIf
      spillAll => do Build.branch cond target jumpIf spillAll; return .nothing
  | .ret value => do Build.ret value; return .nothing
  | .comment text => do Build.comment text; return .nothing

/-- The body after a list of calls. A rejected call does not end the construction. -/
def BodyBuilder.perform (b : BodyBuilder) (calls : List BodyCall) : BodyBuilder :=
  calls.foldl (fun b call => (outcome call.request b).2) b

inductive ModuleCall where
  | declare (name : String) (sig : Signature) (linkage : Linkage) (line : Nat)
  | declareStatic (name : String) (ty : Ty) (line : Nat)
  | setEntry (function : FunctionId) (line : Nat)
  /-- A body from its opening on, which may be left incomplete. -/
  | define (function : FunctionId) (names : List String) (line : Nat) (body : List BodyCall)
      (completed : Bool)

namespace Module

/-- The module after a call. -/
def perform (m : Module) : ModuleCall → Module
  | .declare name sig linkage line => (outcome (declare name sig linkage line) m).2
  | .declareStatic name ty line => (outcome (declareStatic name ty line) m).2
  | .setEntry function line => (outcome (setEntry function line) m).2
  | .define function names line body completed =>
    match outcome (define function names line) m with
    | (.ok b, _) =>
      let b := b.perform body
      (if completed then (outcome Build.finish b).2 else b).context
    | (.error _, m) => m

def build (options : Options) (file : String) (calls : List ModuleCall) : Module :=
  calls.foldl perform (start options file)

/-- The functions whose bodies the calls open, once for each time. -/
def opened (m : Module) : List ModuleCall → List FunctionId
  | [] => []
  | call :: rest =>
    (match call with
      | .define function names line _ _ =>
        if (outcome (define function names line) m).1.isOk then [function] else []
      | _ => []) ++ (m.perform call).opened rest

section
variable (options : Options) (file : String)

@[simp] theorem function?_start (f : FunctionId) : (start options file).function? f = none := by
  simp [start, function?]

@[simp] theorem get?_start (v : ValueId) : (start options file).values.get? v = none := by
  simp [start, ValueStore.get?, ValueStore.empty]

end

theorem opened_cons (m : Module) (call : ModuleCall) (rest : List ModuleCall)
    (opened : List FunctionId) : ((m.perform call).opened rest ++ (m.opened [call] ++ opened)).Perm
      (m.opened (call :: rest) ++ opened) := by
  have parts : m.opened (call :: rest) = m.opened [call] ++ (m.perform call).opened rest := by
    simp [Module.opened]
  rw [parts, ← List.append_assoc]
  exact List.perm_append_comm.append_right _

end Module

namespace Value

def core (v : Value) : Value := { v with references := 0, initialized := true }

def ofTemporary (ty : Ty) (description : String) : Value := { ty, kind := .temporary, description }

def ofReference (ty : Ty) (description : String) : Value := { ty, kind := .reference, description }

/-- A variable that is at its home from the start. -/
def homed (ty : Ty) (name : String) (storage : StorageClass) (home : Position) : Value :=
  { ty, kind := .named { name, storage, home := some home }, description := name,
    position := some home }

end Value

namespace ValueStore

def next (s : ValueStore) : ValueId := ⟨s.size⟩

def including (s : ValueStore) : Option Value → ValueStore
  | none => s
  | some made => (s.add made).2

/-- Uses were counted and variables found to be initialized, but no more. -/
def Marks (s s' : ValueStore) : Prop :=
  ∀ v, (s'.get? v).map Value.core = (s.get? v).map Value.core

section
variable (s : ValueStore)
include s

theorem Marks.refl : s.Marks s := fun _ => rfl

theorem marks_modify (v : ValueId) {f : Value → Value}
    (kept : ∀ value, (f value).core = value.core) : s.Marks (s.modify v f) :=
  fun w => map_get?_modify s v w _ kept

theorem get?_noteUses (vs : List ValueId) (v : ValueId) : (vs.foldl noteUse s).get? v
    = (s.get? v).map fun value => { value with references := value.references + vs.count v } := by
  induction vs generalizing s with
  | nil => simp
  | cons w rest ih =>
    rw [List.foldl_cons, ih, noteUse, get?_modify, List.count_cons]
    by_cases same : v = w
    · simp [same, Function.comp_def, Nat.add_right_comm, ← Nat.add_assoc]
    · simp [same, Ne.symm same]

theorem marks_noteUses (vs : List ValueId) : s.Marks (vs.foldl noteUse s) := by
  intro v
  rw [get?_noteUses, Option.map_map]
  rfl

theorem get?_next : s.get? s.next = none := by simp [get?, next, size]

theorem get?_including (made : Option Value) (v : ValueId) :
    (s.including made).get? v = if v = s.next then made else s.get? v := by
  cases made with
  | none =>
    rw [including]
    split
    · next same => rw [same, get?_next]
    · rfl
  | some value =>
    obtain ⟨i⟩ := v
    simp [including, add, get?, next, size, getElem?_push]

theorem get?_add (value : Value) (v : ValueId) :
    (s.add value).2.get? v = if v = s.next then some value else s.get? v :=
  s.get?_including (some value) v

theorem modify_add (value : Value) (f : Value → Value) :
    (s.add value).2.modify s.next f = (s.add (f value)).2 := by
  simp only [modify, add, next, size, ValueStore.mk.injEq, and_true]
  refine Array.ext (by simp) fun i small _ => ?_
  rw [size_modify, size_push] at small
  simp only [getElem_modify, getElem_push]
  rcases Nat.lt_or_eq_of_le (Nat.le_of_lt_succ small) with old | rfl
  · simp [old, Nat.ne_of_gt old]
  · simp

theorem noteUse_add_mark (value : Value) (known : v ≠ s.next) :
    ((s.modify v ({ · with initialized := true })).add value).2.noteUse v
      = ((s.add value).2.noteUse v).modify v ({ · with initialized := true }) := by
  have other : v.index ≠ s.values.size := by
    intro same
    exact known (by cases v; simp_all [next, size])
  simp only [noteUse, add, modify, ValueStore.mk.injEq, and_true]
  refine Array.ext (by simp) fun i small _ => ?_
  simp only [getElem_modify, getElem_push, size_modify]
  by_cases old : i < s.values.size
  · by_cases same : v.index = i <;> simp [old, same]
  · simp only [size_modify, size_push] at small
    obtain rfl : i = s.values.size := by omega
    simp [other]

end

def addAll (s : ValueStore) (values : List Value) : ValueStore :=
  values.foldl (fun s value => (s.add value).2) s

theorem size_addAll (s : ValueStore) (values : List Value) :
    (s.addAll values).size = s.size + values.length := by
  induction values generalizing s with
  | nil => rfl
  | cons value rest ih =>
    rw [addAll, List.foldl_cons, ← addAll, ih]
    simp [size, add]
    omega

theorem get?_addAll (s : ValueStore) (values : List Value) (v : ValueId) : (s.addAll values).get? v
      = if v.index < s.size then s.get? v else values[v.index - s.size]? := by
  induction values generalizing s with
  | nil =>
    split
    · rfl
    · next beyond => simpa [addAll, get?, size] using beyond
  | cons value rest ih =>
    rw [addAll, List.foldl_cons, ← addAll, ih, get?_add]
    have grown : (s.add value).2.size = s.size + 1 := by simp [size, add]
    obtain ⟨i⟩ := v
    simp only [grown, next, ValueId.mk.injEq]
    rcases Nat.lt_trichotomy i s.size with old | rfl | later
    · simp [old, Nat.ne_of_lt old, Nat.lt_succ_of_lt old]
    · simp
    · obtain ⟨k, rfl⟩ := Nat.exists_eq_add_of_lt later
      have : ¬s.size + k + 1 < s.size + 1 := by omega
      have : ¬s.size + k + 1 < s.size := by omega
      have : s.size + k + 1 - (s.size + 1) = k := by omega
      have : s.size + k + 1 - s.size = k + 1 := by omega
      simp [*]

end ValueStore

namespace Module

section
variable (m : Module)

theorem outcome_settle (s : ValueStore) {named : Named} {home : Position}
    (is_named : value.kind = .named named) (homeless : named.home = none)
    (fixed : home.isRegister = false) :
    outcome (settle s.next home) { m with values := (s.add value).2 }
      = (.ok (), { m with values := (s.add { value with
          kind := .named { named with home := some home }, position := some home }).2 }) := by
  have found : (s.add value).2.get? s.next = some value := by rw [ValueStore.get?_add, if_pos rfl]
  have accepted : named.setHome home = .ok { named with home := some home } := by
    simp [Named.setHome, fixed, homeless]
  rw [settle, outcome_get]
  simp only [found, Option.bind_some, Value.named?, is_named, accepted]
  change (Except.ok (), { m with values := ((s.add value).2.modify s.next _).modify s.next _ }) = _
  rw [s.modify_add, s.modify_add, Value.mapNamed, is_named]

theorem outcome_addHomed (ty : Ty) (name : String) (storage : StorageClass) {home : Position}
    (fixed : home.isRegister = false) : outcome (addHomed ty name storage home) m
      = (.ok m.values.next,
        { m with values := (m.values.add (.homed ty name storage home)).2 }) := by
  change outcome (settle m.values.next home >>= fun _ => _)
    { m with values := (m.values.add _).2 } = _
  rw [outcome_bind, outcome_settle m m.values rfl rfl fixed]
  change (Except.ok m.values.next, { m with values := ValueStore.modify _ m.values.next _ }) = _
  rw [m.values.modify_add]
  rfl

theorem outcome_addStatic (name : String) (ty : Ty) (loc : Location) :
    outcome (addStatic name ty loc) m =
      if ty.isStorable = false then (.error (.failed (.rejected loc (.staticType name ty))), m)
      else match m.statics.allocate ty.size ty.align with
        | none => (.error .overflow, m)
        | some (offset, statics) => (.ok m.values.next, { m with
            statics
            values := (m.values.add (.homed ty name .static (.static offset))).2 }) := by
  cases storable : ty.isStorable with
  | false => simp [addStatic, storable]; rfl
  | true =>
    simp only [addStatic, storable, Bool.not_true, Bool.false_eq_true, ↓reduceIte, outcome_get]
    rcases m.statics.allocate ty.size ty.align with _ | ⟨offset, statics⟩
    · rfl
    · exact outcome_addHomed { m with statics } ty name .static rfl

theorem outcome_addData (element : Ty) (bytes : List UInt8) (loc : Location) :
    outcome (addData element bytes loc) m =
      if element.size = 0 ∨ bytes.length % element.size ≠ 0 then
        (.error (.failed (.rejected loc (.dataShape bytes.length element))), m)
      else (.ok m.values.next, { m with
        constants := (m.constants.add (paddedBlob bytes)).2
        values := (m.values.add (.homed (.array element.constant (bytes.length / element.size))
          "data" .readOnly (.constant (m.constants.add (paddedBlob bytes)).1))).2 }) := by
  unfold addData
  split
  · rfl
  · exact outcome_addHomed { m with constants := _ } _ "data" .readOnly rfl

end

/-- A variable is added together with the memory for it. -/
inductive Houses (m : Module) : Module → Prop
  | static {ty : Ty} {offset : Nat} {statics : StaticSegment} (name : String)
      (legal : ty.isStorable = true)
      (given : m.statics.allocate ty.size ty.align = some (offset, statics)) :
      m.Houses { m with
        statics
        values := (m.values.add (.homed ty name .static (.static offset))).2 }
  | data (ty : Ty) (bytes : List UInt8) :
      m.Houses { m with
        constants := (m.constants.add (paddedBlob bytes)).2
        values := (m.values.add
          (.homed ty "data" .readOnly (.constant (m.constants.add (paddedBlob bytes)).1))).2 }

section
variable (m : Module)

theorem houses_addStatic (name : String) (ty : Ty) (loc : Location) :
    (outcome (addStatic name ty loc) m).2 = m ∨ m.Houses (outcome (addStatic name ty loc) m).2 := by
  rw [outcome_addStatic]
  split
  · exact .inl rfl
  · next storable =>
    cases given : m.statics.allocate ty.size ty.align with
    | none => exact .inl rfl
    | some place => exact .inr (.static name (by simpa using storable) given)

theorem houses_addData (element : Ty) (bytes : List UInt8) (loc : Location) :
    (outcome (addData element bytes loc) m).2 = m
      ∨ m.Houses (outcome (addData element bytes loc) m).2 := by
  rw [outcome_addData]
  split
  · exact .inl rfl
  · exact .inr (.data _ bytes)

end

def parameter (frame : FrameId) : String × Ty × ArgumentPlace → Value
  | (name, ty, .stack offset) => .homed ty name .auto (.stack (.inFrame frame offset))
  | (name, ty, .register _) =>
    { ty, kind := .named { name, storage := .auto }, description := name }

theorem outcome_addParameters_cons (m : Module) (frame : FrameId)
    (param : String × Ty × ArgumentPlace) (rest : List (String × Ty × ArgumentPlace)) :
    outcome (addParameters frame (param :: rest)) m
      = outcome (do return m.values.next :: (← addParameters frame rest))
          { m with values := (m.values.add (parameter frame param)).2 } := by
  obtain ⟨name, ty, place⟩ := param
  cases place with
  | register r =>
    change outcome (addParameters frame rest >>= fun vs => pure (m.values.next :: vs))
      { m with values := (m.values.add _).2.modify m.values.next _ } = _
    rw [m.values.modify_add]
    rfl
  | stack offset =>
    change outcome (settle m.values.next _ >>= fun _ => _)
      { m with values := (m.values.add _).2.modify m.values.next _ } = _
    rw [m.values.modify_add, outcome_bind, outcome_settle m m.values rfl rfl rfl]
    rfl

theorem outcome_addParameters (m : Module) (frame : FrameId)
    (params : List (String × Ty × ArgumentPlace)) : outcome (addParameters frame params) m
      = (.ok ((List.range' m.values.size params.length).map ValueId.mk),
        { m with values := m.values.addAll (params.map (parameter frame)) }) := by
  induction params generalizing m with
  | nil => rfl
  | cons param rest ih =>
    have size : (m.values.add (parameter frame param)).2.size = m.values.size + 1 := by
      simp [ValueStore.size, ValueStore.add]
    rw [outcome_addParameters_cons, outcome_bind, ih, List.length_cons, List.range'_succ,
      List.map_cons, size]
    rfl

/-- The value that holds the address of the caller's buffer, for a function that needs it. -/
def returnBuffer (frame : FrameId) (sig : Signature) : Option Value :=
  match (ofSignature sig).result with
  | .memory => some (.homed (.pointer sig.result) "return buffer" .auto
      (.stack (.inFrame frame Convention.returnPointerOffset)))
  | _ => none

theorem outcome_addReturnPointer (m : Module) (frame : FrameId) (sig : Signature) :
    outcome (addReturnPointer frame sig) m
      = (.ok ((returnBuffer frame sig).map fun _ => m.values.next),
        { m with values := m.values.including (returnBuffer frame sig) }) := by
  unfold addReturnPointer returnBuffer
  cases (ofSignature sig).result with
  | memory =>
    change outcome (addHomed _ _ _ _ >>= fun v => pure (some v)) m = _
    rw [outcome_bind, outcome_addHomed m _ _ _ rfl]
    rfl
  | _ => rfl

def named (decl : Declaration) (names : List String) : List (String × Ty × ArgumentPlace) :=
  names.zip (decl.signature.params.zip decl.layout.arguments)

def openedDeclaration (decl : Declaration) (frame : FrameId) (size : Nat) : Declaration :=
  { decl with
    params := (List.range' size decl.signature.params.length).map ValueId.mk
    returnPointer := (returnBuffer frame decl.signature).map fun _ =>
      ⟨size + decl.signature.params.length⟩ }

/-- The body of a function as it is opened. -/
def opening (m : Module) (function : FunctionId) (decl : Declaration) (frame : FrameId)
    (names : List String) (line : Nat) : BodyBuilder where
  context := { m with
    values := (m.values.addAll ((named decl names).map (parameter frame))).including
      (returnBuffer frame decl.signature)
    functions := m.functions.setIfInBounds function.index
      (openedDeclaration decl frame m.values.size) }
  function
  decl := openedDeclaration decl frame m.values.size
  loc := m.loc line

theorem outcome_declarationOf (m : Module) (function : FunctionId) :
    outcome (declarationOf function) m = match m.function? function with
      | some decl => (.ok decl, m)
      | none => (.error (.failed (.inconsistent (.unknownFunction function))), m) := by
  rw [declarationOf, outcome_get]
  cases m.function? function <;> rfl

theorem outcome_warn (m : Module) (loc : Location) (cause : Caution) :
    outcome (warn loc cause) m = match m.diagnostics.warn loc cause with
      | .ok diagnostics => (.ok (), { m with diagnostics })
      | .error e => (.error (.failed e), m) := by
  rw [warn, outcome_get]
  cases m.diagnostics.warn loc cause <;> rfl

/-- The module with a function more, which has the next two labels. -/
def declaring (m : Module) (name : String) (sig : Signature) (linkage : Linkage) (line : Nat)
    (frame : Option FrameId) (frames : Frames) : Module :=
  { m with
    frames
    nextLabel := m.nextLabel + 1 + 1
    functions := m.functions.push
      { name, signature := sig, linkage, loc := m.loc line, frame, start := ⟨m.nextLabel⟩,
        epilogue := ⟨m.nextLabel + 1⟩ } }

theorem outcome_declare (m : Module) (name : String) (sig : Signature) (linkage : Linkage)
    (line : Nat) : outcome (declare name sig linkage line) m =
      match m.declarationProblem? name sig linkage, ofSignature? sig with
      | some cause, _ => (.error (.failed (.rejected (m.loc line) cause)), m)
      | none, none => (.error .overflow, m)
      | none, some layout => (.ok ⟨m.functions.size⟩,
          match linkage with
          | .internal =>
            let (frame, frames) := m.frames.start layout.argumentsEnd
            m.declaring name sig linkage line frame frames
          | .external _ => m.declaring name sig linkage line none m.frames) := by
  rw [declare, outcome_get, outcome_get]
  cases m.declarationProblem? name sig linkage with
  | some cause => rfl
  | none =>
    cases ofSignature? sig with
    | none => rfl
    | some layout => cases linkage <;> rfl

theorem outcome_setEntry (m : Module) (function : FunctionId) (line : Nat) :
    outcome (setEntry function line) m = match m.function? function with
      | none => (.error (.failed (.inconsistent (.unknownFunction function))), m)
      | some decl =>
        if decl.isExternal then (.error
          (.failed (.rejected (m.loc line) (.externalEntry decl.name))), m)
        else if !decl.signature.params.isEmpty then
          (.error (.failed (.rejected (m.loc line) (.entryParameters decl.name))), m)
        else (.ok (), { m with entry := some function }) := by
  rw [setEntry, outcome_get, outcome_bind, outcome_declarationOf]
  cases m.function? function with
  | none => rfl
  | some decl =>
    dsimp only
    split
    · rfl
    · split <;> rfl

theorem outcome_define (m : Module) (function : FunctionId) (names : List String) (line : Nat) :
    outcome (define function names line) m = match m.function? function with
      | none => (.error (.failed (.inconsistent (.unknownFunction function))), m)
      | some decl => match decl.frame with
        | none => (.error (.failed (.rejected (m.loc line) (.externalBody decl.name))), m)
        | some frame =>
          if decl.isDefined then
            (.error (.failed (.rejected (m.loc line) (.alreadyDefined decl.name))), m)
          else if names.length ≠ decl.signature.params.length then
            (.error (.failed (.rejected (m.loc line)
              (.parameterNames decl.name decl.signature.params.length names.length))), m)
          else (.ok (m.opening function decl frame names line),
            (m.opening function decl frame names line).context) := by
  rw [define, outcome_get, outcome_bind, outcome_declarationOf]
  cases m.function? function with
  | none => rfl
  | some decl =>
    dsimp only
    cases is_frame : decl.frame with
    | none => rfl
    | some frame =>
      dsimp only
      split
      · rfl
      split
      · rfl
      next length =>
      have same : decl.layout.arguments.length = decl.signature.params.length := length_arguments _
      have count : (named decl names).length = decl.signature.params.length := by
        simp only [ne_eq, Decidable.not_not] at length
        simp [named, length, same]
      rw [← named, outcome_bind, outcome_addParameters]
      dsimp only
      rw [outcome_bind, outcome_addReturnPointer]
      simp only [opening, openedDeclaration, ← count, is_frame]
      rw [ValueStore.next, ValueStore.size_addAll, List.length_map]
      rfl

theorem define_ok {m m' : Module} {names : List String} {line : Nat} {b : BodyBuilder}
    (opened : Runs (define function names line) m b m') :
    ∃ decl frame, m.function? function = some decl ∧ decl.frame = some frame ∧ decl.body = none
      ∧ names.length = decl.signature.params.length
      ∧ b = m.opening function decl frame names line := by
  rw [Runs, outcome_define] at opened
  cases known : m.function? function with
  | none => simp [known] at opened
  | some decl =>
    cases is_frame : decl.frame with
    | none => simp [known, is_frame] at opened
    | some frame =>
      simp only [known, is_frame] at opened
      split at opened
      · cases opened
      · next undefined =>
        split at opened
        · cases opened
        · next length =>
          cases opened
          refine ⟨decl, frame, rfl, is_frame, ?_, by simpa using length, rfl⟩
          simpa [Declaration.isDefined] using undefined

theorem define_error {m m' : Module} {names : List String} {line : Nat} {e : Fault}
    (stopped : outcome (define function names line) m = (.error e, m')) :
    m' = m ∧ e.isEscalated = false := by
  rw [outcome_define] at stopped
  repeat' split at stopped
  all_goals
    cases stopped
    try exact ⟨rfl, rfl⟩

end Module

namespace Ty

theorem not_isInteger_of_isFloat : {ty : Ty} → ty.isFloat = true → ty.isInteger = false
  | .float _, _ => rfl
  | .const t, is_float => @not_isInteger_of_isFloat t is_float

theorem not_isPointer_of_isFloat : {ty : Ty} → ty.isFloat = true → ty.isPointer = false
  | .float _, _ => rfl
  | .const t, is_float => @not_isPointer_of_isFloat t is_float

theorem isPointer_of_layout? {ty : Ty} {layout : StructLayout}
    (is_struct : (ty.pointee?.getD .void).layout? = some layout) : ty.isPointer = true := by
  cases is_pointee : ty.pointee? with
  | none => simp [is_pointee, layout?] at is_struct
  | some pointee => exact isPointer_of_pointee? is_pointee

end Ty

def Operation.places? : Operation → Option LabelId
  | .label target => some target
  | _ => none

def Operation.goesTo? : Operation → Option LabelId
  | .jump target => some target
  | .branch _ target _ _ => some target
  | _ => none

/-- The variable that counts as initialized once the operation is recorded: what is at an address
may be written through it. -/
def Operation.initializes : Operation → Option ValueId
  | .assign target _ => some target
  | .addressOf v _ => some v
  | _ => none

namespace BodyBuilder

def next (b : BodyBuilder) : ValueId := b.context.values.next

def Reads (b : BodyBuilder) (v : ValueId) (value : Value) : Prop :=
  b.context.values.get? v = some value ∧ value.initialized = true

def Passes (b : BodyBuilder) (args : List ValueId) (params : List Ty) : Prop :=
  List.Forall₂ (fun v ty => ∃ value, b.Reads v value ∧ value.ty.assignable ty = true) args params

/-- The operation passes its checks in the body and makes the given value. -/
inductive Admits (b : BodyBuilder) : Operation → Option Value → Prop
  | binary {op : BinaryOp} {lhs rhs : ValueId} {left right : Value} {ty : Ty}
      (reads : b.Reads lhs left) (reads' : b.Reads rhs right)
      (legal : op.result left.ty right.ty right.constant? = .ok ty) {swap : Bool}
      (swapped : swap = (right.ty.isPointer && !left.ty.isPointer)) :
      b.Admits (.binary op (if swap then rhs else lhs) (if swap then lhs else rhs) b.next false)
        (some (.ofTemporary ty op.mnemonic))
  | update {op : BinaryOp} {target rhs : ValueId} {old right : Value} {named : Named} {ty : Ty}
      (reads : b.Reads target old) (reads' : b.Reads rhs right) (is_named : old.named? = some named)
      (mutable : old.ty.isConst = false ∧ named.storage ≠ .readOnly)
      (legal : op.result old.ty right.ty right.constant? = .ok ty) :
      b.Admits (.binary op target rhs target true) none
  | compare {op : CompareOp} {lhs rhs : ValueId} {left right : Value} (reads : b.Reads lhs left)
      (reads' : b.Reads rhs right) (legal : left.ty.comparable right.ty = true) :
      b.Admits (.compare op lhs rhs b.next) (some (.ofTemporary .bool op.mnemonic))
  | unary {op : UnaryOp} {operand : ValueId} {value : Value} {ty : Ty}
      (reads : b.Reads operand value) (legal : op.result value.ty = .ok ty) :
      b.Admits (.unary op operand b.next) (some (.ofTemporary ty op.mnemonic))
  | convert {v : ValueId} {value : Value} {ty : Ty} (reads : b.Reads v value)
      (legal : value.ty.isScalar = true ∧ ty.isScalar = true) :
      b.Admits (.convert v b.next) (some (.ofTemporary ty.unqualified "convert"))
  | assign {target v : ValueId} {old value : Value} {named : Named}
      (found : b.context.values.get? target = some old) (reads : b.Reads v value)
      (is_named : old.named? = some named) (mutable : named.storage ≠ .readOnly)
      (legal : value.ty.assignable old.ty = true) : b.Admits (.assign target v) none
  | call {function : FunctionId} {decl : Declaration} {args : List ValueId}
      (known : b.context.function? function = some decl)
      (passes : b.Passes args decl.signature.params) {makes : Bool}
      (value : makes = decl.signature.returnsValue) :
      b.Admits (.call (.direct function) args (if makes then some b.next else none))
        (if makes then some (.ofTemporary decl.signature.result.unqualified decl.name) else none)
  | callIndirect {ptr : ValueId} {target : Value} {sig : Signature} {args : List ValueId}
      (reads : b.Reads ptr target) (is_function : target.ty.signature? = some sig)
      (passes : b.Passes args sig.params) {makes : Bool}
      (value : makes = sig.returnsValue) :
      b.Admits (.call (.indirect ptr) args (if makes then some b.next else none))
        (if makes then some (.ofTemporary sig.result.unqualified "indirect call") else none)
  | addressOf {v : ValueId} {value : Value} (found : b.context.values.get? v = some value)
      (legal : value.isConstant = false) :
      b.Admits (.addressOf v b.next)
        (some (.ofReference (.pointer value.ty) ("&" ++ value.description)))
  | dereference {ptr : ValueId} {target : Value} {pointee : Ty} (reads : b.Reads ptr target)
      (legal : Build.accessible? target.ty = some pointee) :
      b.Admits (.dereference ptr b.next) (some (.ofTemporary pointee "deref"))
  | store {ptr v : ValueId} {target value : Value} {pointee : Ty}
      (reads : b.Reads ptr target) (reads' : b.Reads v value)
      (legal : Build.accessible? target.ty = some pointee) (mutable : pointee.isConst = false)
      (fits : value.ty.assignable pointee = true) : b.Admits (.store ptr v) none
  | member {ptr : ValueId} {target : Value} {offset : Nat} {ty : Ty} {field : String}
      (reads : b.Reads ptr target) (legal : target.ty.isPointer = true) :
      b.Admits (.member ptr offset b.next) (some (.ofTemporary (.pointer ty) field))
  | functionAddress {function : FunctionId} {decl : Declaration}
      (known : b.context.function? function = some decl) (internal : decl.isExternal = false) :
      b.Admits (.functionAddress function b.next)
        (some (.ofTemporary (.pointer decl.signature.toTy) decl.name))
  | label {target : LabelId} (unplaced : target ∉ b.placed) : b.Admits (.label target) none
  | jump (target : LabelId) : b.Admits (.jump target) none
  | branch {cond : ValueId} {value : Value} {target : LabelId} {jumpIf spillAll : Bool}
      (reads : b.Reads cond value) (legal : (value.ty.isInteger || value.ty.isPointer) = true) :
      b.Admits (.branch cond target jumpIf spillAll) none
  | ret {v : ValueId} {value : Value} (reads : b.Reads v value)
      (legal : value.ty.assignable b.decl.signature.result = true) : b.Admits (.ret (some v)) none
  | leave (legal : b.decl.signature.result.isVoid = true) : b.Admits (.ret none) none
  | comment (text : String) : b.Admits (.comment text) none

inductive Edit (b : BodyBuilder) : BodyBuilder → Prop
  /-- Lines, new labels and warnings, on which no value and no operation depends. -/
  | note (loc : Location) (diagnostics : Diagnostics) {nextLabel : Nat}
      (grows : b.context.nextLabel ≤ nextLabel) :
      b.Edit { b with loc, context.diagnostics := diagnostics, context.nextLabel := nextLabel }
  | constant {ty : Ty} {bits : Word} (description : String)
      (legal : ty.isFloat = true ∨ ∃ given, bits = ty.canonicalBits given)
      (rounded : ty.isFloat = true → ty.size = 4 → ∃ given, bits = Double.roundToSingle given) :
      b.Edit { b with context.values := (b.context.values.addConstant ty bits description).2 }
  | newVariable {ty : Ty} (name : String) (legal : ty.isStorable = true) :
      b.Edit { b with context.values := (b.context.values.addNamed ty name .auto).2 }
  | houses {m : Module} (houses : b.context.Houses m) : b.Edit { b with context := m }
  /-- A variable is found to be initialized by an operation. -/
  | initialized {v : ValueId} (given : ∃ item ∈ b.items, item.operation.initializes = some v) :
      b.Edit { b with context.values := b.context.values.modify v ({ · with initialized := true }) }
  | operation {operation : Operation} {made : Option Value} (admits : b.Admits operation made) :
      b.Edit { b with
        context.values :=
          operation.operands.foldl ValueStore.noteUse (b.context.values.including made)
        items := b.items.push ⟨operation, b.loc⟩
        placed := operation.places?.elim b.placed (· :: b.placed)
        used := operation.goesTo?.elim b.used fun label => b.used.push (label, b.loc) }

def Edits : BodyBuilder → BodyBuilder → Prop := Relation.ReflTransGen Edit

theorem edits_note (b : BodyBuilder) (loc : Location) (diagnostics : Diagnostics) {nextLabel : Nat}
    (grows : b.context.nextLabel ≤ nextLabel) :
    b.Edits { b with loc, context.diagnostics := diagnostics, context.nextLabel := nextLabel } :=
  .single (.note _ _ grows)

end BodyBuilder

namespace Build
open Gen

section
variable {α β : Type} {b : BodyBuilder} {x : Build α} {f : α → Build β}

def Edits (b : BodyBuilder) (x : Build α) : Prop := b.Edits (outcome x b).2

theorem edits_bind (first : Edits b x)
    (rest : ∀ {a b1}, Runs x b a b1 → Edits b1 (f a)) : Edits b (x >>= f) := by
  rw [Edits, outcome_bind]
  rcases ran : outcome x b with ⟨_ | a, b1⟩
  · rwa [Edits, ran] at first
  · rw [Edits, ran] at first
    exact Relation.ReflTransGen.trans first (rest ran)

theorem edits_pure (a : α) : Edits b (pure a) := .refl

theorem edits_throw (e : Fault) : Edits b (throw e : Build α) := .refl

theorem edits_throw_then (e : Fault) : Edits b (throw e >>= f) := .refl

theorem edits_reject (cause : Rejection) : Edits b (reject cause : Build α) := .refl

theorem edits_reject_then (cause : Rejection) : Edits b (reject cause >>= f) := .refl

theorem edits_map (g : α → β) (step : Edits b x) : Edits b (g <$> x) :=
  edits_bind step fun _ => edits_pure _

theorem edits_after {x : Build Unit} (a : α) (step : Edits b x) : Edits b (do x; return a) :=
  edits_bind step fun _ => edits_pure _

theorem edits_ite {p : Prop} [Decidable p] {y : Build α} (yes : p → Edits b x)
    (no : ¬p → Edits b y) : Edits b (if p then x else y) := by
  split
  · next h => exact yes h
  · next h => exact no h

theorem edits_unless {p : Prop} [Decidable p] {cause : Rejection} {f : Unit → Build α}
    (rest : ¬p → Edits b (f ())) : Edits b (if p then reject cause >>= f else f ()) :=
  edits_ite (fun _ => edits_reject_then _) rest

theorem edits_get {f : BodyBuilder → Build β} (rest : Edits b (f b)) : Edits b (get >>= f) := rest

theorem edits_check {e : Except Rejection α}
    (rest : ∀ {a}, e = .ok a → Edits b (f a)) : Edits b (check e >>= f) := by
  cases e with
  | error cause => exact edits_reject_then _
  | ok a => exact rest rfl

theorem outcome_finish (b : BodyBuilder) : outcome finish b
    = match b.used.find? fun (label, _) => label ∉ b.placed with
      | some (label, loc) => (.error (.failed (.rejected loc (.labelMissing label))), b)
      | none => (.ok (), { b with
          context.functions := b.context.functions.setIfInBounds b.function.index
            { b.decl with body := some b.items.toList } }) := by
  rw [finish, outcome_get]
  rcases b.used.find? _ with _ | ⟨label, loc⟩ <;> rfl

theorem edits_valueOf {f : Value → Build β}
    (rest : ∀ {value}, b.context.values.get? v = some value → Edits b (f value)) :
    Edits b (valueOf v >>= f) := by
  rw [Edits, outcome_bind]
  cases found : b.context.values.get? v with
  | none =>
    have stopped :
        outcome (valueOf v) b = (.error (.failed (.inconsistent (.unknownValue v))), b) := by
      rw [valueOf, outcome_get, found]
      rfl
    rw [stopped]
    exact .refl
  | some value =>
    have ended : outcome (valueOf v) b = (.ok value, b) := by
      rw [valueOf, outcome_get, found]
      rfl
    rw [ended]
    exact rest found

theorem edits_read {f : Value → Build β} (rest : ∀ {value}, b.Reads v value → Edits b (f value)) :
    Edits b (read v >>= f) := by
  rw [read, bind_assoc]
  refine edits_valueOf fun {value} found => ?_
  cases initialized : value.initialized with
  | false => exact edits_reject_then _
  | true => exact rest ⟨found, initialized⟩

theorem outcome_inModule (action : Module.Action α) (b : BodyBuilder) : outcome (inModule action) b
      = ((outcome action b.context).1, { b with context := (outcome action b.context).2 }) := rfl

theorem edits_inModule {action : Module.Action α}
    (edits : b.Edits { b with context := (outcome action b.context).2 })
    (rest : ∀ {a m}, Runs action b.context a m → Edits { b with context := m } (f a)) :
    Edits b (inModule action >>= f) := by
  refine edits_bind edits fun {a b1} ran => ?_
  rw [Runs, outcome_inModule] at ran
  obtain ⟨gives, rfl⟩ := Prod.mk.inj ran
  exact rest (Prod.ext gives rfl)

theorem edits_declarationOf {f : Declaration → Build β}
    (rest : ∀ {decl}, b.context.function? function = some decl → Edits b (f decl)) :
    Edits b (declarationOf function >>= f) := by
  have looked := Module.outcome_declarationOf b.context function
  cases found : b.context.function? function with
  | none =>
    rw [found] at looked
    refine edits_inModule (by rw [looked]; exact .refl) fun ran => ?_
    cases looked.symm.trans ran
  | some decl =>
    rw [found] at looked
    refine edits_inModule (by rw [looked]; exact .refl) fun ran => ?_
    cases looked.symm.trans ran
    exact rest found

theorem edits_checkUse {source target : Ty} {usage : Usage} {f : Unit → Build β}
    (rest : ∀ diagnostics, Edits { b with context.diagnostics := diagnostics } (f ())) :
    Edits b (checkUse value source target usage >>= f) := by
  unfold checkUse
  cases source.caution? target value.constant? usage with
  | none => exact rest b.context.diagnostics
  | some cause =>
    rw [bind_assoc]
    refine edits_get ?_
    have warned := Module.outcome_warn b.context b.loc cause
    cases recorded : b.context.diagnostics.warn b.loc cause with
    | error e =>
      rw [recorded] at warned
      refine edits_inModule (by rw [warned]; exact .refl) fun ran => ?_
      cases warned.symm.trans ran
    | ok diagnostics =>
      rw [recorded] at warned
      refine edits_inModule (by rw [warned]; exact b.edits_note _ _ le_rfl) fun ran => ?_
      cases warned.symm.trans ran
      exact rest diagnostics

theorem edits_push {operation : Operation} (admits : b.Admits operation none)
    (plain : operation.places? = none ∧ operation.goesTo? = none) : Edits b (push operation) := by
  have edit := BodyBuilder.Edit.operation admits
  rw [plain.1, plain.2] at edit
  exact .single edit

theorem edits_make (operation : ValueId → Operation) {f : ValueId → Build β}
    (admits : b.Admits (operation b.next) (some made))
    (plain : (operation b.next).places? = none ∧ (operation b.next).goesTo? = none)
    (rest : ∀ {b1 v}, Edits b1 (f v)) : Edits b (addValue (·.add made) >>= fun result => push
      (operation result) >>= fun _ => f result) := by
  have edit := BodyBuilder.Edit.operation admits
  rw [plain.1, plain.2] at edit
  exact Relation.ReflTransGen.trans (.single edit) rest

theorem edits_addValue (edit : b.Edit { b with context.values := (b.context.values.add value).2 }) :
    Edits b (addValue (·.add value)) := .single edit

theorem edits_param (index : Nat) : Edits b (param index) := by
  refine edits_get ?_
  split
  · exact edits_pure _
  · exact edits_reject _

theorem edits_constant (ty : Ty) (bits : Word) : Edits b (constant ty bits) :=
  edits_unless fun legal => edits_addValue (.constant _ (.inr ⟨bits, rfl⟩) fun is_float => by
    simp [Ty.not_isInteger_of_isFloat is_float, Ty.not_isPointer_of_isFloat is_float] at legal)

theorem edits_floatConstant (ty : Ty) (bits : Word) : Edits b (floatConstant ty bits) :=
  edits_unless fun is_float => edits_addValue (.constant _ (.inl (by simpa using is_float))
    fun _ single => ⟨bits, if_pos single⟩)

theorem edits_newVariable (ty : Ty) (name : String) : Edits b (newVariable ty name) :=
  edits_unless fun storable => edits_addValue (.newVariable name (by simpa using storable))

theorem edits_housing {action : Module.Action α} (houses : (outcome action b.context).2 = b.context
      ∨ b.context.Houses (outcome action b.context).2) : Edits b (inModule action) := by
  rw [Edits, outcome_inModule]
  obtain same | houses := houses
  · rw [same]
    exact .refl
  · exact .single (.houses houses)

theorem edits_staticVariable (ty : Ty) (name : String) : Edits b (staticVariable ty name) :=
  edits_get (edits_housing (b.context.houses_addStatic name ty b.loc))

theorem edits_data (element : Ty) (bytes : List UInt8) : Edits b (data element bytes) :=
  edits_get (edits_housing (b.context.houses_addData element bytes b.loc))

theorem edits_resultType {op : BinaryOp} {left right : Value} {f : Ty → Build β}
    (rest : ∀ {ty}, op.result left.ty right.ty right.constant? = .ok ty → Edits b (f ty)) :
    Edits b (resultType op left right >>= f) := by
  rw [resultType, bind_assoc]
  refine edits_check fun legal => ?_
  split
  · exact edits_throw_then _
  · exact rest legal

theorem edits_binary (op : BinaryOp) (lhs rhs : ValueId) : Edits b (binary op lhs rhs) :=
  edits_read fun left => edits_read fun right => edits_resultType fun legal =>
    edits_make _ (.binary left right legal rfl) ⟨rfl, rfl⟩ (edits_pure _)

theorem edits_update (op : BinaryOp) (target rhs : ValueId) : Edits b (update op target rhs) := by
  refine edits_read fun {old} left => edits_read fun right => ?_
  dsimp only
  cases is_named : old.named? with
  | none => exact edits_reject _
  | some named =>
    refine edits_unless fun mutable => edits_unless fun _ => edits_resultType fun legal =>
      edits_checkUse fun _ => edits_push (.update left right is_named ?_ legal) ⟨rfl, rfl⟩
    simpa using mutable

theorem edits_compare (op : CompareOp) (lhs rhs : ValueId) : Edits b (compare op lhs rhs) :=
  edits_read fun left => edits_read fun right => edits_unless fun legal => edits_checkUse fun _ =>
    edits_make _ (.compare left right (by simpa using legal)) ⟨rfl, rfl⟩ (edits_pure _)

theorem edits_unary (op : UnaryOp) (operand : ValueId) : Edits b (unary op operand) :=
  edits_read fun value => edits_check fun legal =>
    edits_make _ (.unary value legal) ⟨rfl, rfl⟩ (edits_pure _)

theorem edits_convert (v : ValueId) (ty : Ty) : Edits b (convert v ty) :=
  edits_read fun value => edits_unless fun legal =>
    edits_make _ (.convert value (by simpa using legal)) ⟨rfl, rfl⟩ (edits_pure _)

theorem edits_assign (target v : ValueId) : Edits b (assign target v) := by
  refine edits_valueOf fun {old} found => edits_read fun value => ?_
  dsimp only
  cases is_named : old.named? with
  | none => exact edits_reject _
  | some named =>
    refine edits_unless fun mutable => edits_unless fun legal => edits_checkUse fun _ => ?_
    refine edits_bind
      (edits_push (.assign found value is_named ?_ (by simpa using legal)) ⟨rfl, rfl⟩)
      fun pushed => ?_
    · simp only [Bool.or_eq_true, decide_eq_true_eq, not_or] at mutable
      exact mutable.1
    · rw [runs_modify.mp pushed]
      exact .single (.initialized ⟨⟨.assign target v, _⟩, mem_push_self, rfl⟩)

theorem edits_checkArguments {callee : String} {f : Unit → Build β}
    {params : List Ty} (length : args.length = params.length) (number : Nat)
    (rest : ∀ diagnostics, b.Passes args params →
      Edits { b with context.diagnostics := diagnostics } (f ())) :
    Edits b (checkArguments callee number (args.zip params) >>= f) := by
  induction args generalizing b params number with
  | nil =>
    obtain rfl := List.length_eq_zero_iff.mp length.symm
    exact rest b.context.diagnostics .nil
  | cons v args ih =>
    obtain _ | ⟨ty, params⟩ := params
    · cases length
    rw [List.zip_cons_cons, checkArguments, bind_assoc]
    refine edits_read fun {value} reads => ?_
    cases fits : value.ty.assignable ty with
    | false => exact edits_reject_then _
    | true =>
      simp only [Bool.not_true, Bool.false_eq_true, ↓reduceIte]
      rw [bind_assoc]
      refine edits_checkUse fun diagnostics => ih (Nat.succ.inj length) _ fun later passes => ?_
      exact rest later (.cons ⟨value, reads, fits⟩ passes)

theorem edits_pushCall {callee : Callee} {name description : String} {sig : Signature}
    (admits : ∀ diagnostics makes, b.Passes args sig.params → makes = sig.returnsValue →
      BodyBuilder.Admits { b with context.diagnostics := diagnostics }
        (.call callee args (if makes then some b.next else none))
        (if makes then some (.ofTemporary sig.result.unqualified description) else none)) :
    Edits b (pushCall callee name description sig args) := by
  refine edits_unless fun length => edits_checkArguments (by simpa using length) 1
    fun diagnostics passes => ?_
  cases makes : sig.returnsValue with
  | false =>
    exact edits_bind (edits_push (admits diagnostics false passes makes.symm) ⟨rfl, rfl⟩)
      fun _ => edits_pure _
  | true =>
    exact edits_make (fun v => .call callee args (some v))
      (admits diagnostics true passes makes.symm) ⟨rfl, rfl⟩ (edits_pure _)

theorem edits_call (function : FunctionId) (args : List ValueId) : Edits b (call function args) :=
  edits_declarationOf fun known => edits_pushCall fun diagnostics _ passes makes =>
    .call (b := { b with context.diagnostics := diagnostics }) known passes makes

theorem edits_callIndirect (ptr : ValueId) (args : List ValueId) :
    Edits b (callIndirect ptr args) := by
  refine edits_read fun {target} reads => ?_
  refine edits_ite (fun _ => edits_throw_then _) fun _ => ?_
  dsimp only
  cases signed : target.ty.signature? with
  | none => exact edits_reject _
  | some sig =>
    exact edits_pushCall fun diagnostics _ passes makes =>
      .callIndirect (b := { b with context.diagnostics := diagnostics }) reads signed passes makes

theorem edits_addressOf (v : ValueId) : Edits b (addressOf v) := by
  refine edits_valueOf fun {value} found => edits_unless fun legal => edits_unless fun _ => ?_
  have admits := BodyBuilder.Admits.addressOf found (by simpa using legal)
  have taken := Relation.ReflTransGen.tail (.single (BodyBuilder.Edit.operation admits))
    (.initialized ⟨⟨.addressOf v b.next, b.loc⟩, mem_push_self, rfl⟩)
  -- The mark may as well come after the use is counted.
  have known : v ≠ b.context.values.next := by
    rintro rfl
    simp [ValueStore.get?_next] at found
  have same := b.context.values.noteUse_add_mark
      (.ofReference (.pointer value.ty) ("&" ++ value.description)) known
  have marked : (b.context.values.modify v ({ · with initialized := true })).next = b.next := by
    simp [ValueStore.next, ValueStore.size, ValueStore.modify, BodyBuilder.next]
  change b.Edits { b with
    context.values := ((b.context.values.modify v ({ · with initialized := true })).add
      (.ofReference (.pointer value.ty) ("&" ++ value.description))).2.noteUse v
    items := b.items.push
      ⟨.addressOf v (b.context.values.modify v ({ · with initialized := true })).next, b.loc⟩ }
  rw [same, marked]
  exact taken

theorem edits_dereference (ptr : ValueId) : Edits b (dereference ptr) := by
  refine edits_read fun {target} reads => ?_
  dsimp only
  cases legal : accessible? target.ty with
  | none => exact edits_reject _
  | some pointee => exact edits_make _ (.dereference reads legal) ⟨rfl, rfl⟩ (edits_pure _)

theorem edits_store (ptr v : ValueId) : Edits b (store ptr v) := by
  refine edits_read fun {target} reads => edits_read fun reads' => ?_
  dsimp only
  cases legal : accessible? target.ty with
  | none => exact edits_reject _
  | some pointee =>
    exact edits_unless fun mutable => edits_unless fun fits => edits_checkUse fun _ =>
      edits_push (.store reads reads' legal (by simpa using mutable) (by simpa using fits))
        ⟨rfl, rfl⟩

theorem edits_member (ptr : ValueId) (field : String) : Edits b (member ptr field) := by
  refine edits_read fun {target} reads => ?_
  dsimp only
  split
  · exact edits_reject _
  · next layout is_struct =>
    split
    · exact edits_reject _
    · exact edits_make _ (.member reads (Ty.isPointer_of_layout? is_struct))
        ⟨rfl, rfl⟩ (edits_pure _)

theorem edits_functionAddress (function : FunctionId) : Edits b (functionAddress function) :=
  edits_declarationOf fun known => edits_unless fun internal =>
    edits_make _ (.functionAddress known (by simpa using internal)) ⟨rfl, rfl⟩ (edits_pure _)

theorem edits_placeLabel (label : LabelId) : Edits b (placeLabel label) :=
  edits_get (edits_unless fun unplaced => .single (.operation (.label unplaced)))

theorem edits_jump (label : LabelId) : Edits b (jump label) := .single (.operation (.jump label))

theorem edits_branch (cond : ValueId) (target : LabelId) (jumpIf spillAll : Bool) :
    Edits b (branch cond target jumpIf spillAll) :=
  edits_read fun {value} reads => edits_unless fun legal =>
    .single (.operation
      (.branch reads (by simpa only [Bool.not_eq_true', Bool.not_eq_false] using legal)))

theorem edits_ret (v : Option ValueId) : Edits b (ret v) := by
  refine edits_get ?_
  cases v with
  | none => exact edits_unless fun legal => edits_push (.leave (by simpa using legal)) ⟨rfl, rfl⟩
  | some v =>
    exact edits_unless fun _ => edits_read fun reads => edits_unless fun legal =>
      edits_checkUse fun _ => edits_push (.ret reads (by simpa using legal)) ⟨rfl, rfl⟩

end

end Build

theorem BodyCall.edits (call : BodyCall) (b : BodyBuilder) : Build.Edits b call.request := by
  cases call with
  | setLine line => exact edits_after _ (b.edits_note (b.context.loc line) _ le_rfl)
  | param index => exact edits_map _ (edits_param _)
  | constant ty bits => exact edits_map _ (edits_constant _ _)
  | floatConstant ty bits => exact edits_map _ (edits_floatConstant _ _)
  | newVariable ty name => exact edits_map _ (edits_newVariable _ _)
  | staticVariable ty name => exact edits_map _ (edits_staticVariable _ _)
  | data element bytes => exact edits_map _ (edits_data _ _)
  | binary op lhs rhs => exact edits_map _ (edits_binary _ _ _)
  | update op target rhs => exact edits_after _ (edits_update _ _ _)
  | compare op lhs rhs => exact edits_map _ (edits_compare _ _ _)
  | unary op operand => exact edits_map _ (edits_unary _ _)
  | convert value ty => exact edits_map _ (edits_convert _ _)
  | assign target value => exact edits_after _ (edits_assign _ _)
  | call function args => exact edits_map _ (edits_call _ _)
  | callIndirect ptr args => exact edits_map _ (edits_callIndirect _ _)
  | addressOf value => exact edits_map _ (edits_addressOf _)
  | dereference ptr => exact edits_map _ (edits_dereference _)
  | store ptr value => exact edits_after _ (edits_store _ _)
  | member ptr field => exact edits_map _ (edits_member _ _)
  | functionAddress function => exact edits_map _ (edits_functionAddress _)
  | newLabel => exact edits_map _ (b.edits_note b.loc _ (Nat.le_succ _))
  | placeLabel label => exact edits_after _ (edits_placeLabel _)
  | jump label => exact edits_after _ (edits_jump _)
  | branch cond target jumpIf spillAll => exact edits_after _ (edits_branch _ _ _ _)
  | ret value => exact edits_after _ (edits_ret _)
  | comment text => exact edits_after _ (edits_push (.comment text) ⟨rfl, rfl⟩)

theorem BodyBuilder.edits_perform (b : BodyBuilder) (calls : List BodyCall) :
    b.Edits (b.perform calls) := by
  induction calls generalizing b with
  | nil => exact .refl
  | cons call rest ih => exact Relation.ReflTransGen.trans (call.edits b) (ih _)

end RegisterBackend
