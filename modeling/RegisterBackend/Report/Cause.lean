import RegisterBackend.Operation.Operator
import RegisterBackend.Storage.Position
import RegisterBackend.Ty.Basic

/-!
Why a compilation fails or is questioned. A front end's mistake is a `Rejection`, a doubtful
construct a `Caution`, a broken promise inside the backend an `Inconsistency`.
-/
namespace RegisterBackend

inductive Usage where
  | update (variableName : String)
  | comparison
  | assignment (variableName : String)
  | argument (number : Nat) (callee : String)
  | store
  | result (function : String)
  deriving DecidableEq, Repr, Inhabited

def Usage.text : Usage → String
  | .update name => s!"update of `{name}`"
  | .comparison => "comparison"
  | .assignment name => s!"assignment to `{name}`"
  | .argument number callee => s!"argument {number} of `{callee}`"
  | .store => "store"
  | .result function => s!"return from `{function}`"

inductive Caution where
  | narrowing (source target : Ty) (usage : Usage)
  | pointees (source target : Ty) (usage : Usage)
  | stated (message : String)
  deriving DecidableEq, Repr, Inhabited

def Caution.message : Caution → String
  | .narrowing source target usage =>
    s!"implicit narrowing from {source.text} to {target.text} in {usage.text}"
  | .pointees source target usage =>
    s!"pointee types differ ({source.text} vs {target.text}) in {usage.text}"
  | .stated message => message

inductive Rejection where
  | alreadyDeclared (function : String)
  | parameterType (function : String) (ty : Ty)
  | resultType (function : String) (ty : Ty)
  | externalParameter (function : String) (ty : Ty)
  | externalArguments (function : String)
  | externalResult (function : String) (ty : Ty)
  | staticType (name : String) (ty : Ty)
  | externalEntry (function : String)
  | entryParameters (function : String)
  | externalBody (function : String)
  | alreadyDefined (function : String)
  | parameterNames (function : String) (declared given : Nat)
  | neverDefined (function : String)
  | uninitialized (description : String)
  | noParameter (index : Nat)
  | integerConstant (ty : Ty) (value : Int)
  | floatConstant (ty : Ty) (digits : String)
  | variableType (name : String) (ty : Ty)
  | dataShape (count : Nat) (element : Ty)
  | operands (op : BinaryOp) (lhs rhs : Ty)
  | mixedOperands (op : BinaryOp) (lhs rhs : Ty)
  | floatOperator (op : BinaryOp)
  | pointerDifference (lhs rhs : Ty)
  | pointerArithmetic (ty : Ty)
  | divisionByZero
  | updateTarget
  | constantTarget (name : String)
  | pointerUpdate (added : Ty) (name : String) (ty : Ty)
  | comparison (lhs rhs : Ty)
  | unaryOperand (op : UnaryOp) (ty : Ty)
  | conversion (source target : Ty)
  | assignmentTarget
  | assignment (source : Ty) (name : String) (target : Ty)
  | argumentCount (callee : String) (expected given : Nat)
  | argumentType (number : Nat) (callee : String) (given expected : Ty)
  | notCallable (ty : Ty)
  | constantAddress (description : String)
  | temporaryAddress
  | dereference (ty : Ty)
  | storeTarget (ty : Ty)
  | storeValue (source pointer : Ty)
  | notStruct (ty : Ty)
  | noField (struct field : String)
  | externalAddress (function : String)
  | labelTwice (label : LabelId)
  | labelMissing (label : LabelId)
  | branchCondition (ty : Ty)
  | voidResult (function : String)
  | missingResult (function : String) (ty : Ty)
  | resultValue (function : String) (expected given : Ty)
  | frameFull (size : Nat)
  | stated (message : String)
  deriving DecidableEq, Repr, Inhabited

def Rejection.message : Rejection → String
  | .alreadyDeclared function => s!"function `{function}` is already declared"
  | .parameterType function ty => s!"parameter of `{function}` cannot have type {ty.text}"
  | .resultType function ty => s!"`{function}` cannot return {ty.text}"
  | .externalParameter function ty =>
    s!"external function `{function}` cannot take {ty.text} by value"
  | .externalArguments function => s!"too many arguments for external function `{function}`"
  | .externalResult function ty => s!"external function `{function}` cannot return {ty.text}"
  | .staticType name ty => s!"static `{name}` cannot have type {ty.text}"
  | .externalEntry function => s!"external function `{function}` cannot be the entry point"
  | .entryParameters function => s!"entry function `{function}` cannot take parameters"
  | .externalBody function => s!"external function `{function}` cannot have a body"
  | .alreadyDefined function => s!"function `{function}` is already defined"
  | .parameterNames function declared given =>
    s!"`{function}` declares {declared} parameters but {given} names were given"
  | .neverDefined function => s!"function `{function}` is declared but never defined"
  | .uninitialized description => s!"`{description}` is used before it is initialized"
  | .noParameter index => s!"parameter {index} does not exist"
  | .integerConstant ty value => s!"{ty.text} cannot hold the integer {value}"
  | .floatConstant ty digits => s!"{ty.text} cannot hold the float {digits}"
  | .variableType name ty => s!"variable `{name}` cannot have type {ty.text}"
  | .dataShape count element => s!"{count} bytes of data do not form an array of {element.text}"
  | .operands op lhs rhs => s!"invalid operands to {op.mnemonic}: {lhs.text} and {rhs.text}"
  | .mixedOperands op lhs rhs =>
    s!"cannot mix {lhs.text} and {rhs.text} in {op.mnemonic}; convert explicitly"
  | .floatOperator op => s!"{op.mnemonic} is not defined for floats"
  | .pointerDifference lhs rhs => s!"cannot subtract {rhs.text} from {lhs.text}"
  | .pointerArithmetic ty => s!"arithmetic on {ty.text}"
  | .divisionByZero => "division by zero"
  | .updateTarget => "left side of a compound assignment is not a variable"
  | .constantTarget name => s!"cannot assign to const `{name}`"
  | .pointerUpdate added name ty => s!"cannot add {added.text} to `{name}` of type {ty.text}"
  | .comparison lhs rhs => s!"cannot compare {lhs.text} with {rhs.text}"
  | .unaryOperand op ty => s!"{op.mnemonic} is not defined for {ty.text}"
  | .conversion source target => s!"cannot convert {source.text} to {target.text}"
  | .assignmentTarget => "assignment target is not a variable"
  | .assignment source name target =>
    s!"cannot assign {source.text} to `{name}` of type {target.text}"
  | .argumentCount callee expected given =>
    s!"`{callee}` expects {expected} arguments, got {given}"
  | .argumentType number callee given expected =>
    s!"argument {number} of `{callee}` has type {given.text}, expected {expected.text}"
  | .notCallable ty => s!"called value of type {ty.text} is not a function pointer"
  | .constantAddress description => s!"cannot take the address of the constant {description}"
  | .temporaryAddress => "cannot take the address of an uninitialized temporary"
  | .dereference ty => s!"cannot dereference {ty.text}"
  | .storeTarget ty => s!"cannot store through {ty.text}"
  | .storeValue source pointer => s!"cannot store {source.text} through {pointer.text}"
  | .notStruct ty => s!"{ty.text} does not point to a struct"
  | .noField struct field => s!"struct {struct} has no field `{field}`"
  | .externalAddress function => s!"cannot take the address of external function `{function}`"
  | .labelTwice label => s!"label {label.text} is placed twice"
  | .labelMissing label => s!"label {label.text} is never placed"
  | .branchCondition ty => s!"branch condition cannot have type {ty.text}"
  | .voidResult function => s!"`{function}` returns void"
  | .missingResult function ty => s!"`{function}` must return a value of type {ty.text}"
  | .resultValue function expected given =>
    s!"`{function}` returns {expected.text}, not {given.text}"
  | .frameFull size => s!"{size} more bytes do not fit in the stack frame"
  | .stated message => message

inductive Inconsistency where
  | registerOutOfRange (r : Register)
  | registerHeld (r : Register) (holder : ValueId)
  | releasedEmpty (r : Register)
  | homeInRegister (name : String)
  | homeTwice (name : String)
  | referenceUnderflow (v : ValueId) (description : String)
  | outsideFunction
  | unknownFrame (frame : FrameId)
  | wrongBank (v : ValueId) (description : String) (r : Register)
  | alreadyOwning (v : ValueId) (r owned : Register)
  | heldElsewhere (r : Register) (v : ValueId) (claim : Option Position)
  | dirtyDropped (v : ValueId) (description : String) (r : Register)
  | occupantElsewhere (r : Register) (v : ValueId) (claim : Option Position)
  | occupantBank (v : ValueId) (ty : Ty) (r : Register)
  | registerNotOwned (v : ValueId) (r : Register)
  | sharedPosition (first second : ValueId) (position : Position)
  | everyRegisterLocked (bank : Bank)
  | believedOccupied (r : Register)
  | notNamed (v : ValueId) (description : String)
  | dirtyOutsideRegister (v : ValueId)
  | referencedAtLabel (v : ValueId) (description : String) (r : Register)
  | registerAddress (r : Register)
  | tooWide (v : ValueId) (description : String) (ty : Ty) (r : Register)
  | noLocation (v : ValueId) (description : String)
  | registerCopy (source target : Position)
  | constantAddress (v : ValueId)
  | entryUndeclared (function : FunctionId)
  | functionWithoutFrame (function : String)
  | functionWithoutBody (function : String)
  | occupiedAtStart (r : Register) (v : ValueId) (function : String)
  | callUndeclared (function : FunctionId)
  | floatOperator (op : BinaryOp)
  | indirectCall (ty : Ty)
  | callArity (given expected : Nat)
  | resultWithoutPlace (v : ValueId)
  | externalArity (function : String)
  | noReturnPointer (function : String)
  | voidReturn (v : ValueId) (function : String)
  | storeThrough (ty : Ty)
  | assignmentToUnnamed (v : ValueId)
  | unknownFunction (function : FunctionId)
  | unknownValue (v : ValueId)
  | stated (message : String)
  deriving DecidableEq, Repr, Inhabited

def Inconsistency.message : Inconsistency → String
  | .registerOutOfRange r => s!"register {r.text} out of range"
  | .registerHeld r holder => s!"register {r.text} believed empty but holds {holder.text}"
  | .releasedEmpty r => s!"register {r.text} released while empty"
  | .homeInRegister name => s!"home of `{name}` cannot be a register"
  | .homeTwice name => s!"home of `{name}` assigned twice"
  | .referenceUnderflow v description => s!"reference count underflow on {v.text} ({description})"
  | .outsideFunction => "stack slot requested outside of a function"
  | .unknownFrame frame => s!"frame {frame.index} does not exist"
  | .wrongBank v description r =>
    s!"{v.text} ({description}) bound to {r.text} of the wrong bank"
  | .alreadyOwning v r owned => s!"{v.text} bound to {r.text} while still owning {owned.text}"
  | .heldElsewhere r v claim =>
    s!"{r.text} held {v.text} but the value claims {Position.claimDetail claim}"
  | .dirtyDropped v description r => s!"dirty {v.text} ({description}) dropped from {r.text}"
  | .occupantElsewhere r v claim =>
    s!"{r.text} holds {v.text} but {v.text} reports {Position.claimDetail claim}"
  | .occupantBank v ty r => s!"{v.text} of type {ty.text} sits in {r.text}"
  | .registerNotOwned v r => s!"{v.text} claims {r.text}, which it does not own"
  | .sharedPosition first second position =>
    s!"{first.text} and {second.text} both report {position.text}"
  | .everyRegisterLocked bank => s!"every {bank.name} register is locked"
  | .believedOccupied r => s!"{r.text} believed occupied but is empty"
  | .notNamed v description => s!"{v.text} ({description}) is not a named value"
  | .dirtyOutsideRegister v => s!"dirty {v.text} is not in a register"
  | .referencedAtLabel v description r =>
    s!"{v.text} ({description}) is still referenced in {r.text} at a label"
  | .registerAddress r => s!"address of register {r.text} requested"
  | .tooWide v description ty r =>
    s!"{v.text} ({description}) of type {ty.text} loaded into {r.text}"
  | .noLocation v description => s!"{v.text} ({description}) has no location"
  | .registerCopy source target => s!"memory copy between {source.text} and {target.text}"
  | .constantAddress v => s!"constant {v.text} has no address"
  | .entryUndeclared function => s!"entry {function.text} is not declared"
  | .functionWithoutFrame function => s!"`{function}` has no frame"
  | .functionWithoutBody function => s!"`{function}` has no body"
  | .occupiedAtStart r v function =>
    s!"{r.text} still holds {v.text} at the start of `{function}`"
  | .callUndeclared function => s!"call to undeclared {function.text}"
  | .floatOperator op => s!"{op.mnemonic} reached float lowering"
  | .indirectCall ty => s!"indirect call through {ty.text}"
  | .callArity given expected =>
    s!"call with {given} arguments to a {expected}-parameter signature"
  | .resultWithoutPlace v => s!"call result {v.text} has nowhere to go"
  | .externalArity function => s!"external call to `{function}` with wrong arity"
  | .noReturnPointer function => s!"`{function}` has no return pointer"
  | .voidReturn v function => s!"{v.text} returned from void `{function}`"
  | .storeThrough ty => s!"store through {ty.text}"
  | .assignmentToUnnamed v => s!"assignment to unnamed {v.text}"
  | .unknownFunction function => s!"unknown function {function.text}"
  | .unknownValue v => s!"unknown value {v.text}"
  | .stated message => message

inductive Unsupported where
  | reinterpretation (source target : Ty)
  | implicitConversion (source target : Ty)
  | conversion (source target : Ty)
  | functionValueCall (ty : Ty)
  | stated (message : String)
  deriving DecidableEq, Repr, Inhabited

def Unsupported.message : Unsupported → String
  | .reinterpretation source target =>
    s!"implicit reinterpretation of {source.text} as {target.text}"
  | .implicitConversion source target =>
    s!"implicit conversion from {source.text} to {target.text}"
  | .conversion source target => s!"conversion from {source.text} to {target.text}"
  | .functionValueCall ty => s!"call through a value of function type {ty.text}"
  | .stated message => message

end RegisterBackend
