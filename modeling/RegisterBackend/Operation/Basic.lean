import RegisterBackend.Identifier
import RegisterBackend.Operation.Operator

/-!
Mid-level operations: what a function body is made of before registers are chosen.
-/
namespace RegisterBackend

inductive Callee where
  | direct (function : FunctionId)
  | indirect (pointer : ValueId)
  deriving DecidableEq, Repr, Inhabited

inductive Operation where
  /-- When `inPlace`, the variable `lhs` is updated and is also the result. -/
  | binary (op : BinaryOp) (lhs rhs result : ValueId) (inPlace : Bool)
  | compare (op : CompareOp) (lhs rhs result : ValueId)
  | unary (op : UnaryOp) (operand result : ValueId)
  | convert (value result : ValueId)
  | assign (target value : ValueId)
  | call (callee : Callee) (arguments : List ValueId) (result : Option ValueId)
  | addressOf (value result : ValueId)
  | dereference (pointer result : ValueId)
  | store (pointer value : ValueId)
  | member (pointer : ValueId) (offset : Nat) (result : ValueId)
  | functionAddress (function : FunctionId) (result : ValueId)
  | label (target : LabelId)
  | jump (target : LabelId)
  | branch (cond : ValueId) (target : LabelId) (jumpIf spillAll : Bool)
  | ret (value : Option ValueId)
  | comment (text : String)
  deriving DecidableEq, Repr, Inhabited

namespace Operation

def operands : Operation → List ValueId
  | .binary _ lhs rhs _ inPlace => if inPlace then [rhs] else [lhs, rhs]
  | .compare _ lhs rhs _ => [lhs, rhs]
  | .unary _ operand _ => [operand]
  | .convert value _ => [value]
  | .assign _ value => [value]
  | .call (.direct _) arguments _ => arguments
  | .call (.indirect pointer) arguments _ => arguments ++ [pointer]
  | .addressOf value _ => [value]
  | .dereference pointer _ => [pointer]
  | .store pointer value => [pointer, value]
  | .member pointer _ _ => [pointer]
  | .functionAddress _ _ => []
  | .label _ => []
  | .jump _ => []
  | .branch cond _ _ _ => [cond]
  | .ret value => value.toList
  | .comment _ => []

def kind : Operation → String
  | .binary _ _ _ _ _ => "binary"
  | .compare _ _ _ _ => "compare"
  | .unary _ _ _ => "unary"
  | .convert _ _ => "convert"
  | .assign _ _ => "assign"
  | .call _ _ _ => "call"
  | .addressOf _ _ => "address_of"
  | .dereference _ _ => "dereference"
  | .store _ _ => "store"
  | .member _ _ _ => "member"
  | .functionAddress _ _ => "function_address"
  | .label _ => "label"
  | .jump _ => "jump"
  | .branch _ _ _ _ => "branch"
  | .ret _ => "return"
  | .comment _ => "comment"

def isReturn : Operation → Bool
  | .ret _ => true
  | _ => false

def isComment : Operation → Bool
  | .comment _ => true
  | _ => false

def callText (callee : Callee) (arguments : List ValueId) : String :=
  let called := match callee with
    | .direct function => function.text
    | .indirect pointer => "*" ++ pointer.text
  "call " ++ called ++ "(" ++ String.intercalate ", " (arguments.map ValueId.text) ++ ")"

def text : Operation → String
  | .binary op lhs rhs result inPlace =>
    if inPlace ∧ lhs = result then s!"{lhs.text} {op.mnemonic}= {rhs.text}"
    else s!"{result.text} = {op.mnemonic} {lhs.text}, {rhs.text}"
  | .compare op lhs rhs result =>
    s!"{result.text} = cmp.{op.mnemonic} {lhs.text}, {rhs.text}"
  | .unary op operand result => s!"{result.text} = {op.mnemonic} {operand.text}"
  | .convert value result => s!"{result.text} = convert {value.text}"
  | .assign target value => s!"{target.text} := {value.text}"
  | .call callee arguments (some result) => s!"{result.text} = " ++ callText callee arguments
  | .call callee arguments none => callText callee arguments
  | .addressOf value result => s!"{result.text} = &{value.text}"
  | .dereference pointer result => s!"{result.text} = *{pointer.text}"
  | .store pointer value => s!"*{pointer.text} := {value.text}"
  | .member pointer offset result => s!"{result.text} = {pointer.text} + {offset}"
  | .functionAddress function result => s!"{result.text} = &{function.text}"
  | .label target => s!"{target.text}:"
  | .jump target => s!"jump {target.text}"
  | .branch cond target jumpIf spillAll =>
    s!"jump {target.text} " ++ (if jumpIf then "if" else "unless") ++ s!" {cond.text}"
      ++ (if spillAll then " (spill)" else "")
  | .ret (some value) => s!"return {value.text}"
  | .ret none => "return"
  | .comment text => "; " ++ text

end Operation

end RegisterBackend
