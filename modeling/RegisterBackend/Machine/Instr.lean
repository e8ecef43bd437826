import RegisterBackend.Machine.Opcode
import RegisterBackend.Machine.Word
import RegisterBackend.Storage.Position

/-!
Instructions as lowering writes them: labels, frame sizes and the addresses of blobs are still
symbols.
-/
namespace RegisterBackend

inductive Imm where
  | value (bits : Word)
  | constantAddress (id : ConstantId)
  | labelAddress (label : LabelId)
  deriving DecidableEq, Repr, Inhabited

def Imm.text : Imm → String
  | .value bits => Word.signedText bits
  | .constantAddress id => "@const" ++ toString id.index
  | .labelAddress label => "@" ++ label.text

/-- Reads an immediate that names a blob or a label back from its text. -/
def Imm.ofText? (s : String) : Option Imm :=
  match "@const".toList.isPrefixOf? s.toList, "@L".toList.isPrefixOf? s.toList with
  | some digits, _ => (number? digits).map fun n => .constantAddress ⟨n⟩
  | none, some digits => (number? digits).map fun n => .labelAddress ⟨n⟩
  | none, none => none

inductive StackAmount where
  /-- Over a frame, less the return address that the call has pushed. -/
  | enter (frame : FrameId)
  | leave (frame : FrameId)
  | statics
  deriving DecidableEq, Repr, Inhabited

def StackAmount.text : StackAmount → String
  | .enter frame => "+frame" ++ toString frame.index
  | .leave frame => "-frame" ++ toString frame.index
  | .statics => "static"

def StackAmount.ofText? (s : String) : Option StackAmount :=
  match "+frame".toList.isPrefixOf? s.toList, "-frame".toList.isPrefixOf? s.toList with
  | some digits, _ => (number? digits).map fun n => .enter ⟨n⟩
  | none, some digits => (number? digits).map fun n => .leave ⟨n⟩
  | none, none => if s = "static" then some .statics else none

inductive Instr where
  | label (id : LabelId)
  | comment (text : String)
  /-- From here on the named value is at `position`. -/
  | location (name : String) (position : Position) (frame : Option FrameId)
  | data (id : ConstantId) (bytes : List UInt8)
  | halt
  | movImm (dst : Register) (imm : Imm)
  | mov (dst src : Register)
  | alu (op : AluOp) (dst src : Register)
  | aluImm (op : AluOp) (dst : Register) (imm : Imm)
  /-- Leaves one or zero in `lhs`. -/
  | cmp (lhs rhs : Register) (cond : Cond)
  | cmpImm (lhs : Register) (imm : Word) (cond : Cond)
  | neg (r : Register)
  | not (r : Register)
  | mask (r : Register) (size : UInt8)
  | signExtend (r : Register) (size : UInt8)
  | floatAlu (op : FloatOp) (dst src : Register)
  | floatNeg (r : Register)
  | floatNarrow (r : Register)
  | floatCmp (dst lhs rhs : Register) (cond : Cond)
  | intToFloat (dst src : Register) (signed : Bool)
  | floatToInt (dst src : Register) (signed : Bool)
  /-- Integer loads read eight bytes, float loads `size` bytes. -/
  | loadStack (dst : Register) (slot : StackSlot) (size : UInt8)
  | storeStack (src : Register) (slot : StackSlot) (size : UInt8)
  | loadPtr (dst ptr : Register) (size : UInt8)
  | storePtr (ptr src : Register) (size : UInt8)
  | leaStack (dst : Register) (slot : StackSlot)
  | copyStack (dst src : StackSlot) (size : Word)
  | copyMem (dst src : Register) (size : Word)
  | runtimeParam (dst : Register) (param : RuntimeParameter)
  | stackAdjust (amount : StackAmount)
  | push (r : Register)
  | pushImm (bits : Word)
  | jump (target : LabelId)
  | jumpIf (r : Register) (target : LabelId) (whenNonzero : Bool)
  | call (target : LabelId)
  | callPtr (r : Register)
  | ret
  | callExternal (dst : Register)
  deriving DecidableEq, Repr, Inhabited

namespace Instr

def byBank (r : Register) (int float : Opcode) : Opcode :=
  if r.isFloat then float else int

def opcode? : Instr → Option Opcode
  | .label _ => none
  | .comment _ => none
  | .location _ _ _ => none
  | .data _ _ => none
  | .halt => some .halt
  | .movImm dst _ => some (byBank dst .movImm .fMovImm)
  | .mov dst _ => some (byBank dst .mov .fMov)
  | .alu op _ _ => some op.registerOpcode
  | .aluImm op _ _ => some op.immediateOpcode
  | .cmp _ _ _ => some .cmp
  | .cmpImm _ _ _ => some .cmpImm
  | .neg _ => some .neg
  | .not _ => some .not
  | .mask _ _ => some .mask
  | .signExtend _ _ => some .signExtend
  | .floatAlu op _ _ => some op.opcode
  | .floatNeg _ => some .fNeg
  | .floatNarrow _ => some .fNarrow
  | .floatCmp _ _ _ _ => some .fCmp
  | .intToFloat _ _ _ => some .intToFloat
  | .floatToInt _ _ _ => some .floatToInt
  | .loadStack dst _ _ => some (byBank dst .loadStack .fLoadStack)
  | .storeStack src _ _ => some (byBank src .storeStack .fStoreStack)
  | .loadPtr dst _ _ => some (byBank dst .loadPtr .fLoadPtr)
  | .storePtr _ src _ => some (byBank src .storePtr .fStorePtr)
  | .leaStack _ _ => some .leaStack
  | .copyStack _ _ _ => some .copyStack
  | .copyMem _ _ _ => some .copyMem
  | .runtimeParam _ _ => some .runtimeParam
  | .stackAdjust _ => some .stackAdjust
  | .push r => some (byBank r .push .fPush)
  | .pushImm _ => some .pushImm
  | .jump _ => some .jmp
  | .jumpIf _ _ whenNonzero => some (if whenNonzero then .jnz else .jz)
  | .call _ => some .call
  | .callPtr _ => some .callPtr
  | .ret => some .ret
  | .callExternal _ => some .callExternal

def isMarker : Instr → Bool
  | .label _ => true
  | .comment _ => true
  | .location _ _ _ => true
  | _ => false

/-- Bytes of the instruction when nothing is left out. -/
def nominalSize : Instr → Nat
  | .data _ bytes => bytes.length
  | i => (i.opcode?.map Opcode.size).getD 0

/-- The instruction does nothing, whatever the frame sizes are. -/
def isNoop : Instr → Bool
  | .mov dst src => dst == src
  | .aluImm op _ (.value bits) => op.isIdentity bits
  | _ => false

def signText (signed : Bool) : String := if signed then "s" else "u"

def operandTexts : Instr → List String
  | .label _ => []
  | .comment _ => []
  | .location _ _ _ => []
  | .data _ _ => []
  | .halt => []
  | .movImm dst imm => [dst.text, imm.text]
  | .mov dst src => [dst.text, src.text]
  | .alu _ dst src => [dst.text, src.text]
  | .aluImm _ dst imm => [dst.text, imm.text]
  | .cmp lhs rhs cond => [lhs.text, rhs.text, cond.mnemonic]
  | .cmpImm lhs imm cond => [lhs.text, Word.signedText imm, cond.mnemonic]
  | .neg r => [r.text]
  | .not r => [r.text]
  | .mask r size => [r.text, toString size.toNat]
  | .signExtend r size => [r.text, toString size.toNat]
  | .floatAlu _ dst src => [dst.text, src.text]
  | .floatNeg r => [r.text]
  | .floatNarrow r => [r.text]
  | .floatCmp dst lhs rhs cond => [dst.text, lhs.text, rhs.text, cond.mnemonic]
  | .intToFloat dst src signed => [dst.text, src.text, signText signed]
  | .floatToInt dst src signed => [dst.text, src.text, signText signed]
  | .loadStack dst slot size => [dst.text, slot.text, toString size.toNat]
  | .storeStack src slot size => [slot.text, src.text, toString size.toNat]
  | .loadPtr dst ptr size => [dst.text, "[" ++ ptr.text ++ "]", toString size.toNat]
  | .storePtr ptr src size => ["[" ++ ptr.text ++ "]", src.text, toString size.toNat]
  | .leaStack dst slot => [dst.text, slot.text]
  | .copyStack dst src size => [dst.text, src.text, toString size.toNat]
  | .copyMem dst src size => ["[" ++ dst.text ++ "]", "[" ++ src.text ++ "]", toString size.toNat]
  | .runtimeParam dst param => [dst.text, param.name]
  | .stackAdjust amount => [amount.text]
  | .push r => [r.text]
  | .pushImm bits => [toString bits.toNat]
  | .jump target => [target.text]
  | .jumpIf r target _ => [r.text, target.text]
  | .call target => [target.text]
  | .callPtr r => [r.text]
  | .ret => []
  | .callExternal dst => [dst.text]

def text (i : Instr) : String :=
  match i with
  | .label id => id.text ++ ":"
  | .comment text => "; " ++ text
  | .location name position _ => "; loc " ++ name ++ " = " ++ position.text
  | .data id bytes => "const" ++ toString id.index ++ ": " ++ toString bytes.length ++ " bytes"
  | i =>
    let mnemonic := (i.opcode?.map Opcode.mnemonic).getD ""
    match i.operandTexts with
    | [] => mnemonic
    | operands => mnemonic ++ " " ++ String.intercalate ", " operands

end Instr

end RegisterBackend
