import RegisterBackend.Image.Layout

/-!
The second pass of assembly. What is written is compared with what was planned.
-/
namespace RegisterBackend

inductive MarkerKind where
  | comment (text : String)
  /-- `frameSize` turns a forward offset into a displacement. -/
  | location (name : String) (position : Position) (frameSize : Option Nat)
  deriving DecidableEq, Repr, Inhabited

structure Marker where
  offset : Nat
  kind : MarkerKind
  deriving DecidableEq, Repr, Inhabited

structure Image where
  code : List UInt8
  markers : List Marker
  labels : List (LabelId × Nat)
  constants : List (ConstantId × Nat)
  deriving DecidableEq, Repr, Inhabited

namespace Image

def size (image : Image) : Nat := image.code.length

def labelOffset? (image : Image) (label : LabelId) : Option Nat := image.labels.lookup label

def constantOffset? (image : Image) (id : ConstantId) : Option Nat := image.constants.lookup id

def labelIds (image : Image) : List LabelId :=
  (image.labels.map Prod.fst).mergeSort fun a b => a.index ≤ b.index

def constantIds (image : Image) : List ConstantId :=
  (image.constants.map Prod.fst).eraseDups.mergeSort fun a b => a.index ≤ b.index

end Image

structure Symbols where
  labels : List (LabelId × Nat)
  constants : List (ConstantId × Nat)
  deriving DecidableEq, Repr, Inhabited

namespace Symbols

def ofPlaced (placed : List Placed) : Symbols := ⟨labelOffsets placed, constantOffsets placed⟩

def immediate (s : Symbols) : Imm → Except AssemblyError Word
  | .value bits => .ok bits
  | .constantAddress id =>
    match s.constants.lookup id with
    | some offset => .ok (BitVec.ofNat 64 offset)
    | none => .error (.unplacedConstant id)
  | .labelAddress label =>
    match s.labels.lookup label with
    | some offset => .ok (BitVec.ofNat 64 offset)
    | none => .error (.unplacedLabel label)

/-- Distance from `next`, the end of the jump, to the label. -/
def relative (s : Symbols) (target : LabelId) (next : Nat) : Except AssemblyError Word :=
  match s.labels.lookup target with
  | some offset => .ok (BitVec.ofInt 64 ((offset : Int) - next))
  | none => .error (.unplacedTarget target)

end Symbols

namespace Assembler

def slotOperand (a : Assembler) (slot : StackSlot) : Except AssemblyError Operand :=
  (a.layout.displacement slot).map fun d => .word (BitVec.ofInt 64 d)

def operands (a : Assembler) (s : Symbols) (next : Nat) (instr : Instr) :
    Except AssemblyError (List Operand) := do
  match instr with
  | .halt | .ret => return []
  | .movImm dst imm => return [.register dst.id, .word (← s.immediate imm)]
  | .aluImm _ dst imm => return [.register dst.id, .word (← s.immediate imm)]
  | .mov dst src => return [.register dst.id, .register src.id]
  | .alu _ dst src => return [.register dst.id, .register src.id]
  | .floatAlu _ dst src => return [.register dst.id, .register src.id]
  | .cmp lhs rhs cond => return [.register lhs.id, .register rhs.id, .byte cond.toByte]
  | .cmpImm lhs imm cond => return [.register lhs.id, .word imm, .byte cond.toByte]
  | .neg r | .not r | .floatNeg r | .floatNarrow r | .push r | .callPtr r | .callExternal r =>
    return [.register r.id]
  | .mask r size => return [.register r.id, .byte size]
  | .signExtend r size => return [.register r.id, .byte size]
  | .floatCmp dst lhs rhs cond =>
    return [.register dst.id, .register lhs.id, .register rhs.id, .byte cond.toByte]
  | .intToFloat dst src signed =>
    return [.register dst.id, .register src.id, .byte (if signed then 1 else 0)]
  | .floatToInt dst src signed =>
    return [.register dst.id, .register src.id, .byte (if signed then 1 else 0)]
  | .loadStack dst slot size =>
    let place ← a.slotOperand slot
    return [.register dst.id, place] ++ (if dst.isFloat then [.byte size] else [])
  | .storeStack src slot size => return [.register src.id, ← a.slotOperand slot, .byte size]
  | .loadPtr dst ptr size =>
    return [.register dst.id, .register ptr.id] ++ (if dst.isFloat then [.byte size] else [])
  | .storePtr ptr src size => return [.register ptr.id, .register src.id, .byte size]
  | .leaStack dst slot => return [.register dst.id, ← a.slotOperand slot]
  | .copyStack dst src size => return [← a.slotOperand dst, ← a.slotOperand src, .word size]
  | .copyMem dst src size => return [.register dst.id, .register src.id, .word size]
  | .runtimeParam dst param => return [.register dst.id, .byte param.toByte]
  | .stackAdjust amount => return [.word (BitVec.ofInt 64 (← a.layout.stackAmount amount))]
  | .pushImm bits => return [.word bits]
  | .jump target => return [.word (← s.relative target next)]
  | .call target => return [.word (← s.relative target next)]
  | .jumpIf r target _ => return [.register r.id, .word (← s.relative target next)]
  | .label _ | .comment _ | .location _ _ _ | .data _ _ => throw (.noOperands instr)

def write (a : Assembler) (s : Symbols) (p : Placed) :
    Except AssemblyError (List UInt8 × List Marker) := do
  match p.instr with
  | .label _ => return ([], [])
  | .comment text => return ([], [⟨p.position, .comment text⟩])
  | .location name position none => return ([], [⟨p.position, .location name position none⟩])
  | .location name position (some frame) =>
    let size ← a.layout.frameSize frame
    return ([], [⟨p.position, .location name position (some size)⟩])
  | .data _ bytes => return (bytes, [])
  | instr =>
    if p.size = 0 then return ([], [])
    match instr.opcode? with
    | none => throw (.noOpcode instr)
    | some op =>
      let operands ← a.operands s (p.position + p.size) instr
      return (← op.encode operands, [])

def writeFrom (a : Assembler) (s : Symbols) :
    (placed : List Placed) → (offset : Nat) → Except AssemblyError (List UInt8 × List Marker)
  | [], _ => .ok ([], [])
  | p :: rest, offset =>
    if offset ≠ p.position then .error (.misplaced p.instr offset p.position)
    else
      match a.write s p with
      | .error e => .error e
      | .ok (bytes, markers) =>
        if bytes.length ≠ p.size then .error (.wrongSize p.instr bytes.length p.size)
        else
          match a.writeFrom s rest (offset + bytes.length) with
          | .error e => .error e
          | .ok (code, later) => .ok (bytes ++ code, markers ++ later)

def assemble (a : Assembler) (instrs : List Instr) (blobs : List (ConstantId × List UInt8)) :
    Except AssemblyError Image :=
  match a.place instrs blobs with
  | .error e => .error e
  | .ok placed =>
    let s := Symbols.ofPlaced placed
    match a.writeFrom s placed 0 with
    | .error e => .error e
    | .ok (code, markers) => .ok { code, markers, labels := s.labels, constants := s.constants }

end Assembler

end RegisterBackend
