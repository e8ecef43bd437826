/-!
The machine's opcode table. An instruction is one opcode byte followed by the operands its row
lists.
-/
namespace RegisterBackend

inductive OperandKind where
  | intRegister
  | floatRegister
  /-- A register whose bank is decided when the instruction runs. -/
  | anyRegister
  | byte
  | word
  deriving DecidableEq, Repr, Inhabited

namespace OperandKind

def size : OperandKind → Nat
  | .word => 8
  | _ => 1

def letter : OperandKind → String
  | .intRegister => "R"
  | .floatRegister => "F"
  | .anyRegister => "X"
  | .byte => "B"
  | .word => "I"

def isRegister : OperandKind → Bool
  | .intRegister => true
  | .floatRegister => true
  | .anyRegister => true
  | _ => false

end OperandKind

inductive Opcode where
  | halt | movImm | mov | fMovImm | fMov
  | add | sub | mul | divS | divU | remS | remU | and | or | xor | shl | shrS | shrU
  | addImm | subImm | mulImm | divSImm | divUImm | remSImm | remUImm | andImm | orImm | xorImm
  | shlImm | shrSImm | shrUImm
  | cmp | cmpImm | neg | not | mask | signExtend
  | fAdd | fSub | fMul | fDiv | fNeg | fCmp | intToFloat | floatToInt | fNarrow
  | loadStack | storeStack | fLoadStack | fStoreStack | loadPtr | storePtr | fLoadPtr | fStorePtr
  | leaStack | copyStack | copyMem | runtimeParam
  | stackAdjust | push | fPush | pushImm
  | jmp | jz | jnz | call | callPtr | ret | callExternal
  deriving DecidableEq, Repr, Hashable, Inhabited

namespace Opcode

def all : List Opcode :=
  [.halt, .movImm, .mov, .fMovImm, .fMov,
   .add, .sub, .mul, .divS, .divU, .remS, .remU, .and, .or, .xor, .shl, .shrS, .shrU,
   .addImm, .subImm, .mulImm, .divSImm, .divUImm, .remSImm, .remUImm, .andImm, .orImm, .xorImm,
   .shlImm, .shrSImm, .shrUImm,
   .cmp, .cmpImm, .neg, .not, .mask, .signExtend,
   .fAdd, .fSub, .fMul, .fDiv, .fNeg, .fCmp, .intToFloat, .floatToInt, .fNarrow,
   .loadStack, .storeStack, .fLoadStack, .fStoreStack, .loadPtr, .storePtr, .fLoadPtr, .fStorePtr,
   .leaStack, .copyStack, .copyMem, .runtimeParam,
   .stackAdjust, .push, .fPush, .pushImm,
   .jmp, .jz, .jnz, .call, .callPtr, .ret, .callExternal]

structure Row where
  byte : UInt8
  name : String
  mnemonic : String
  operands : List OperandKind
  deriving Repr, Inhabited

open OperandKind in
def row : Opcode → Row
  | .halt => ⟨0x00, "Halt", "halt", []⟩
  | .movImm => ⟨0x01, "MovImm", "movi", [intRegister, word]⟩
  | .mov => ⟨0x02, "Mov", "mov", [intRegister, intRegister]⟩
  | .fMovImm => ⟨0x03, "FMovImm", "fmovi", [floatRegister, word]⟩
  | .fMov => ⟨0x04, "FMov", "fmov", [floatRegister, floatRegister]⟩
  | .add => ⟨0x10, "Add", "add", [intRegister, intRegister]⟩
  | .sub => ⟨0x11, "Sub", "sub", [intRegister, intRegister]⟩
  | .mul => ⟨0x12, "Mul", "mul", [intRegister, intRegister]⟩
  | .divS => ⟨0x13, "DivS", "divs", [intRegister, intRegister]⟩
  | .divU => ⟨0x14, "DivU", "divu", [intRegister, intRegister]⟩
  | .remS => ⟨0x15, "RemS", "rems", [intRegister, intRegister]⟩
  | .remU => ⟨0x16, "RemU", "remu", [intRegister, intRegister]⟩
  | .and => ⟨0x17, "And", "and", [intRegister, intRegister]⟩
  | .or => ⟨0x18, "Or", "or", [intRegister, intRegister]⟩
  | .xor => ⟨0x19, "Xor", "xor", [intRegister, intRegister]⟩
  | .shl => ⟨0x1A, "Shl", "shl", [intRegister, intRegister]⟩
  | .shrS => ⟨0x1B, "ShrS", "shrs", [intRegister, intRegister]⟩
  | .shrU => ⟨0x1C, "ShrU", "shru", [intRegister, intRegister]⟩
  | .addImm => ⟨0x20, "AddImm", "addi", [intRegister, word]⟩
  | .subImm => ⟨0x21, "SubImm", "subi", [intRegister, word]⟩
  | .mulImm => ⟨0x22, "MulImm", "muli", [intRegister, word]⟩
  | .divSImm => ⟨0x23, "DivSImm", "divsi", [intRegister, word]⟩
  | .divUImm => ⟨0x24, "DivUImm", "divui", [intRegister, word]⟩
  | .remSImm => ⟨0x25, "RemSImm", "remsi", [intRegister, word]⟩
  | .remUImm => ⟨0x26, "RemUImm", "remui", [intRegister, word]⟩
  | .andImm => ⟨0x27, "AndImm", "andi", [intRegister, word]⟩
  | .orImm => ⟨0x28, "OrImm", "ori", [intRegister, word]⟩
  | .xorImm => ⟨0x29, "XorImm", "xori", [intRegister, word]⟩
  | .shlImm => ⟨0x2A, "ShlImm", "shli", [intRegister, word]⟩
  | .shrSImm => ⟨0x2B, "ShrSImm", "shrsi", [intRegister, word]⟩
  | .shrUImm => ⟨0x2C, "ShrUImm", "shrui", [intRegister, word]⟩
  | .cmp => ⟨0x30, "Cmp", "cmp", [intRegister, intRegister, byte]⟩
  | .cmpImm => ⟨0x31, "CmpImm", "cmpi", [intRegister, word, byte]⟩
  | .neg => ⟨0x32, "Neg", "neg", [intRegister]⟩
  | .not => ⟨0x33, "Not", "not", [intRegister]⟩
  | .mask => ⟨0x34, "Mask", "mask", [intRegister, byte]⟩
  | .signExtend => ⟨0x35, "SignExtend", "sext", [intRegister, byte]⟩
  | .fAdd => ⟨0x40, "FAdd", "fadd", [floatRegister, floatRegister]⟩
  | .fSub => ⟨0x41, "FSub", "fsub", [floatRegister, floatRegister]⟩
  | .fMul => ⟨0x42, "FMul", "fmul", [floatRegister, floatRegister]⟩
  | .fDiv => ⟨0x43, "FDiv", "fdiv", [floatRegister, floatRegister]⟩
  | .fNeg => ⟨0x44, "FNeg", "fneg", [floatRegister]⟩
  | .fCmp => ⟨0x45, "FCmp", "fcmp", [intRegister, floatRegister, floatRegister, byte]⟩
  | .intToFloat => ⟨0x46, "IntToFloat", "itof", [floatRegister, intRegister, byte]⟩
  | .floatToInt => ⟨0x47, "FloatToInt", "ftoi", [intRegister, floatRegister, byte]⟩
  | .fNarrow => ⟨0x48, "FNarrow", "fnarrow", [floatRegister]⟩
  | .loadStack => ⟨0x50, "LoadStack", "lds", [intRegister, word]⟩
  | .storeStack => ⟨0x51, "StoreStack", "sts", [intRegister, word, byte]⟩
  | .fLoadStack => ⟨0x52, "FLoadStack", "flds", [floatRegister, word, byte]⟩
  | .fStoreStack => ⟨0x53, "FStoreStack", "fsts", [floatRegister, word, byte]⟩
  | .loadPtr => ⟨0x54, "LoadPtr", "ldp", [intRegister, intRegister]⟩
  | .storePtr => ⟨0x55, "StorePtr", "stp", [intRegister, intRegister, byte]⟩
  | .fLoadPtr => ⟨0x56, "FLoadPtr", "fldp", [floatRegister, intRegister, byte]⟩
  | .fStorePtr => ⟨0x57, "FStorePtr", "fstp", [intRegister, floatRegister, byte]⟩
  | .leaStack => ⟨0x58, "LeaStack", "leas", [intRegister, word]⟩
  | .copyStack => ⟨0x59, "CopyStack", "cpys", [word, word, word]⟩
  | .copyMem => ⟨0x5A, "CopyMem", "cpym", [intRegister, intRegister, word]⟩
  | .runtimeParam => ⟨0x5B, "RuntimeParam", "rtparam", [intRegister, byte]⟩
  | .stackAdjust => ⟨0x60, "StackAdjust", "sadj", [word]⟩
  | .push => ⟨0x61, "Push", "push", [intRegister]⟩
  | .fPush => ⟨0x62, "FPush", "fpush", [floatRegister]⟩
  | .pushImm => ⟨0x63, "PushImm", "pushi", [word]⟩
  | .jmp => ⟨0x70, "Jmp", "jmp", [word]⟩
  | .jz => ⟨0x71, "Jz", "jz", [intRegister, word]⟩
  | .jnz => ⟨0x72, "Jnz", "jnz", [intRegister, word]⟩
  | .call => ⟨0x73, "Call", "call", [word]⟩
  | .callPtr => ⟨0x74, "CallPtr", "callp", [intRegister]⟩
  | .ret => ⟨0x75, "Ret", "ret", []⟩
  | .callExternal => ⟨0x76, "CallExternal", "callx", [anyRegister]⟩

def toByte (op : Opcode) : UInt8 := op.row.byte

def name (op : Opcode) : String := op.row.name

def mnemonic (op : Opcode) : String := op.row.mnemonic

def operands (op : Opcode) : List OperandKind := op.row.operands

def ofByte? (b : UInt8) : Option Opcode := all.find? (·.toByte == b)

def size (op : Opcode) : Nat := 1 + (op.operands.map OperandKind.size).foldr (· + ·) 0

/-- The last operand is a displacement from the end of the instruction. -/
def isRelative : Opcode → Bool
  | .jmp => true
  | .jz => true
  | .jnz => true
  | .call => true
  | _ => false

end Opcode

inductive AluOp where
  | add | sub | mul | divS | divU | remS | remU | and | or | xor | shl | shrS | shrU
  deriving DecidableEq, Repr, Hashable, Inhabited

namespace AluOp

def all : List AluOp :=
  [.add, .sub, .mul, .divS, .divU, .remS, .remU, .and, .or, .xor, .shl, .shrS, .shrU]

def registerOpcode : AluOp → Opcode
  | .add => .add
  | .sub => .sub
  | .mul => .mul
  | .divS => .divS
  | .divU => .divU
  | .remS => .remS
  | .remU => .remU
  | .and => .and
  | .or => .or
  | .xor => .xor
  | .shl => .shl
  | .shrS => .shrS
  | .shrU => .shrU

def name (op : AluOp) : String := op.registerOpcode.name

def immediateOpcode : AluOp → Opcode
  | .add => .addImm
  | .sub => .subImm
  | .mul => .mulImm
  | .divS => .divSImm
  | .divU => .divUImm
  | .remS => .remSImm
  | .remU => .remUImm
  | .and => .andImm
  | .or => .orImm
  | .xor => .xorImm
  | .shl => .shlImm
  | .shrS => .shrSImm
  | .shrU => .shrUImm

def isCommutative : AluOp → Bool
  | .add => true
  | .mul => true
  | .and => true
  | .or => true
  | .xor => true
  | _ => false

def isDivision : AluOp → Bool
  | .divS => true
  | .divU => true
  | .remS => true
  | .remU => true
  | _ => false

/-- The operation with this immediate leaves every register as it is. -/
def isIdentity (op : AluOp) (imm : BitVec 64) : Bool :=
  match op with
  | .add | .sub | .or | .xor => imm == 0
  | .shl | .shrS | .shrU => imm == 0
  | .mul | .divS | .divU => imm == 1
  | .remS | .remU | .and => false

end AluOp

inductive FloatOp where
  | add | sub | mul | div
  deriving DecidableEq, Repr, Hashable, Inhabited

def FloatOp.all : List FloatOp := [.add, .sub, .mul, .div]

def FloatOp.name : FloatOp → String
  | .add => "Add"
  | .sub => "Sub"
  | .mul => "Mul"
  | .div => "Div"

def FloatOp.opcode : FloatOp → Opcode
  | .add => .fAdd
  | .sub => .fSub
  | .mul => .fMul
  | .div => .fDiv

inductive Cond where
  | eq | ne | ltS | leS | gtS | geS | ltU | leU | gtU | geU
  deriving DecidableEq, Repr, Hashable, Inhabited

namespace Cond

def all : List Cond := [.eq, .ne, .ltS, .leS, .gtS, .geS, .ltU, .leU, .gtU, .geU]

def toByte : Cond → UInt8
  | .eq => 0
  | .ne => 1
  | .ltS => 2
  | .leS => 3
  | .gtS => 4
  | .geS => 5
  | .ltU => 6
  | .leU => 7
  | .gtU => 8
  | .geU => 9

def ofByte? (b : UInt8) : Option Cond := all.find? (·.toByte == b)

/-- The condition that holds of `b` and `a` exactly when this one holds of `a` and `b`. -/
def swapped : Cond → Cond
  | .eq => .eq
  | .ne => .ne
  | .ltS => .gtS
  | .leS => .geS
  | .gtS => .ltS
  | .geS => .leS
  | .ltU => .gtU
  | .leU => .geU
  | .gtU => .ltU
  | .geU => .leU

def mnemonic : Cond → String
  | .eq => "eq"
  | .ne => "ne"
  | .ltS => "lts"
  | .leS => "les"
  | .gtS => "gts"
  | .geS => "ges"
  | .ltU => "ltu"
  | .leU => "leu"
  | .gtU => "gtu"
  | .geU => "geu"

end Cond

inductive RuntimeParameter where
  | codeBase | instructionPointer | stackBase
  deriving DecidableEq, Repr, Hashable, Inhabited

namespace RuntimeParameter

def all : List RuntimeParameter := [.codeBase, .instructionPointer, .stackBase]

def toByte : RuntimeParameter → UInt8
  | .codeBase => 0
  | .instructionPointer => 1
  | .stackBase => 2

def ofByte? (b : UInt8) : Option RuntimeParameter := all.find? (·.toByte == b)

def name : RuntimeParameter → String
  | .codeBase => "code_base"
  | .instructionPointer => "ip"
  | .stackBase => "stack_base"

end RuntimeParameter

end RegisterBackend
