import RegisterBackend.Machine.Instr

/-!
Operands as they stand in an image.
-/
namespace RegisterBackend

inductive Operand where
  | register (id : UInt8)
  | byte (value : UInt8)
  | word (value : Word)
  deriving DecidableEq, Repr, Inhabited

def Operand.detail : Operand → String
  | .register id => "Reg(" ++ toString id.toNat ++ ")"
  | .byte value => "Byte(" ++ toString value.toNat ++ ")"
  | .word value => "Imm(" ++ toString value.toNat ++ ")"

/-- Why no image can be made. The last six say that the assembler contradicts itself. -/
inductive AssemblyError where
  | unknownFrame (frame : FrameId)
  | labelTwice (label : LabelId)
  | unplacedConstant (id : ConstantId)
  | unplacedLabel (label : LabelId)
  | unplacedTarget (label : LabelId)
  | misplaced (instr : Instr) (offset planned : Nat)
  | wrongSize (instr : Instr) (written promised : Nat)
  | operandCount (op : Opcode) (expected given : Nat)
  | operandKind (op : Opcode) (operand : Operand) (kind : OperandKind)
  | noOpcode (instr : Instr)
  | noOperands (instr : Instr)
  deriving DecidableEq, Repr, Inhabited

namespace AssemblyError

def detail : AssemblyError → String
  | .unknownFrame frame => s!"unknown frame {frame.index}"
  | .labelTwice label => s!"label {label.text} placed twice"
  | .unplacedConstant id => s!"code constant {id.index} was never laid out"
  | .unplacedLabel label => s!"label {label.text} was never placed"
  | .unplacedTarget label => s!"jump to unplaced label {label.text}"
  | .misplaced instr offset planned =>
    s!"`{instr.text}` emitted at {offset}, laid out at {planned}"
  | .wrongSize instr written promised =>
    s!"`{instr.text}` wrote {written} bytes, promised {promised}"
  | .operandCount op expected given =>
    s!"{op.mnemonic} takes {expected} operands, got {given}"
  | .operandKind op operand kind =>
    s!"{op.mnemonic}: operand {operand.detail} does not match {kind.letter}"
  | .noOpcode instr => s!"`{instr.text}` has no opcode"
  | .noOperands instr => s!"pseudo instruction `{instr.text}` has no operands"

def message (e : AssemblyError) : String := s!"internal compiler error: {e.detail}"

end AssemblyError

/-- The bytes of an operand of the given kind, if it is of that kind. -/
def Operand.encodeAs? (kind : OperandKind) : Operand → Option (List UInt8)
  | .register id => if kind.isRegister then some [id] else none
  | .byte value => if kind = .byte then some [value] else none
  | .word value => if kind = .word then some (Word.bytes value) else none

def encodeOperands (op : Opcode) :
    List OperandKind → List Operand → Except AssemblyError (List UInt8)
  | kind :: kinds, operand :: operands =>
    match operand.encodeAs? kind with
    | none => .error (.operandKind op operand kind)
    | some bytes =>
      match encodeOperands op kinds operands with
      | .error e => .error e
      | .ok rest => .ok (bytes ++ rest)
  | _, _ => .ok []

def Opcode.encode (op : Opcode) (operands : List Operand) : Except AssemblyError (List UInt8) :=
  if op.operands.length ≠ operands.length then
    .error (.operandCount op op.operands.length operands.length)
  else
    match encodeOperands op op.operands operands with
    | .error e => .error e
    | .ok bytes => .ok (op.toByte :: bytes)

/-- Reads one operand and gives the bytes after it; `none` if the bytes end before it does. -/
def readOperand : OperandKind → List UInt8 → Option (Operand × List UInt8)
  | .word, a :: b :: c :: d :: e :: f :: g :: h :: rest =>
    some (.word (Word.ofBytes [a, b, c, d, e, f, g, h]), rest)
  | .word, _ => none
  | .byte, b :: rest => some (.byte b, rest)
  | .intRegister, b :: rest => some (.register b, rest)
  | .floatRegister, b :: rest => some (.register b, rest)
  | .anyRegister, b :: rest => some (.register b, rest)
  | _, [] => none

def readOperands : List OperandKind → List UInt8 → Option (List Operand × List UInt8)
  | [], bytes => some ([], bytes)
  | kind :: kinds, bytes =>
    match readOperand kind bytes with
    | none => none
    | some (operand, rest) =>
      match readOperands kinds rest with
      | none => none
      | some (operands, rest) => some (operand :: operands, rest)

theorem readOperand_length_le {kind : OperandKind} {bytes rest : List UInt8} {operand : Operand}
    (h : readOperand kind bytes = some (operand, rest)) : rest.length ≤ bytes.length := by
  unfold readOperand at h
  split at h <;> simp only [Option.some.injEq, Prod.mk.injEq, reduceCtorEq] at h
  all_goals
    obtain ⟨_, rfl⟩ := h
    simp only [List.length_cons]
    omega

theorem readOperands_length_le {kinds : List OperandKind} {bytes rest : List UInt8}
    {operands : List Operand} (h : readOperands kinds bytes = some (operands, rest)) :
    rest.length ≤ bytes.length := by
  induction kinds generalizing bytes operands rest with
  | nil =>
    simp only [readOperands, Option.some.injEq, Prod.mk.injEq] at h
    exact Nat.le_of_eq (by rw [h.2])
  | cons kind kinds ih =>
    simp only [readOperands] at h
    split at h
    · cases h
    · rename_i first middle read
      split at h
      · cases h
      · rename_i others last readRest
        simp only [Option.some.injEq, Prod.mk.injEq] at h
        have := readOperand_length_le read
        have := ih readRest
        rw [← h.2]
        omega

end RegisterBackend
