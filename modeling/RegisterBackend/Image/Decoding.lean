import RegisterBackend.Image.Encoding
import RegisterBackend.Report.Diagnostics

/-!
Reading an image back. Decoding stops at the first byte that is no opcode or whose operands do not
fit.
-/
namespace RegisterBackend

inductive DecodeError where
  | unknownOpcode (offset : Nat) (byte : UInt8)
  | truncated (offset : Nat) (op : Opcode)
  deriving DecidableEq, Repr, Inhabited

def DecodeError.name : DecodeError → String
  | .unknownOpcode _ _ => "UnknownOpcode"
  | .truncated _ _ => "Truncated"

def DecodeError.message : DecodeError → String
  | .unknownOpcode offset byte =>
    s!"unknown opcode 0x{hexText 2 byte.toNat} at offset 0x{hexText 1 offset}"
  | .truncated offset op => s!"truncated {op.mnemonic} at offset 0x{hexText 1 offset}"

structure Decoded where
  offset : Nat
  op : Opcode
  operands : List Operand
  deriving DecidableEq, Repr, Inhabited

namespace Decoded

def size (d : Decoded) : Nat := d.op.size

def next (d : Decoded) : Nat := d.offset + d.size

/-- Where a relative jump would go, counted from the start of the code. -/
def branchSum? (d : Decoded) : Option Int :=
  if d.op.isRelative then
    match d.operands.getLast? with
    | some (.word displacement) => some (d.next + displacement.toInt)
    | _ => none
  else none

/-- The target of a relative jump, if it is not before the code. The sum is a signed word. -/
def branchTarget (d : Decoded) : Except Fault (Option Nat) :=
  match d.branchSum? with
  | none => .ok none
  | some sum =>
    if (BitVec.ofInt 64 sum).toInt ≠ sum then .error .overflow
    else .ok (if sum < 0 then none else some sum.toNat)

/-- A byte operand means a condition, a parameter or a sign, depending on the opcode. -/
def byteText (op : Opcode) (b : UInt8) : String :=
  match op with
  | .cmp | .cmpImm | .fCmp =>
    match Cond.ofByte? b with
    | some cond => cond.mnemonic
    | none => "cond?" ++ toString b.toNat
  | .runtimeParam =>
    match RuntimeParameter.ofByte? b with
    | some param => param.name
    | none => "param?" ++ toString b.toNat
  | .intToFloat | .floatToInt => Instr.signText (b != 0)
  | _ => toString b.toNat

def operandText (op : Opcode) : OperandKind → Operand → String
  | .floatRegister, .register id => "f" ++ toString id.toNat
  | .anyRegister, .register id => "%" ++ toString id.toNat
  | _, .register id => "r" ++ toString id.toNat
  | _, .byte b => byteText op b
  | _, .word w => Word.signedText w

def operandsText (d : Decoded) : String :=
  match List.zipWith (operandText d.op) d.op.operands d.operands with
  | [] => ""
  | texts => " " ++ String.intercalate ", " texts

def targetText : Option Nat → String
  | some target => " ; -> " ++ hexText 6 target
  | none => ""

def text (d : Decoded) : Except Fault String :=
  d.branchTarget.map fun target =>
    hexText 6 d.offset ++ ": " ++ d.op.mnemonic ++ d.operandsText ++ targetText target

end Decoded

/-- Decodes bytes that start at `offset`: the instructions found, and what stopped it. -/
def decodeFrom (offset : Nat) (bytes : List UInt8) : List Decoded × Option DecodeError :=
  match bytes with
  | [] => ([], none)
  | b :: rest =>
    match Opcode.ofByte? b with
    | none => ([], some (.unknownOpcode offset b))
    | some op =>
      match h : readOperands op.operands rest with
      | none => ([], some (.truncated offset op))
      | some (operands, rest') =>
        have := readOperands_length_le h
        let (found, stopped) := decodeFrom (offset + op.size) rest'
        (⟨offset, op, operands⟩ :: found, stopped)
termination_by bytes.length
decreasing_by
  simp only [List.length_cons]
  omega

/-- The end of the bytes that are looked at; a decoder that cannot go on stands there too. -/
def decodeEnd (code : List UInt8) (limit : Nat) : Nat := min limit code.length

def decode (code : List UInt8) (limit : Nat) : List Decoded × Option DecodeError :=
  decodeFrom 0 (code.take limit)

/-- The instructions of the first `limit` bytes, provided that all of them decode. -/
def disassemble (code : List UInt8) (limit : Nat) : Except DecodeError (List Decoded) :=
  match decode code limit with
  | (found, none) => .ok found
  | (_, some e) => .error e

end RegisterBackend
