import Mathlib
import RegisterBackend.Image.Layout

/-!
The machine that the instructions run on. What its description leaves open, such as a quotient by
zero or the rounding of floats, is a parameter.
-/
namespace RegisterBackend

open Word

variable {before code : List Instr}

structure Hardware where
  divideByZero : AluOp → Word → Word
  /-- Shifts by a whole word or more. -/
  overshift : AluOp → Word → Word → Word
  floatOp : FloatOp → Word → Word → Word
  floatNeg : Word → Word
  floatHolds : Cond → Word → Word → Bool
  intToFloat : (signed : Bool) → Word → Word
  floatToInt : (signed : Bool) → Word → Word
  /-- Doubles are kept in memory as singles and come back as doubles. -/
  single : Word → BitVec 32
  double : BitVec 32 → Word

namespace AluOp

def divides (hw : Hardware) (op : AluOp) (quotient : Word → Word → Word) (a b : Word) : Word :=
  if b = 0 then hw.divideByZero op a else quotient a b

def shifts (hw : Hardware) (op : AluOp) (shift : Word → Nat → Word) (a b : Word) : Word :=
  if b.toNat < 64 then shift a b.toNat else hw.overshift op a b

def eval (hw : Hardware) (op : AluOp) (a b : Word) : Word :=
  match op with
  | .add => a + b
  | .sub => a - b
  | .mul => a * b
  | .divS => op.divides hw BitVec.sdiv a b
  | .divU => op.divides hw BitVec.udiv a b
  | .remS => op.divides hw BitVec.srem a b
  | .remU => op.divides hw BitVec.umod a b
  | .and => a &&& b
  | .or => a ||| b
  | .xor => a ^^^ b
  | .shl => op.shifts hw (· <<< ·) a b
  | .shrS => op.shifts hw BitVec.sshiftRight a b
  | .shrU => op.shifts hw (· >>> ·) a b

theorem eval_comm (hw : Hardware) {op : AluOp} (comm : op.isCommutative = true) (a b : Word) :
    op.eval hw a b = op.eval hw b a := by
  cases op <;> simp only [isCommutative, Bool.false_eq_true] at comm <;> simp only [eval]
  · exact BitVec.add_comm a b
  · exact BitVec.mul_comm a b
  · exact BitVec.and_comm a b
  · exact BitVec.or_comm a b
  · exact BitVec.xor_comm a b

end AluOp

namespace Cond

def holds (cond : Cond) (a b : Word) : Bool :=
  match cond with
  | .eq => a == b
  | .ne => a != b
  | .ltS => a.slt b
  | .leS => a.sle b
  | .gtS => b.slt a
  | .geS => b.sle a
  | .ltU => a.ult b
  | .leU => a.ule b
  | .gtU => b.ult a
  | .geU => b.ule a

theorem holds_swapped (cond : Cond) (a b : Word) : cond.swapped.holds b a = cond.holds a b := by
  cases cond <;> simp only [swapped, holds]
  · exact BEq.comm
  · exact bne_comm

end Cond

def Word.ofBool (b : Bool) : Word := if b then 1 else 0

/-- The low `size` bytes of a word, extended by zeros or by their sign. -/
def Word.narrow (w : Word) (size : Nat) (signed : Bool) : Word :=
  if signed then (w.setWidth (size * 8)).signExtend 64 else (w.setWidth (size * 8)).setWidth 64

abbrev Memory := Word → UInt8

namespace Memory

def bytes (m : Memory) (address : Word) (count : Nat) : List UInt8 :=
  (List.range count).map fun i => m (address + BitVec.ofNat 64 i)

def word (m : Memory) (address : Word) : Word := ofBytes (m.bytes address 8)

def write (m : Memory) (address : Word) (content : List UInt8) : Memory := fun a =>
  content.getD (a - address).toNat (m a)

end Memory

structure MachineState where
  registers : Register → Word
  memory : Memory

namespace MachineState

def set (s : MachineState) (r : Register) (w : Word) : MachineState :=
  { s with registers := fun q => if q = r then w else s.registers q }

def write (s : MachineState) (address : Word) (content : List UInt8) : MachineState :=
  { s with memory := s.memory.write address content }

end MachineState

namespace Hardware

/-- What a register of the bank receives from memory. An integer register reads a whole word,
whatever the size of the value. -/
def fetch (hw : Hardware) (bank : Bank) (m : Memory) (address : Word) (size : Nat) : Word :=
  match bank with
  | .int => m.word address
  | .float =>
    if size = 4 then hw.double (BitVec.ofNat 32 (littleEndian (m.bytes address 4)))
    else ofBytes (m.bytes address size)

def deposit (hw : Hardware) (bank : Bank) (w : Word) (size : Nat) : List UInt8 :=
  match bank with
  | .int => (Word.bytes w).take size
  | .float =>
    if size = 4 then (Word.bytes ((hw.single w).setWidth 64)).take 4
    else (Word.bytes w).take size

end Hardware

/-- Where the areas of memory and the symbols of the code are. -/
structure Placement where
  /-- The first byte of each frame. -/
  frame : FrameId → Word
  /-- The first byte after the frame in use. -/
  outgoing : Word
  statics : Word
  code : Word
  /-- Distances of blobs and labels from the start of the code. -/
  constant : ConstantId → Word
  label : LabelId → Word

namespace Placement

def slot (p : Placement) (slot : StackSlot) : Word :=
  match slot.base with
  | .frame frame => p.frame frame + BitVec.ofNat 64 slot.offset
  | .outgoing => p.outgoing + BitVec.ofNat 64 slot.offset

def imm (p : Placement) : Imm → Word
  | .value bits => bits
  | .constantAddress id => p.constant id
  | .labelAddress label => p.label label

end Placement

namespace Instr

/-- The effect of an instruction that goes on to the next one and leaves the stack pointer
alone. -/
def execute (hw : Hardware) (p : Placement) (s : MachineState) : Instr → Option MachineState
  | .label _ | .comment _ | .location _ _ _ => some s
  | .movImm dst imm => some (s.set dst (p.imm imm))
  | .mov dst src => some (s.set dst (s.registers src))
  | .alu op dst src => some (s.set dst (op.eval hw (s.registers dst) (s.registers src)))
  | .aluImm op dst imm => some (s.set dst (op.eval hw (s.registers dst) (p.imm imm)))
  | .cmp lhs rhs cond =>
    some (s.set lhs (ofBool (cond.holds (s.registers lhs) (s.registers rhs))))
  | .cmpImm lhs imm cond => some (s.set lhs (ofBool (cond.holds (s.registers lhs) imm)))
  | .neg r => some (s.set r (-s.registers r))
  | .not r => some (s.set r (~~~s.registers r))
  | .mask r size => some (s.set r (narrow (s.registers r) size.toNat false))
  | .signExtend r size => some (s.set r (narrow (s.registers r) size.toNat true))
  | .floatAlu op dst src => some (s.set dst (hw.floatOp op (s.registers dst) (s.registers src)))
  | .floatNeg r => some (s.set r (hw.floatNeg (s.registers r)))
  | .floatNarrow r => some (s.set r (hw.double (hw.single (s.registers r))))
  | .floatCmp dst lhs rhs cond =>
    some (s.set dst (ofBool (hw.floatHolds cond (s.registers lhs) (s.registers rhs))))
  | .intToFloat dst src signed => some (s.set dst (hw.intToFloat signed (s.registers src)))
  | .floatToInt dst src signed => some (s.set dst (hw.floatToInt signed (s.registers src)))
  | .loadStack dst slot size =>
    some (s.set dst (hw.fetch dst.bank s.memory (p.slot slot) size.toNat))
  | .storeStack src slot size =>
    some (s.write (p.slot slot) (hw.deposit src.bank (s.registers src) size.toNat))
  | .loadPtr dst ptr size =>
    some (s.set dst (hw.fetch dst.bank s.memory (s.registers ptr) size.toNat))
  | .storePtr ptr src size =>
    some (s.write (s.registers ptr) (hw.deposit src.bank (s.registers src) size.toNat))
  | .leaStack dst slot => some (s.set dst (p.slot slot))
  | .copyStack dst src size =>
    some (s.write (p.slot dst) (s.memory.bytes (p.slot src) size.toNat))
  | .copyMem dst src size =>
    some (s.write (s.registers dst) (s.memory.bytes (s.registers src) size.toNat))
  | .runtimeParam dst .codeBase => some (s.set dst p.code)
  | .runtimeParam dst .stackBase => some (s.set dst p.statics)
  | _ => none

def executeAll (hw : Hardware) (p : Placement) : List Instr → MachineState → Option MachineState
  | [], s => some s
  | i :: rest, s => (i.execute hw p s).bind (executeAll hw p rest)

@[simp] theorem executeAll_nil (hw : Hardware) (p : Placement) (s : MachineState) :
    executeAll hw p [] s = some s := rfl

@[simp] theorem executeAll_cons (hw : Hardware) (p : Placement) (i : Instr) (rest : List Instr)
    (s : MachineState) :
    executeAll hw p (i :: rest) s = (i.execute hw p s).bind (executeAll hw p rest) := rfl

theorem executeAll_append (hw : Hardware) (p : Placement) (first second : List Instr)
    (s : MachineState) :
    executeAll hw p (first ++ second) s = (executeAll hw p first s).bind
    (executeAll hw p second) := by
  induction first generalizing s with
  | nil => rfl
  | cons i rest ih =>
    simp only [List.cons_append, executeAll_cons]
    cases i.execute hw p s with
    | none => rfl
    | some t => exact ih t

end Instr

/-- What an image fixes: the final sizes of the areas and where the symbols are. -/
structure Link where
  layout : FrameLayout
  /-- Addresses of the first byte of the code and of the stack. -/
  codeBase : Word
  stackBase : Word
  constant : ConstantId → Word
  label : LabelId → Word

namespace Link

def frameSize (l : Link) (frame : FrameId) : Nat := l.layout.frameSizes.getD frame.index 0

def amount (l : Link) : StackAmount → Word
  | .enter frame => BitVec.ofNat 64 (l.frameSize frame) - 8
  | .leave frame => 8 - BitVec.ofNat 64 (l.frameSize frame)
  | .statics => BitVec.ofNat 64 l.layout.staticSize

/-- The placement while the stack pointer is `sp`: every frame ends there. -/
def placement (l : Link) (sp : Word) : Placement where
  frame frame := sp - BitVec.ofNat 64 (l.frameSize frame)
  outgoing := sp
  statics := l.stackBase
  code := l.codeBase
  constant := l.constant
  label := l.label

end Link

def labelIndex? (code : List Instr) (label : LabelId) : Option Nat :=
  code.findIdx? (· == .label label)

/-- A machine in the middle of a program: its state, the stack pointer and the number of the
next instruction. -/
structure Processor where
  state : MachineState
  sp : Word
  pc : Nat

namespace Processor

/-- One step within a function. Calls, returns and the end of the program are not steps. -/
def step? (hw : Hardware) (l : Link) (code : List Instr) (q : Processor) : Option Processor :=
  match code[q.pc]? with
  | none => none
  | some (.stackAdjust amount) => some { q with sp := q.sp + l.amount amount, pc := q.pc + 1 }
  | some (.jump target) => (labelIndex? code target).map fun pc => { q with pc }
  | some (.jumpIf r target whenNonzero) =>
    if (q.state.registers r != 0) = whenNonzero then
      (labelIndex? code target).map fun pc => { q with pc }
    else some { q with pc := q.pc + 1 }
  | some i =>
    (i.execute hw (l.placement q.sp) q.state).map fun state => { q with state, pc := q.pc + 1 }

inductive Reaches (hw : Hardware) (l : Link) (code : List Instr) : Processor → Processor → Prop
  | refl (q : Processor) : Reaches hw l code q q
  | step {q q' q'' : Processor} (first : q.step? hw l code = some q')
      (rest : Reaches hw l code q' q'') : Reaches hw l code q q''

variable {hw : Hardware} {l : Link} {sp : Word}

theorem Reaches.trans {q q' q'' : Processor} (first : Reaches hw l code q q')
    (second : Reaches hw l code q' q'') : Reaches hw l code q q'' := by
  induction first with
  | refl q => exact second
  | step first _ ih => exact .step first (ih second)

theorem reaches_executeAll {run after : List Instr} {s s' : MachineState}
    (split : code = before ++ run ++ after)
    (ok : Instr.executeAll hw (l.placement sp) run s = some s') :
    Reaches hw l code ⟨s, sp, before.length⟩ ⟨s', sp, before.length + run.length⟩ := by
  induction run generalizing before s with
  | nil =>
    simp only [Instr.executeAll_nil, Option.some.injEq] at ok
    subst ok
    exact .refl _
  | cons i rest ih =>
    rw [Instr.executeAll_cons, Option.bind_eq_some_iff] at ok
    obtain ⟨t, first, tail⟩ := ok
    have fetched : code[before.length]? = some i := by simp [split]
    have rest_reached := @ih (before ++ [i]) t (by simp [split]) tail
    simp only [List.length_append, List.length_cons, List.length_nil] at rest_reached ⊢
    have one : step? hw l code ⟨s, sp, before.length⟩ = some ⟨t, sp, before.length + 1⟩ := by
      cases i <;> simp_all [step?, Instr.execute]
    refine .step one ?_
    rw [show before.length + (rest.length + 1) = before.length + (0 + 1) + rest.length by omega]
    exact rest_reached

theorem reaches_stackAdjust {after : List Instr} {amount : StackAmount}
    (split : code = before ++ .stackAdjust amount :: after) (s : MachineState) (sp : Word) :
    Reaches hw l code ⟨s, sp, before.length⟩ ⟨s, sp + l.amount amount, before.length + 1⟩ := by
  have fetched : code[before.length]? = some (.stackAdjust amount) := by simp [split]
  exact .step (by simp [step?, fetched]) (.refl _)

theorem reaches_ret {front inner : List Instr} {frame : FrameId}
    {s s1 s' : MachineState} (parts : code = before ++ (front ++ .stackAdjust (.enter frame)
      :: (inner ++ [.stackAdjust (.leave frame), .ret])))
    (front_ok : Instr.executeAll hw (l.placement sp) front s = some s1)
    (inner_ok : Instr.executeAll hw
      (l.placement (sp + l.amount (.enter frame))) inner s1 = some s') :
    ∃ stop, Reaches hw l code ⟨s, sp, before.length⟩ ⟨s', sp, stop⟩ ∧ code[stop]? = some .ret := by
  have through := reaches_executeAll (by simpa using parts) front_ok
  have to_enter : code = (before ++ front) ++ .stackAdjust (.enter frame)
      :: (inner ++ [.stackAdjust (.leave frame), .ret]) := by simpa using parts
  have enter : Reaches hw l code ⟨s1, sp, (before ++ front).length⟩ _ :=
    reaches_stackAdjust to_enter s1 sp
  have to_inner : code = (before ++ front ++ [.stackAdjust (.enter frame)]) ++ inner
      ++ [.stackAdjust (.leave frame), .ret] := by simpa using parts
  have inside := reaches_executeAll to_inner inner_ok
  have to_leave : code = (before ++ front ++ [.stackAdjust (.enter frame)] ++ inner)
      ++ .stackAdjust (.leave frame) :: [.ret] := by simpa using parts
  have leave : Reaches hw l code ⟨s', sp + l.amount (.enter frame), _⟩ _ :=
    reaches_stackAdjust to_leave s' (sp + l.amount (.enter frame))
  have back : sp + l.amount (.enter frame) + l.amount (.leave frame) = sp := by
    simp only [Link.amount]
    ring
  simp only [List.length_append, List.length_cons, List.length_nil, back] at enter inside leave
  refine ⟨_, through.trans (enter.trans (inside.trans leave)), ?_⟩
  have last : code = before ++ front ++ [.stackAdjust (.enter frame)] ++ inner
      ++ [.stackAdjust (.leave frame)] ++ [.ret] := by simpa using parts
  rw [last]
  convert List.getElem?_concat_length
  simp only [List.length_append, List.length_cons, List.length_nil, Nat.zero_add]

end Processor

end RegisterBackend
