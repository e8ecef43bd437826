import RegisterBackend.Image.Assembly
import RegisterBackend.Proofs.Memory

/-!
What the two passes of assembly come to. The fields of an instruction are written down once, with
what each stands for when frames, labels and blobs have their places.
-/
namespace RegisterBackend

open List Option

variable {s : Symbols} {blobs : List (ConstantId × List UInt8)} {bytes : List UInt8}
  {frame : FrameId} {i : Instr} {id : LabelId} {instrs program rest : List Instr}
  {kind : OperandKind} {kinds : List OperandKind} {layout : FrameLayout}
  {next offset pos size : Nat} {op : Opcode} {operands : List Operand} {p : Placed}
  {part : List UInt8 × List Marker} {seen : List LabelId} {α β ε : Type}
  {r : Resolution} {a : Assembler}

inductive CodeField where
  | register (r : Register)
  | byte (value : UInt8)
  | word (value : Word)
  | immediate (imm : Imm)
  | slot (slot : StackSlot)
  | amount (amount : StackAmount)
  /-- Shown as the distance from the end of the instruction. -/
  | target (label : LabelId)
  deriving DecidableEq

/-- The fields that an image shows, in their order there. -/
def Instr.fields : Instr → List CodeField
  | .movImm dst imm => [.register dst, .immediate imm]
  | .mov dst src => [.register dst, .register src]
  | .alu _ dst src => [.register dst, .register src]
  | .aluImm _ dst imm => [.register dst, .immediate imm]
  | .cmp lhs rhs cond => [.register lhs, .register rhs, .byte cond.toByte]
  | .cmpImm lhs imm cond => [.register lhs, .word imm, .byte cond.toByte]
  | .neg r => [.register r]
  | .not r => [.register r]
  | .mask r size => [.register r, .byte size]
  | .signExtend r size => [.register r, .byte size]
  | .floatAlu _ dst src => [.register dst, .register src]
  | .floatNeg r => [.register r]
  | .floatNarrow r => [.register r]
  | .floatCmp dst lhs rhs cond => [.register dst, .register lhs, .register rhs, .byte cond.toByte]
  | .intToFloat dst src signed => [.register dst, .register src, .byte (if signed then 1 else 0)]
  | .floatToInt dst src signed => [.register dst, .register src, .byte (if signed then 1 else 0)]
  -- Loads of integers always read a word, so that only float loads show their size.
  | .loadStack dst slot size =>
      [.register dst, .slot slot] ++ if dst.isFloat then [.byte size] else []
  | .storeStack src slot size => [.register src, .slot slot, .byte size]
  | .loadPtr dst ptr size =>
    [.register dst, .register ptr] ++ if dst.isFloat then [.byte size] else []
  | .storePtr ptr src size => [.register ptr, .register src, .byte size]
  | .leaStack dst slot => [.register dst, .slot slot]
  | .copyStack dst src size => [.slot dst, .slot src, .word size]
  | .copyMem dst src size => [.register dst, .register src, .word size]
  | .runtimeParam dst param => [.register dst, .byte param.toByte]
  | .stackAdjust amount => [.amount amount]
  | .push r => [.register r]
  | .pushImm bits => [.word bits]
  | .jump target => [.target target]
  | .jumpIf r target _ => [.register r, .target target]
  | .call target => [.target target]
  | .callPtr r => [.register r]
  | .callExternal dst => [.register dst]
  | .label _ | .comment _ | .location _ _ _ | .data _ _ | .halt | .ret => []

structure Resolution where
  layout : FrameLayout
  label : LabelId → Option Nat
  constant : ConstantId → Option Nat

def Symbols.resolution (s : Symbols) (layout : FrameLayout) : Resolution where
  layout
  label id := s.labels.lookup id
  constant id := s.constants.lookup id

def Image.resolution (image : Image) (layout : FrameLayout) : Resolution where
  layout
  label := image.labelOffset?
  constant := image.constantOffset?

def Resolution.frameSize? (r : Resolution) (frame : FrameId) : Option Nat :=
  r.layout.frameSizes[frame.index]?

/-- What a field stands for in an instruction that ends at `next`. -/
def CodeField.resolve (r : Resolution) (next : Nat) : CodeField → Option Operand
  | .register q => some (.register q.id)
  | .byte value => some (.byte value)
  | .word value => some (.word value)
  | .immediate (.value bits) => some (.word bits)
  | .immediate (.constantAddress id) =>
    (r.constant id).map fun offset => .word (BitVec.ofNat 64 offset)
  | .immediate (.labelAddress label) =>
    (r.label label).map fun offset => .word (BitVec.ofNat 64 offset)
  | .slot ⟨.frame frame, offset⟩ =>
    (r.frameSize? frame).map fun (size : Nat) => .word (BitVec.ofInt 64 ((offset : Int) - size))
  | .slot ⟨.outgoing, offset⟩ => some (.word (BitVec.ofNat 64 offset))
  | .amount (.enter frame) =>
    (r.frameSize? frame).map fun (size : Nat) => .word (BitVec.ofInt 64 ((size : Int) - 8))
  | .amount (.leave frame) =>
    (r.frameSize? frame).map fun (size : Nat) => .word (BitVec.ofInt 64 (8 - (size : Int)))
  | .amount .statics => some (.word (BitVec.ofNat 64 r.layout.staticSize))
  | .target label =>
    (r.label label).map fun (offset : Nat) => .word (BitVec.ofInt 64 ((offset : Int) - next))

def Instr.Shows (r : Resolution) (next : Nat) (i : Instr) (operands : List Operand) : Prop :=
  List.Forall₂ (fun field operand => field.resolve r next = some operand) i.fields operands

def Assembler.operand (a : Assembler) (s : Symbols) (next : Nat) :
    CodeField → Except AssemblyError Operand
  | .register r => pure (.register r.id)
  | .byte value => pure (.byte value)
  | .word value => pure (.word value)
  | .immediate imm => Operand.word <$> s.immediate imm
  | .slot slot => a.slotOperand slot
  | .amount amount => (fun d => .word (BitVec.ofInt 64 d)) <$> a.layout.stackAmount amount
  | .target label => Operand.word <$> s.relative label next

theorem operands_eq_mapM (coded : i.opcode?.isSome = true) :
    a.operands s next i = i.fields.mapM (a.operand s next) := by
  cases i <;> simp [Assembler.operands, Instr.fields, Assembler.operand, mapM_cons, mapM_nil]
  case loadStack dst _ _ => cases dst.isFloat <;> simp [Assembler.operand]
  case loadPtr dst _ _ => cases dst.isFloat <;> simp [Assembler.operand]
  all_goals simp [Instr.opcode?] at coded

theorem operand_ok_iff {field : CodeField} {operand : Operand} :
    a.operand s next field = .ok operand ↔
    field.resolve (s.resolution a.layout) next = some operand := by
  cases field with
  | register r | byte value | word value =>
    simp [Assembler.operand, CodeField.resolve, pure, Except.pure]
  | immediate imm =>
    cases imm with
    | value bits => simp [Assembler.operand, CodeField.resolve, Symbols.immediate]
    | constantAddress id =>
      cases h : s.constants.lookup id <;>
        simp [Assembler.operand, CodeField.resolve, Symbols.immediate, Symbols.resolution, h]
    | labelAddress label =>
      cases h : s.labels.lookup label <;>
        simp [Assembler.operand, CodeField.resolve, Symbols.immediate, Symbols.resolution, h]
  | slot slot =>
    obtain ⟨base, offset⟩ := slot
    cases base with
    | frame frame =>
      cases h : a.layout.frameSizes[frame.index]? <;>
        simp [Assembler.operand, Assembler.slotOperand, FrameLayout.displacement, StackSlot.frame?,
          FrameLayout.frameSize, CodeField.resolve, Resolution.frameSize?, Symbols.resolution,
          StackSlot.displacement, h, Except.map]
    | outgoing =>
      simp [Assembler.operand, Assembler.slotOperand, FrameLayout.displacement, StackSlot.frame?,
        CodeField.resolve, StackSlot.displacement, Except.map]
  | amount amount =>
    cases amount with
    | enter frame | leave frame =>
      cases h : a.layout.frameSizes[frame.index]? <;>
        simp [Assembler.operand, FrameLayout.stackAmount, FrameLayout.frameSize, CodeField.resolve,
          Resolution.frameSize?, Symbols.resolution, h, Except.map]
    | statics =>
      simp [Assembler.operand, FrameLayout.stackAmount, CodeField.resolve, Symbols.resolution]
  | target label =>
    cases h : s.labels.lookup label <;>
      simp [Assembler.operand, CodeField.resolve, Symbols.relative, Symbols.resolution, h]

theorem mapM_ok_iff {f : α → Except ε β} {xs : List α} {ys : List β} :
    xs.mapM f = .ok ys ↔ List.Forall₂ (fun x y => f x = .ok y) xs ys := by
  induction xs generalizing ys with
  | nil => simp [pure, Except.pure, eq_comm]
  | cons x rest ih =>
    rw [mapM_cons, forall₂_cons_left_iff]
    cases h : f x with
    | error e => simp [bind, Except.bind]
    | ok y =>
      cases h' : rest.mapM f with
      | error e => simp_all [bind, Except.bind]
      | ok zs =>
        have others {ys : List β} : List.Forall₂ (fun x y => f x = .ok y) rest ys ↔ zs = ys := by
          rw [← ih, h', Except.ok.injEq]
        simp [bind, Except.bind, pure, Except.pure, others, eq_comm]

theorem operands_ok_iff (coded : i.opcode?.isSome = true) :
    a.operands s next i = .ok operands ↔ i.Shows (s.resolution a.layout) next operands := by
  rw [operands_eq_mapM coded, mapM_ok_iff, Instr.Shows]
  simp only [operand_ok_iff]

/-- The table has an operand of this kind for the field. -/
def CodeField.fits : CodeField → OperandKind → Bool
  | .register _, kind => kind.isRegister
  | .byte _, kind => kind == .byte
  | _, kind => kind == .word

theorem operands_registerOpcode (op : AluOp) :
    op.registerOpcode.operands = [.intRegister, .intRegister] := by cases op <;> rfl

theorem operands_immediateOpcode (op : AluOp) :
    op.immediateOpcode.operands = [.intRegister, .word] := by
  cases op <;> rfl

theorem operands_floatOpcode (op : FloatOp) :
    op.opcode.operands = [.floatRegister, .floatRegister] := by
  cases op <;> rfl

theorem fields_fit (coded : i.opcode? = some op) :
    List.Forall₂ (fun field kind => field.fits kind = true) i.fields op.operands := by
  cases i <;> simp only [Instr.opcode?, Option.some.injEq, reduceCtorEq] at coded <;> subst coded
  case alu op dst src =>
    simp [operands_registerOpcode, Instr.fields, CodeField.fits, OperandKind.isRegister]
  case aluImm op dst imm =>
    simp [operands_immediateOpcode, Instr.fields, CodeField.fits, OperandKind.isRegister]
  case floatAlu op dst src =>
    simp [operands_floatOpcode, Instr.fields, CodeField.fits, OperandKind.isRegister]
  -- The bank of a register decides the opcode, and for loads the fields as well.
  all_goals try simp only [Instr.byBank]
  all_goals try split
  all_goals simp_all [Instr.fields, CodeField.fits, Opcode.operands, Opcode.row,
    OperandKind.isRegister]

theorem length_encodeAs {operand : Operand} (encoded : operand.encodeAs? kind = some bytes) :
    bytes.length = kind.size := by
  cases operand <;>
    simp only [Operand.encodeAs?, ite_none_right_eq_some, Option.some.injEq] at encoded
  all_goals
    obtain ⟨fits, rfl⟩ := encoded
    cases kind <;> simp_all [OperandKind.size, OperandKind.isRegister]

theorem encodeAs_of_fits {field : CodeField} {operand : Operand}
    (fits : field.fits kind = true) (resolved : field.resolve r next = some operand) :
    ∃ bytes, operand.encodeAs? kind = some bytes := by
  cases field with
  | register q =>
    cases resolved
    exact ⟨_, if_pos fits⟩
  | byte value =>
    cases resolved
    exact ⟨_, if_pos (by simpa [CodeField.fits] using fits)⟩
  | _ =>
    obtain ⟨w, rfl⟩ : ∃ w, operand = .word w := by
      unfold CodeField.resolve at resolved
      split at resolved
      all_goals first
        | cases resolved; exact ⟨_, rfl⟩
        | obtain ⟨_, _, rfl⟩ := map_eq_some_iff.mp resolved; exact ⟨_, rfl⟩
        | contradiction
    exact ⟨_, if_pos (by simpa [CodeField.fits] using fits)⟩

theorem encodeOperands_of_shows {fields : List CodeField}
    (fit : List.Forall₂ (fun field kind => field.fits kind = true) fields kinds)
    (shown : List.Forall₂
      (fun field operand => field.resolve r next = some operand) fields operands) :
    ∃ bytes, encodeOperands op kinds operands = .ok bytes := by
  induction fit generalizing operands with
  | nil =>
    cases shown
    exact ⟨[], rfl⟩
  | cons first _ ih =>
    cases shown with
    | cons resolved shown =>
      obtain ⟨bytes, encoded⟩ := encodeAs_of_fits first resolved
      obtain ⟨more, rest⟩ := ih shown
      exact ⟨bytes ++ more, by simp [encodeOperands, encoded, rest]⟩

theorem encodeOperands_cons {operand : Operand} {kind : OperandKind}
    (encoded : encodeOperands op (kind :: kinds) (operand :: operands) = .ok bytes) :
    ∃ first rest, operand.encodeAs? kind = some first ∧ encodeOperands op kinds operands = .ok rest
      ∧ bytes = first ++ rest := by
  rw [encodeOperands] at encoded
  cases written : operand.encodeAs? kind with
  | none => simp [written] at encoded
  | some _ => cases others : encodeOperands op kinds operands <;> simp_all

theorem length_encodeOperands (count : kinds.length = operands.length)
    (encoded : encodeOperands op kinds operands = .ok bytes) :
    bytes.length = (kinds.map OperandKind.size).foldr (· + ·) 0 := by
  induction kinds generalizing operands bytes with
  | nil =>
    cases encoded
    rfl
  | cons kind kinds ih =>
    cases operands with
    | nil => cases count
    | cons operand operands =>
      obtain ⟨first, rest, first_encoded, rest_encoded, rfl⟩ := encodeOperands_cons encoded
      rw [length_append, length_encodeAs first_encoded, ih (by simpa using count) rest_encoded,
        map_cons, foldr_cons]

namespace Opcode

theorem encode_ok_iff : op.encode operands = .ok bytes ↔ op.operands.length = operands.length
      ∧ ∃ rest, encodeOperands op op.operands operands = .ok rest ∧ bytes = op.toByte :: rest := by
  unfold encode
  split
  · next different => simp [different]
  · next same =>
    rw [not_not] at same
    cases encodeOperands op op.operands operands with
    | error e => simp
    | ok rest => simp [same, eq_comm]

theorem length_encode (encoded : op.encode operands = .ok bytes) : bytes.length = op.size := by
  obtain ⟨count, rest, rest_encoded, rfl⟩ := encode_ok_iff.mp encoded
  rw [length_cons, length_encodeOperands count rest_encoded, size, Nat.add_comm]

theorem encode_of_shows (coded : i.opcode? = some op) (shows : i.Shows r next operands) :
    ∃ bytes, op.encode operands = .ok bytes := by
  have fit := fields_fit coded
  obtain ⟨rest, encoded⟩ := encodeOperands_of_shows fit shows
  exact ⟨_, encode_ok_iff.mpr ⟨fit.length_eq.symm.trans shows.length_eq, rest, encoded, rfl⟩⟩

end Opcode

def Instr.label? : Instr → Option LabelId
  | .label id => some id
  | _ => none

def Instr.blob? : Instr → Option ConstantId
  | .data id _ => some id
  | _ => none

def Instr.content : Instr → List UInt8
  | .data _ bytes => bytes
  | _ => []

theorem Instr.label?_eq_some : i.label? = some id ↔ i = .label id := by
  cases i <;> simp [Instr.label?]

theorem Instr.blob?_eq_some {id : ConstantId} :
    i.blob? = some id ↔ ∃ bytes, i = .data id bytes := by
  cases i <;> simp [Instr.blob?]

theorem Instr.content_of_blob? (no_blob : i.blob? = none) : i.content = [] := by
  cases i <;> simp_all [Instr.blob?, Instr.content]

theorem Instr.nominalSize_coded (coded : i.opcode? = some op) : i.nominalSize = op.size := by
  cases i <;> simp_all [Instr.nominalSize, Instr.opcode?]

theorem Except.map_ok_iff {f : α → β} {x : Except ε α} {b : β} :
    x.map f = .ok b ↔ ∃ a, x = .ok a ∧ f a = b := by
  cases x <;> simp [Except.map]

namespace Assembler

def measure (a : Assembler) (i : Instr) : Nat :=
  match a.sizeOf i with
  | .ok size => size
  | .error _ => 0

def span (a : Assembler) (program : List Instr) : Nat := (program.map a.measure).sum

def lay (a : Assembler) : (program : List Instr) → (pos : Nat) → List Placed
  | [], _ => []
  | i :: rest, pos => ⟨i, pos, a.measure i⟩ :: a.lay rest (pos + a.measure i)

@[simp] theorem span_nil : a.span [] = 0 := rfl

@[simp] theorem span_cons (i : Instr) (rest : List Instr) :
    a.span (i :: rest) = a.measure i + a.span rest := by simp [span]

@[simp] theorem span_append (first second : List Instr) :
    a.span (first ++ second) = a.span first + a.span second := by simp [span]

theorem lay_append (first second : List Instr) (pos : Nat) : a.lay (first ++ second) pos
      = a.lay first pos ++ a.lay second (pos + a.span first) := by
  induction first generalizing pos with
  | nil => simp [lay]
  | cons i rest ih => simp [lay, ih, Nat.add_assoc]

theorem mem_lay : p ∈ a.lay program pos ↔ ∃ before after, program = before ++ p.instr :: after
      ∧ p.position = pos + a.span before ∧ p.size = a.measure p.instr := by
  constructor
  · intro member
    induction program generalizing pos with
    | nil => cases member
    | cons i rest ih =>
      rcases mem_cons.mp member with rfl | later
      · exact ⟨[], rest, rfl, rfl, rfl⟩
      · obtain ⟨before, after, split, position_eq, size⟩ := ih later
        refine ⟨i :: before, after, by rw [split, cons_append], ?_, size⟩
        rw [position_eq, span_cons, Nat.add_assoc]
  · rintro ⟨before, after, rfl, position_eq, size⟩
    rw [lay_append, lay, ← position_eq, ← size]
    simp

@[simp] theorem map_instr_lay (program : List Instr) (pos : Nat) :
    (a.lay program pos).map Placed.instr = program := by
  induction program generalizing pos with
  | nil => rfl
  | cons i rest ih => simp [lay, ih]

theorem map_size_lay (program : List Instr) (pos : Nat) :
    ((a.lay program pos).map Placed.size).sum = a.span program := by
  induction program generalizing pos with
  | nil => rfl
  | cons i rest ih => simp [lay, ih]

theorem placeFrom_cons (sized : a.sizeOf i = .ok size) : a.placeFrom (i :: rest) pos seen =
      match i.label? with
      | some id =>
        if id ∈ seen then .error (.labelTwice id)
        else (a.placeFrom rest (pos + size) (id :: seen)).map (⟨i, pos, size⟩ :: ·)
      | none => (a.placeFrom rest (pos + size) seen).map (⟨i, pos, size⟩ :: ·) := by
  cases i <;> simp [placeFrom, sized, Instr.label?]

theorem placeFrom_ok_iff {placed : List Placed} : a.placeFrom program pos seen = .ok placed ↔
      (∀ i ∈ program, ∃ size, a.sizeOf i = .ok size) ∧ (program.filterMap Instr.label?).Nodup
        ∧ (∀ id ∈ program.filterMap Instr.label?, id ∉ seen) ∧ placed = a.lay program pos := by
  induction program generalizing pos seen placed with
  | nil => simp [placeFrom, lay, eq_comm]
  | cons i rest ih =>
    cases sized : a.sizeOf i with
    | error e => simp [placeFrom, sized]
    | ok size =>
      have planned : a.measure i = size := by simp [measure, sized]
      rw [placeFrom_cons sized]
      cases is_label : i.label? with
      | none =>
        simp only [Except.map_ok_iff, ih, forall_mem_cons, sized, filterMap_cons_none is_label,
          lay, planned]
        grind
      | some id =>
        simp only [filterMap_cons_some is_label, nodup_cons, forall_mem_cons]
        split
        · next twice => simp [twice]
        · next fresh =>
          simp only [Except.map_ok_iff, ih, sized, lay, planned]
          grind

theorem write_coded (coded : i.opcode? = some op) : a.write s ⟨i, pos, size⟩ = (do
      if size = 0 then return ([], [])
      let operands ← a.operands s (pos + size) i
      return (← op.encode operands, [])) := by
  cases i <;> simp only [Instr.opcode?, Option.some.injEq, reduceCtorEq] at coded <;>
    simp only [write, Instr.opcode?, coded]

theorem write_coded_ok_iff (coded : p.instr.opcode? = some op) :
    a.write s p = .ok part ↔ if p.size = 0 then part = ([], [])
      else ∃ operands bytes, p.instr.Shows (s.resolution a.layout) (p.position + p.size) operands
        ∧ op.encode operands = .ok bytes ∧ part = (bytes, []) := by
  obtain ⟨i, pos, size⟩ := p
  rw [write_coded coded]
  split
  · simp [pure, Except.pure, eq_comm]
  · simp only [← operands_ok_iff (by simp [coded] : i.opcode?.isSome = true)]
    cases a.operands s (pos + size) i with
    | error e => simp [bind, Except.bind]
    | ok operands =>
      cases encoded : op.encode operands with
      | error e => simp [bind, Except.bind, encoded]
      | ok bytes => simp [bind, Except.bind, encoded, pure, Except.pure, eq_comm]

theorem sizeOf_uncoded (uncoded : i.opcode? = none) : a.sizeOf i = .ok i.content.length := by
  cases i <;> simp only [Instr.opcode?, reduceCtorEq] at uncoded <;> cases h : a.optimize <;>
    simp [sizeOf, elides, h, Except.map, Instr.isNoop, Instr.nominalSize,
      Instr.content, Instr.opcode?]

theorem sizeOf_coded (coded : i.opcode? = some op) (sized : a.sizeOf i = .ok size) :
    size = 0 ∨ size = op.size := by
  obtain ⟨elided, _, rfl⟩ := Except.map_ok_iff.mp sized
  cases elided with
  | true => exact .inl rfl
  | false => exact .inr (Instr.nominalSize_coded coded)

theorem write_uncoded (uncoded : p.instr.opcode? = none) (written : a.write s p = .ok part) :
    part.1 = p.instr.content := by
  obtain ⟨i, pos, size⟩ := p
  cases i <;> simp only [Instr.opcode?, reduceCtorEq] at uncoded
  case location name pos frame =>
    cases frame with
    | none =>
      cases written
      rfl
    | some frame =>
      obtain ⟨_, _, rfl⟩ := Except.map_ok_iff.mp written
      rfl
  all_goals
    cases written
    rfl

theorem length_write (planned : a.sizeOf p.instr = .ok p.size) (written : a.write s p = .ok part) :
    part.1.length = p.size := by
  cases coded : p.instr.opcode? with
  | none =>
    rw [write_uncoded coded written, Except.ok.inj ((sizeOf_uncoded coded).symm.trans planned)]
  | some op =>
    rw [write_coded_ok_iff coded] at written
    split at written
    · next left_out => simp [written, left_out]
    · next kept =>
      obtain ⟨_, bytes, _, encoded, rfl⟩ := written
      rw [(sizeOf_coded coded planned).resolve_left kept, ← Opcode.length_encode encoded]

theorem writeFrom_lay (sized : ∀ i ∈ program, ∃ size, a.sizeOf i = .ok size) :
    a.writeFrom s (a.lay program pos) pos
      = ((a.lay program pos).mapM (a.write s)).map fun parts =>
        (parts.flatMap Prod.fst, parts.flatMap Prod.snd) := by
  induction program generalizing pos with
  | nil => rfl
  | cons i rest ih =>
    have planned : a.sizeOf i = .ok (a.measure i) := by
      obtain ⟨size, is_size⟩ := sized i (by simp)
      simp [measure, is_size]
    have rest_written := @ih (pos + a.measure i) fun j member => sized j (by simp [member])
    rw [lay, writeFrom, mapM_cons]
    cases written : a.write s ⟨i, pos, a.measure i⟩ with
    | error e => simp [bind, Except.bind, Except.map]
    | ok part =>
      have length := length_write planned written
      simp only at length
      simp only [ne_eq, not_true_eq_false, ↓reduceIte, length, rest_written]
      cases (a.lay rest (pos + a.measure i)).mapM (a.write s) with
      | error e => simp [bind, Except.bind, Except.map]
      | ok parts => simp [bind, Except.bind, Except.map, pure, Except.pure]

theorem assemble_ok_iff {image : Image} : a.assemble instrs blobs = .ok image ↔
      let placed := a.lay (withBlobs instrs blobs) 0
      (∀ i ∈ withBlobs instrs blobs, ∃ size, a.sizeOf i = .ok size)
        ∧ ((withBlobs instrs blobs).filterMap Instr.label?).Nodup
        ∧ ∃ parts, List.Forall₂ (fun p part => a.write (.ofPlaced placed) p = .ok part) placed parts
          ∧ image = ⟨parts.flatMap Prod.fst, parts.flatMap Prod.snd, labelOffsets placed,
            constantOffsets placed⟩ := by
  rw [assemble, place]
  cases planned : a.placeFrom (withBlobs instrs blobs) 0 [] with
  | error e =>
    refine iff_of_false (by simp) ?_
    rintro ⟨sized, distinct, _⟩
    rw [placeFrom_ok_iff.mpr ⟨sized, distinct, by simp, rfl⟩] at planned
    cases planned
  | ok placed =>
    obtain ⟨sized, distinct, _, rfl⟩ := placeFrom_ok_iff.mp planned
    simp only [writeFrom_lay sized, ← mapM_ok_iff]
    cases (a.lay (withBlobs instrs blobs) 0).mapM
        (a.write (.ofPlaced (a.lay (withBlobs instrs blobs) 0))) with
    | error e => simp [Except.map]
    | ok parts =>
      simp only [Except.map, Symbols.ofPlaced, Except.ok.injEq, exists_eq_left', distinct, true_and]
      constructor
      · rintro rfl
        exact ⟨sized, rfl⟩
      · rintro ⟨_, rfl⟩
        rfl

theorem lookup_eq_some_of_nodup [DecidableEq α] {entries : List (α × β)} {k : α} {b : β}
    (distinct : (entries.map Prod.fst).Nodup) : entries.lookup k = some b ↔ (k, b) ∈ entries := by
  induction entries with
  | nil => simp
  | cons entry rest ih =>
    obtain ⟨k', b'⟩ := entry
    rw [map_cons, nodup_cons] at distinct
    rw [lookup_cons, mem_cons, Prod.mk.injEq]
    by_cases same : k = k'
    · subst same
      have absent : (k, b) ∉ rest := fun member => distinct.1 (mem_map.mpr ⟨_, member, rfl⟩)
      simp [absent, eq_comm]
    · simp [same, beq_false_of_ne same, ih distinct.2]

theorem labelOffsets_eq (placed : List Placed) :
    labelOffsets placed = placed.filterMap fun p => p.instr.label?.map (·, p.position) := by
  refine filterMap_congr fun p _ => ?_
  obtain ⟨i, pos, size⟩ := p
  cases i <;> rfl

theorem constantOffsets_eq (placed : List Placed) : constantOffsets placed
    = (placed.filterMap fun p => p.instr.blob?.map (·, p.position)).reverse := by
  refine congrArg List.reverse (filterMap_congr fun p _ => ?_)
  obtain ⟨i, pos, size⟩ := p
  cases i <;> rfl

theorem mem_offsets_lay {f : Instr → Option α} {id : α} :
    (id, offset) ∈ (a.lay program pos).filterMap (fun p => (f p.instr).map (·, p.position)) ↔
      ∃ before i after, program = before ++ i :: after ∧ f i = some id
        ∧ offset = pos + a.span before := by
  simp only [mem_filterMap, map_eq_some_iff, Prod.mk.injEq]
  constructor
  · rintro ⟨p, member, _, is_id, rfl, rfl⟩
    obtain ⟨before, after, split, position_eq, _⟩ := mem_lay.mp member
    exact ⟨before, p.instr, after, split, is_id, position_eq⟩
  · rintro ⟨before, i, after, split, is_id, rfl⟩
    exact ⟨⟨i, _, a.measure i⟩, mem_lay.mpr ⟨before, after, split, rfl, rfl⟩, id, is_id, rfl, rfl⟩

theorem keys_offsets_lay (f : Instr → Option α) (program : List Instr) (pos : Nat) :
    ((a.lay program pos).filterMap fun p => (f p.instr).map (·, p.position)).map Prod.fst
      = program.filterMap f := by
  rw [List.map_filterMap]
  conv_rhs => rw [← map_instr_lay (a := a) program pos, List.filterMap_map]
  refine List.filterMap_congr fun p _ => ?_
  simp [Option.map_map, Function.comp_def]

theorem label_lay_eq_some (distinct : (program.filterMap Instr.label?).Nodup) :
    (labelOffsets (a.lay program pos)).lookup id = some offset ↔
      ∃ before after, program = before ++ .label id :: after ∧ offset = pos + a.span before := by
  rw [labelOffsets_eq, lookup_eq_some_of_nodup (by rwa [keys_offsets_lay]), mem_offsets_lay]
  constructor
  · rintro ⟨before, i, after, split, is_id, rfl⟩
    rw [Instr.label?_eq_some.mp is_id] at split
    exact ⟨before, after, split, rfl⟩
  · rintro ⟨before, after, split, rfl⟩
    exact ⟨before, _, after, split, rfl, rfl⟩

theorem constant_lay_eq_some {id : ConstantId} (distinct : (program.filterMap Instr.blob?).Nodup) :
    (constantOffsets (a.lay program pos)).lookup id = some offset ↔
      ∃ before bytes after, program = before ++ .data id bytes :: after
      ∧ offset = pos + a.span before := by
  rw [constantOffsets_eq, lookup_eq_some_of_nodup
    (by rwa [map_reverse, nodup_reverse, keys_offsets_lay]), mem_reverse, mem_offsets_lay]
  constructor
  · rintro ⟨before, i, after, split, is_id, rfl⟩
    obtain ⟨bytes, rfl⟩ := Instr.blob?_eq_some.mp is_id
    exact ⟨before, bytes, after, split, rfl⟩
  · rintro ⟨before, bytes, after, split, rfl⟩
    exact ⟨before, _, after, split, rfl, rfl⟩

end Assembler

def FrameLayout.Has (layout : FrameLayout) (frame : FrameId) : Prop :=
  frame.index < layout.frameSizes.size

def CodeField.Known (layout : FrameLayout) (program : List Instr) : CodeField → Prop
  | .immediate (.constantAddress id) => id ∈ program.filterMap Instr.blob?
  | .immediate (.labelAddress label) => label ∈ program.filterMap Instr.label?
  | .slot ⟨.frame frame, _⟩ => layout.Has frame
  | .amount (.enter frame) => layout.Has frame
  | .amount (.leave frame) => layout.Has frame
  | .target label => label ∈ program.filterMap Instr.label?
  | _ => True

def Instr.markedFrame? : Instr → Option FrameId
  | .location _ _ frame => frame
  | _ => none

/-- Everything that the instructions name is there, and no label is placed twice. -/
structure Closed (layout : FrameLayout) (program : List Instr) : Prop where
  distinct : (program.filterMap Instr.label?).Nodup
  marked : ∀ i ∈ program, ∀ frame, i.markedFrame? = some frame → layout.Has frame
  fields : ∀ i ∈ program, ∀ field ∈ i.fields, field.Known layout program

theorem exists_forall₂_iff {R : α → β → Prop} {xs : List α} :
    (∃ ys, List.Forall₂ R xs ys) ↔ ∀ x ∈ xs, ∃ y, R x y := by
  induction xs with
  | nil => exact ⟨by simp, fun _ => ⟨[], .nil⟩⟩
  | cons x rest ih =>
    rw [forall_mem_cons, ← ih]
    constructor
    · rintro ⟨ys, related⟩
      cases related with
      | cons first others => exact ⟨⟨_, first⟩, _, others⟩
    · rintro ⟨⟨y, first⟩, ys, others⟩
      exact ⟨y :: ys, .cons first others⟩

namespace Assembler

theorem resolves_iff {field : CodeField} :
    (∃ operand, field.resolve ((Symbols.ofPlaced (a.lay program pos)).resolution layout) next
      = some operand) ↔ field.Known layout program := by
  have label_known {id : LabelId} {f : Nat → Operand} :
      (∃ operand, ((labelOffsets (a.lay program pos)).lookup id).map f = some operand)
        ↔ id ∈ program.filterMap Instr.label? := by
    rw [← keys_offsets_lay (a := a) Instr.label? program pos, ← labelOffsets_eq]
    simp [← isSome_iff_exists]
  have blob_known {id : ConstantId} {f : Nat → Operand} :
      (∃ operand, ((constantOffsets (a.lay program pos)).lookup id).map f = some operand)
        ↔ id ∈ program.filterMap Instr.blob? := by
    rw [← keys_offsets_lay (a := a) Instr.blob? program pos, constantOffsets_eq]
    simp [← isSome_iff_exists]
  have frame_known {frame : FrameId} {f : Nat → Operand} :
      (∃ operand, (layout.frameSizes[frame.index]?).map f = some operand) ↔ layout.Has frame := by
    simp [← isSome_iff_exists, FrameLayout.Has]
  cases field with
  | register q | byte value | word value => simp [CodeField.resolve, CodeField.Known]
  | immediate imm =>
    cases imm with
    | value bits => simp [CodeField.resolve, CodeField.Known]
    | constantAddress id => exact blob_known
    | labelAddress id => exact label_known
  | slot slot =>
    obtain ⟨base, offset⟩ := slot
    cases base with
    | frame frame => exact frame_known
    | outgoing => simp [CodeField.resolve, CodeField.Known]
  | amount amount =>
    cases amount with
    | enter frame | leave frame => exact frame_known
    | statics => simp [CodeField.resolve, CodeField.Known]
  | target id => exact label_known

theorem shows_iff_known :
    (∃ operands, i.Shows ((Symbols.ofPlaced (a.lay program pos)).resolution layout) next operands)
      ↔ ∀ field ∈ i.fields, field.Known layout program := by
  simp only [Instr.Shows, exists_forall₂_iff, resolves_iff]

theorem frameSize_of_has (has : layout.Has frame) : ∃ size, layout.frameSize frame = .ok size :=
  ⟨layout.frameSizes[frame.index], by simp [FrameLayout.frameSize, Array.getElem?_eq_getElem has]⟩

theorem has_of_frameSize (known : layout.frameSize frame = .ok size) : layout.Has frame := by
  by_contra unknown
  rw [FrameLayout.Has, not_lt] at unknown
  simp [FrameLayout.frameSize, Array.getElem?_eq_none unknown] at known

theorem stackAmount_ok_iff {amount : StackAmount} :
    (∃ d, layout.stackAmount amount = .ok d) ↔ (CodeField.amount amount).Known layout program := by
  have known {frame : FrameId} {f : Int → Int} :
      (∃ d, (Nat.cast <$> layout.frameSize frame).map f = .ok d) ↔ layout.Has frame := by
    cases h : layout.frameSize frame with
    | ok size => simp [Except.map, has_of_frameSize h]
    | error e =>
      refine iff_of_false (by simp [Except.map]) fun has => ?_
      obtain ⟨size, known⟩ := frameSize_of_has has
      cases h.symm.trans known
  cases amount with
  | enter frame | leave frame => simpa [FrameLayout.stackAmount, CodeField.Known] using known
  | statics => simp [FrameLayout.stackAmount, CodeField.Known]

theorem sizeOf_ok_iff : (∃ size, a.sizeOf i = .ok size) ↔
    (a.optimize = true → ∀ amount, i = .stackAdjust amount →
      (CodeField.amount amount).Known a.layout program) := by
  cases optimized : a.optimize with
  | false => simp [sizeOf, elides, optimized, Except.map]
  | true =>
    cases i with
    | stackAdjust amount =>
      have known := @stackAmount_ok_iff program a.layout amount
      cases h : a.layout.stackAmount amount <;>
        simp_all [sizeOf, elides, Except.map]
    | _ => simp [sizeOf, elides, optimized, Except.map]

theorem known_of_elides (elided : a.elides i = .ok true) :
    ∀ field ∈ i.fields, field.Known a.layout program := by
  unfold elides at elided
  split at elided
  · cases elided
  · cases i with
    | stackAdjust amount =>
      obtain ⟨d, is_amount, _⟩ := Except.map_ok_iff.mp elided
      simpa [Instr.fields] using stackAmount_ok_iff.mp ⟨d, is_amount⟩
    | mov dst src => simp [Instr.fields, CodeField.Known]
    | aluImm op dst imm =>
      cases imm with
      | value bits => simp [Instr.fields, CodeField.Known]
      | _ => simp [Instr.isNoop] at elided
    | _ => simp [Instr.isNoop] at elided

theorem size_pos (op : Opcode) : 0 < op.size := by simp [Opcode.size]

theorem elides_of_size_zero (coded : i.opcode? = some op) (planned : a.sizeOf i = .ok 0) :
    a.elides i = .ok true := by
  obtain ⟨elided, is_elided, size⟩ := Except.map_ok_iff.mp planned
  cases elided with
  | true => exact is_elided
  | false => exact absurd ((Instr.nominalSize_coded coded).symm.trans size) (size_pos op).ne'

theorem marked_of_write (written : a.write s p = .ok part)
    (marks : p.instr.markedFrame? = some frame) : a.layout.Has frame := by
  obtain ⟨i, pos, size⟩ := p
  cases i <;> simp only [Instr.markedFrame?, reduceCtorEq] at marks
  subst marks
  obtain ⟨size, known, _⟩ := Except.map_ok_iff.mp written
  exact has_of_frameSize known

theorem write_uncoded_of_marked (uncoded : p.instr.opcode? = none)
    (marked : ∀ frame, p.instr.markedFrame? = some frame → a.layout.Has frame) :
    ∃ part, a.write s p = .ok part := by
  obtain ⟨i, pos, size⟩ := p
  cases i <;> simp only [Instr.opcode?, reduceCtorEq] at uncoded
  case location name place frame =>
    cases frame with
    | none => exact ⟨_, rfl⟩
    | some frame =>
      obtain ⟨size, known⟩ := frameSize_of_has (marked frame rfl)
      exact ⟨([], [⟨pos, .location name place
        (some size)⟩]), by simp [write, known, bind, Except.bind, pure, Except.pure]⟩
  all_goals exact ⟨_, rfl⟩

theorem assembles_iff :
    (∃ image, a.assemble instrs blobs = .ok image) ↔ Closed a.layout (withBlobs instrs blobs) := by
  set program := withBlobs instrs blobs with is_program
  simp only [assemble_ok_iff, ← is_program]
  constructor
  · rintro ⟨_, sized, distinct, parts, written, _⟩
    have at_place {i : Instr} (member : i ∈ program) : ∃ p part, p.instr = i
        ∧ a.sizeOf i = .ok p.size ∧ a.write (.ofPlaced (a.lay program 0)) p = .ok part := by
      obtain ⟨before, after, split⟩ := append_of_mem member
      obtain ⟨size, is_size⟩ := sized i member
      have placed : ⟨i, 0 + a.span before, a.measure i⟩ ∈ a.lay program 0 :=
        mem_lay.mpr ⟨before, after, split, rfl, rfl⟩
      obtain ⟨part, run⟩ := exists_forall₂_iff.mp ⟨parts, written⟩ _ placed
      exact ⟨_, part, rfl, by simp [measure, is_size], run⟩
    refine ⟨distinct, fun i member frame marks => ?_, fun i member => ?_⟩
    · obtain ⟨p, part, rfl, _, run⟩ := at_place member
      exact marked_of_write run marks
    · obtain ⟨p, part, rfl, planned, run⟩ := at_place member
      cases coded : p.instr.opcode? with
      | none => cases h : p.instr <;> simp_all [Instr.opcode?, Instr.fields]
      | some op =>
        rw [write_coded_ok_iff coded] at run
        split at run
        · next left_out => exact known_of_elides (elides_of_size_zero coded (left_out ▸ planned))
        · obtain ⟨operands, _, shows, _⟩ := run
          exact shows_iff_known.mp ⟨operands, shows⟩
  · intro closed
    have sized (i : Instr) (member : i ∈ program) : ∃ size, a.sizeOf i = .ok size := by
      refine sizeOf_ok_iff.mpr fun _ amount is_move => closed.fields i member _ ?_
      simp [is_move, Instr.fields]
    have writes (p : Placed) (member : p ∈ a.lay program 0) :
        ∃ part, a.write (.ofPlaced (a.lay program 0)) p = .ok part := by
      obtain ⟨before, after, split, _⟩ := mem_lay.mp member
      have listed : p.instr ∈ program := by simp [split]
      cases coded : p.instr.opcode? with
      | none => exact write_uncoded_of_marked coded (closed.marked _ listed)
      | some op =>
        simp only [write_coded_ok_iff coded]
        split
        · exact ⟨_, rfl⟩
        · obtain ⟨operands, shows⟩ := shows_iff_known.mpr (closed.fields _ listed)
          obtain ⟨bytes, encoded⟩ := Opcode.encode_of_shows coded shows
          exact ⟨_, operands, bytes, shows, encoded, rfl⟩
    obtain ⟨parts, written⟩ := exists_forall₂_iff.mpr writes
    exact ⟨_, sized, closed.distinct, parts, written, rfl⟩

end Assembler

end RegisterBackend
