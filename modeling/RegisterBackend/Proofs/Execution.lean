import RegisterBackend.Proofs.Agreement

/-!
The books that a context keeps, what each elementary step changes in them, and running the
code that was written between two contexts.
-/
namespace RegisterBackend

open Gen Instr Placement Value

variable {c c' : Context} {p : Placement} {dst r src : Register} {pos target : Position}
  {size : Nat} {statistics : Statistics} {v : ValueId} {value : Value}

def Value.standing (v : Value) : Standing :=
  { ty := v.ty, named := v.isNamed, position := v.position, home := v.home?, dirty := v.isDirty }

theorem Value.standing_mapNamed {v : Value} {data : Named} (is_named : v.named? = some data)
    (f : Named → Named) :
    (v.mapNamed f).standing
    = { v.standing with home := (f data).home, dirty := (f data).dirty } := by
  cases h : v.kind <;> simp only [named?, h] at is_named <;> cases is_named
  simp [Value.standing, mapNamed, isNamed, named?, Value.home?, isDirty, h]

theorem Value.standing_setDirty (v : Value) (dirty : Bool) :
    (v.setDirty dirty).standing = { v.standing with dirty := v.isNamed && dirty } := by
  cases h : v.kind <;>
    simp [Value.standing, setDirty, mapNamed, isNamed, named?, Value.home?,
      isDirty, h]

theorem Value.position_of_register? {v : Value} (at_r : v.register? = some r) :
    v.position = some (.register r) := by
  simp only [Value.register?, Option.bind_eq_some_iff] at at_r
  obtain ⟨pos, is_position, is_register⟩ := at_r
  cases pos with
  | register q =>
    cases is_register
    exact is_position
  | _ => cases is_register

theorem Value.position_setDirty (v : Value) (dirty : Bool) :
    (v.setDirty dirty).position = v.position := by
  cases h : v.kind <;> simp [setDirty, mapNamed, h]

theorem Value.remains_setDirty (v : Value) (dirty : Bool) :
    (v.setDirty dirty).references = v.references ∧ (v.setDirty dirty).isEscaped = v.isEscaped := by
  cases h : v.kind <;> simp [setDirty, mapNamed, isEscaped, named?, h]

namespace Context

def books (c : Context) : Books where
  standing v := (c.values.get? v).map Value.standing
  occupant := c.registers.occupant?
  extent := c.extent

theorem books_eq (values : c'.values = c.values) (registers :
    ∀ r, c'.registers.occupant? r = c.registers.occupant? r) (extent : c'.extent = c.extent) :
    c'.books = c.books :=
  Books.ext (by simp [books, values]) (funext registers) extent

@[simp] theorem books_pushed (c : Context) (i : Instr) : (c.pushed i).books = c.books := rfl

@[simp] theorem books_appended (c : Context) (instrs : List Instr) :
    (c.appended instrs).books = c.books := rfl

@[simp] theorem books_withLock (c : Context) (r : Register) (locked : Bool) :
    (c.withLock r locked).books = c.books :=
  books_eq rfl (fun q => RegisterFile.occupant?_setLocked _ r q locked) rfl

theorem standing_books (found : c.values.get? v = some value) :
    c.books.standing v = some value.standing := by
  simp [books, found]

theorem books_modify {f : Value → Value} (found : c.values.get? v = some value) :
    { c with values := c.values.modify v f }.books = c.books.put v (f value).standing := by
  refine Books.ext (funext fun w => ?_) rfl rfl
  simp only [books, Books.put]
  rw [ValueStore.get?_modify]
  by_cases same : w = v
  · subst same
    simp [found]
  · simp [same]

theorem books_touch (c : Context) (v : ValueId) :
    { c with values := c.values.touch v }.books = c.books :=
  Books.ext (funext fun w => ValueStore.map_get?_touch _ v w _ fun _ _ => rfl) rfl rfl

theorem books_setOccupant (c : Context) (range : r.inRange = true) (occupant : Option ValueId) :
    { c with registers := c.registers.setOccupant r occupant }.books
    = c.books.occupy r occupant := by
  refine Books.ext rfl (funext fun q => ?_) rfl
  simp only [books, Books.occupy]
  rw [RegisterFile.occupant?_setOccupant _ q occupant range, Function.update_apply]

theorem books_relocated {pos : Option Position} (range : r.inRange = true)
    (occupant : Option ValueId) (found : c.values.get? v = some value) (code : Array Instr) :
    { c with
      registers := c.registers.setOccupant r occupant
      values := c.values.modify v ({ · with position := pos })
      code }.books = (c.books.occupy r occupant).put v { value.standing with position := pos } := by
  rw [← c.books_setOccupant range occupant]
  exact books_modify (c := { c with registers := c.registers.setOccupant r occupant }) found

theorem books_spilled {slot : StackSlot} (range : r.inRange = true)
    (found : c.values.get? v = some value) {code : Array Instr} : { c with
      registers := c.registers.setOccupant r none
      values := c.values.modify v ({ · with position := some (.stack slot) })
      code
      statistics }.books
      = (c.books.occupy r none).put v { value.standing with position := some (.stack slot) } :=
  books_relocated (c := { c with statistics }) range none found code

theorem books_seated {pos : Option Position} (file : RegisterFile) (range : r.inRange = true)
    (found : c.values.get? v = some value) {code : Array Instr} : { c with
      registers := file.setOccupant r (some v)
      values := (c.values.modify v ({ · with position := pos })).touch v
      code
      statistics }.books
      = ({ c with registers := file }.books.occupy r (some v)).put v
          { value.standing with position := pos } :=
  (books_touch { c with
    registers := file.setOccupant r (some v)
    values := c.values.modify v ({ · with position := pos })
    code
    statistics } v).trans
  (books_relocated (c := { c with registers := file, statistics }) range (some v) found code)

section
variable (hands : c.Hands size pos c')
include hands

theorem Hands.books : c'.books = c.books.withExtent c'.extent := by
  cases hands <;> rfl

theorem Hands.code : c'.code = c.code := by
  cases hands <;> rfl

theorem Hands.cell : ∃ cell, pos.cell? = some cell
      ∧ c.extent cell.area ≤ cell.offset ∧ cell.Inside size c'.extent := by
  have word : 0 < wordSize := by decide
  cases hands with
  | @slot frame offset current known fits =>
    refine ⟨⟨.frame frame, offset⟩, rfl, by simp [extent, known], ?_⟩
    simp only [Cell.Inside, extent, Frames.size?_withSize known, ↓reduceIte, Option.getD_some]
    exact Nat.add_le_add_left (le_alignUp _ word) _
  | @static offset after => exact ⟨⟨.statics, offset⟩, rfl, after, le_rfl⟩
  | blob =>
    refine ⟨⟨.blob _, 0⟩, rfl, by simp [extent, ConstantPool.get?], ?_⟩
    simp only [Cell.Inside, extent, ConstantPool.get?, Array.getElem?_push_size, Option.map_some,
      List.length_replicate, Option.getD_some, Nat.zero_add]
    exact le_alignUp _ word

end

end Context

namespace MachineState

@[simp] theorem registers_set (s : MachineState) (r q : Register) (w : Word) :
    (s.set r w).registers q = if q = r then w else s.registers q := rfl

@[simp] theorem set_set (s : MachineState) (r : Register) (first second : Word) :
    (s.set r first).set r second = s.set r second := by
  simp only [set, mk.injEq, and_true]
  funext q
  by_cases same : q = r <;> simp [same]

theorem set_self {s : MachineState} {w : Word} (same : s.registers r = w) : s.set r w = s := by
  cases s
  simp only [set, mk.injEq, and_true]
  funext q
  by_cases here : q = r
  · simp [here, ← same]
  · simp [here]

end MachineState

def Placement.locate (p : Placement) : Position → Word
  | .register _ => 0
  | .stack slot => p.slot slot
  | .static offset => p.address ⟨.statics, offset⟩
  | .constant id => p.address ⟨.blob id, 0⟩

theorem Placement.locate_eq_address {cell : Cell} (is_cell : pos.cell? = some cell) :
    p.locate pos = p.address cell := by
  cases pos with
  | register r => cases is_cell
  | stack slot => exact slot_eq_address is_cell
  | static offset => cases is_cell; rfl
  | constant id => cases is_cell; rfl

/-- A register is copied to a place as a value of `size` bytes. -/
def Hardware.stored (hw : Hardware) (p : Placement) (src : Register)
    (target : Position) (size : Nat) (s : MachineState) : MachineState :=
  match target with
  | .register dst => s.set dst (s.registers src)
  | target => s.write (p.locate target) (hw.deposit src.bank (s.registers src) size)

theorem Hardware.stored_of_cell {hw : Hardware} {cell : Cell}
    (is_cell : target.cell? = some cell) (size : Nat) (s : MachineState) :
    hw.stored p src target size s
      = s.write (p.address cell) (hw.deposit src.bank (s.registers src) size) := by
  rw [← locate_eq_address is_cell]
  cases target with
  | register r => cases is_cell
  | _ => rfl

/-- The register that the instruction changes. Functions that are called may change others. -/
def Instr.dest? : Instr → Option Register
  | .movImm dst _ => some dst
  | .mov dst _ => some dst
  | .alu _ dst _ => some dst
  | .aluImm _ dst _ => some dst
  | .cmp dst _ _ => some dst
  | .cmpImm dst _ _ => some dst
  | .neg dst => some dst
  | .not dst => some dst
  | .mask dst _ => some dst
  | .signExtend dst _ => some dst
  | .floatAlu _ dst _ => some dst
  | .floatNeg dst => some dst
  | .floatNarrow dst => some dst
  | .floatCmp dst _ _ _ => some dst
  | .intToFloat dst _ _ => some dst
  | .floatToInt dst _ _ => some dst
  | .loadStack dst _ _ => some dst
  | .loadPtr dst _ _ => some dst
  | .leaStack dst _ => some dst
  | .runtimeParam dst _ => some dst
  | .callExternal dst => some dst
  | _ => none

def StackSlot.KeepsTo (frame : FrameId) (slot : StackSlot) : Prop :=
  slot.base = .frame frame ∨ slot.base = .outgoing

def Position.KeepsTo (frame : FrameId) : Position → Prop
  | .stack slot => slot.KeepsTo frame
  | _ => True

def Instr.KeepsTo (frame : FrameId) : Instr → Prop
  | .loadStack _ slot _ => slot.KeepsTo frame
  | .storeStack _ slot _ => slot.KeepsTo frame
  | .leaStack _ slot => slot.KeepsTo frame
  | .copyStack dst src _ => dst.KeepsTo frame ∧ src.KeepsTo frame
  | _ => True

/-- The instructions that `c'` has beyond those of `c` take the machine from `s` to `s'`. -/
def Executes (hw : Hardware) (p : Placement) (c : Context) (s : MachineState) (c' : Context)
    (s' : MachineState) : Prop :=
  ∃ run, c'.code.toList = c.code.toList ++ run ∧ executeAll hw p run s = some s'

namespace Executes
variable {hw : Hardware} {c1 : Context} {s s1 s' : MachineState}

theorem of_code (same : c'.code = c.code) : Executes hw p c s c' s := ⟨[], by simp [same], rfl⟩

theorem trans (first : Executes hw p c s c1 s1) (second : Executes hw p c1 s1 c' s') :
    Executes hw p c s c' s' := by
  obtain ⟨run, code, ok⟩ := first
  obtain ⟨run', code', ok'⟩ := second
  refine ⟨run ++ run', by rw [code', code, List.append_assoc], ?_⟩
  rw [executeAll_append, ok]
  exact ok'

theorem pushed {i : Instr} (ok : i.execute hw p s = some s') : Executes hw p c s (c.pushed i) s' :=
  ⟨[i], by simp [Context.pushed], by simp [ok]⟩

theorem executeAll_remarks {remarks : List Instr} (only : ∀ i ∈ remarks, i.isRemark = true)
    (s : MachineState) : executeAll hw p remarks s = some s := by
  induction remarks with
  | nil => rfl
  | cons i rest ih =>
    have quiet : i.execute hw p s = some s := by
      have remark := only i (by simp)
      cases i with
      | comment _ => rfl
      | location _ _ _ => rfl
      | _ => cases remark
    rw [executeAll_cons, quiet]
    exact ih fun j member => only j (by simp [member])

theorem remarks {remarks : List Instr} (only : ∀ i ∈ remarks, i.isRemark = true)
    (code : c'.code = c.code ++ remarks) : Executes hw p c s c' s :=
  ⟨remarks, by simp [code], executeAll_remarks only s⟩

theorem appended {instrs : List Instr} (ok : executeAll hw p instrs s = some s') :
    Executes hw p c s (c.appended instrs) s' :=
  ⟨instrs, by simp [Context.appended], ok⟩

end Executes

theorem Gen.runs_loadAddress {u : Unit} (run : Gen.Runs (loadAddress dst pos) c u c') :
    pos.isRegister = false ∧ ∃ instrs, c' = c.appended instrs
      ∧ (∀ i ∈ instrs, i.dest? = some dst ∧ ∀ frame, pos.KeepsTo frame → i.KeepsTo frame)
      ∧ ∀ hw p s, executeAll hw p instrs s = some (s.set dst (p.locate pos)) := by
  cases pos with
  | register r => exact (runs_inconsistent.mp run).elim
  | stack slot =>
    refine ⟨rfl, [.leaStack dst slot], ?_, by simp [dest?, Instr.KeepsTo, Position.KeepsTo],
      fun hw p s => rfl⟩
    simp [runs_emit.mp run, Context.pushed, Context.appended]
  | static offset =>
    simp only [loadAddress, runs_bind, runs_emit] at run
    obtain ⟨_, _, rfl, rfl⟩ := run
    refine ⟨rfl, [.runtimeParam dst .stackBase, .aluImm .add dst (.value (BitVec.ofNat 64 offset))],
      by simp [Context.pushed, Context.appended], by simp [dest?, Instr.KeepsTo], fun hw p s => ?_⟩
    simp [execute, AluOp.eval, Placement.imm, locate, address,
      Placement.base]
  | constant id =>
    simp only [loadAddress, runs_bind, runs_emit] at run
    obtain ⟨_, _, rfl, rfl⟩ := run
    refine ⟨rfl, [.runtimeParam dst .codeBase, .aluImm .add dst (.constantAddress id)],
      by simp [Context.pushed, Context.appended], by simp [dest?, Instr.KeepsTo], fun hw p s => ?_⟩
    simp [execute, AluOp.eval, Placement.imm, locate, address,
      Placement.base]

end RegisterBackend
